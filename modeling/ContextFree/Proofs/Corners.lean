import ContextFree.LeftRecursion
import ContextFree.Proofs.Nullable
import ContextFree.Proofs.Searching

/-!
# Left corners

A symbol is a left corner of another when it can come first in a form derived from it in one step,
once the symbols before it are erased. Going from corner to corner, one finds exactly what can come
first in a form derived in any number of steps.

To see that nothing is missed, a derivation is followed from its end. Its last form begins with the
symbol in question. Going back a step, some leading symbol of the form still leads there: if the
right side of the rule held it, the left side leads there by one corner more, and if the right side
was erased altogether, the left side is erased as well.

Left recursion is a symbol that is reached from itself. Since the graph of corners is finite, it is
found by exploration or by search.

## Main definitions

* `ContextFree.Rules.ProperlyDerives` - derivability in one or more steps.

## Main results

* `ContextFree.Rules.path_corners_iff` - what is reached by left corners.
* `ContextFree.Rules.leftRecursive_exact` - left recursion is found exactly.
-/

namespace ContextFree

/-! ### Leading symbols -/

namespace Nullable

variable {n : Nullable} {a b : Form} {symbol s : String}

theorem mem_leading_cons :
    s ∈ n.leading (symbol :: a) ↔ s = symbol ∨ n.contains symbol = true ∧ s ∈ n.leading a := by
  rw [leading]
  split
  · next h => simp [h]
  · next h => simp [h]

/-- The leading symbols of two rows are those of the first, and those of the second if all of the
first is nullable. -/
theorem mem_leading_append :
    s ∈ n.leading (a ++ b) ↔
      s ∈ n.leading a ∨ (∀ t ∈ a, n.contains t = true) ∧ s ∈ n.leading b := by
  induction a with
  | nil => simp [leading]
  | cons symbol rest ih =>
    rw [List.cons_append, mem_leading_cons, mem_leading_cons, ih, List.forall_mem_cons]
    tauto

/-- Before a leading symbol there are nullable ones only. -/
theorem exists_of_mem_leading (h : s ∈ n.leading a) :
    ∃ front back, a = front ++ s :: back ∧ ∀ t ∈ front, n.contains t = true := by
  induction a with
  | nil => exact absurd h List.not_mem_nil
  | cons symbol rest ih =>
    rcases mem_leading_cons.mp h with rfl | ⟨hsymbol, h⟩
    · exact ⟨[], rest, rfl, fun _ ht => absurd ht List.not_mem_nil⟩
    · obtain ⟨front, back, rfl, hfront⟩ := ih h
      exact ⟨symbol :: front, back, rfl, List.forall_mem_cons.mpr ⟨hsymbol, hfront⟩⟩

end Nullable

namespace Rules

variable {rules : Rules} {symbol s : String} {row form : Form}

/-! ### One or more steps -/

/-- One or more steps lead from one form to another. -/
inductive ProperlyDerives (rules : Rules) : Form → Form → Prop where
  /-- A first step, and any number after it. -/
  | intro {front back form : Form} {r : Rule} : r ∈ rules →
      rules.Derives (front ++ r.rhs ++ back) form →
        ProperlyDerives rules (front ++ r.lhs :: back) form

theorem ProperlyDerives.of_mem {r : Rule} (hr : r ∈ rules) (h : rules.Derives r.rhs form) :
    rules.ProperlyDerives [r.lhs] form := by
  have hrest : rules.Derives ([] ++ r.rhs ++ []) form := by simpa using h
  exact .intro hr hrest

/-- The first step from a single symbol is one of its rules. -/
theorem properlyDerives_singleton_iff :
    rules.ProperlyDerives [symbol] form ↔
      ∃ r ∈ rules, r.lhs = symbol ∧ rules.Derives r.rhs form := by
  constructor
  · intro h
    generalize hstart : [symbol] = start at h
    obtain ⟨hr, h⟩ := h
    rename_i front back r
    rcases List.append_eq_singleton_iff.mp hstart.symm with ⟨rfl, hsingle⟩ | ⟨-, hnil⟩
    · obtain ⟨hlhs, rfl⟩ := List.cons.inj hsingle
      exact ⟨r, hr, hlhs, by simpa using h⟩
    · exact absurd hnil (List.cons_ne_nil _ _)
  · rintro ⟨r, hr, rfl, h⟩
    exact .of_mem hr h

/-! ### Corners and derivations -/

/-- A form with a leading symbol derives a form that begins with it. -/
theorem Derives.of_mem_leading (h : s ∈ rules.nullable.leading form) :
    ∃ row, rules.Derives form (s :: row) := by
  obtain ⟨front, back, rfl, hfront⟩ := Nullable.exists_of_mem_leading h
  have herased : rules.Derives front [] :=
    .nil_of_forall fun t ht => Nullable.contains_nullable_iff.mp (hfront t ht)
  exact ⟨back, herased.append_right (s :: back)⟩

/-- A symbol from which a path leads has rules. -/
theorem defines_of_path (h : Path (rules.corners rules.nullable) symbol s) :
    rules.defines symbol = true := by
  obtain ⟨b, hb⟩ := h.exists_next
  obtain ⟨⟨r, hr, hlhs, -⟩, -⟩ := mem_corners.mp hb
  exact defines_iff.mpr ⟨r, hr, hlhs⟩

/-- **Followed from its end**, a derivation of a form that begins with a nonterminal shows a leading
symbol that is the nonterminal, or leads to it by corners. -/
theorem Derives.exists_leading (hs : rules.defines s = true) (h : rules.Derives form (s :: row)) :
    ∃ t ∈ rules.nullable.leading form, t = s ∨ Path (rules.corners rules.nullable) t s := by
  refine h.head_induction
    (P := fun form => ∃ t ∈ rules.nullable.leading form,
      t = s ∨ Path (rules.corners rules.nullable) t s)
    ⟨s, Nullable.mem_leading_cons.mpr (Or.inl rfl), Or.inl rfl⟩ fun front back r hr _ ih => ?_
  obtain ⟨t, ht, hpath⟩ := ih
  rw [List.append_assoc, Nullable.mem_leading_append, Nullable.mem_leading_append] at ht
  rcases ht with ht | ⟨hfront, ht | ⟨hrhs, ht⟩⟩
  · exact ⟨t, Nullable.mem_leading_append.mpr (Or.inl ht), hpath⟩
  · -- the right side held the symbol, so it is a corner of the left side
    have hdefines : rules.defines t = true := by
      rcases hpath with rfl | hpath
      · exact hs
      · exact defines_of_path hpath
    have hcorner : t ∈ rules.corners rules.nullable r.lhs :=
      mem_corners.mpr ⟨⟨r, hr, rfl, ht⟩, hdefines⟩
    refine ⟨r.lhs, Nullable.mem_leading_append.mpr
      (Or.inr ⟨hfront, Nullable.mem_leading_cons.mpr (Or.inl rfl)⟩), Or.inr ?_⟩
    rcases hpath with rfl | hpath
    · exact .single hcorner
    · exact .head hcorner hpath
  · -- the right side is erased, and the left side with it
    have hlhs : rules.nullable.contains r.lhs = true := Nullable.closed_nullable rules r hr hrhs
    exact ⟨t, Nullable.mem_leading_append.mpr
      (Or.inr ⟨hfront, Nullable.mem_leading_cons.mpr (Or.inr ⟨hlhs, ht⟩)⟩), hpath⟩

/-- **What is reached by left corners** is what comes first in a form derived in one or more
steps. -/
theorem path_corners_iff :
    Path (rules.corners rules.nullable) symbol s ↔
      rules.defines s = true ∧ ∃ row, rules.ProperlyDerives [symbol] (s :: row) := by
  simp only [properlyDerives_singleton_iff]
  constructor
  · intro h
    induction h with
    | single hs =>
      obtain ⟨⟨r, hr, hlhs, hleading⟩, hdefines⟩ := mem_corners.mp hs
      obtain ⟨row, hrow⟩ := Derives.of_mem_leading hleading
      exact ⟨hdefines, row, r, hr, hlhs, hrow⟩
    | tail _ hs ih =>
      obtain ⟨-, row, r, hr, hlhs, hrow⟩ := ih
      obtain ⟨⟨r', hr', rfl, hleading⟩, hdefines⟩ := mem_corners.mp hs
      obtain ⟨row', hrow'⟩ := Derives.of_mem_leading hleading
      have hfurther : rules.Derives [r'.lhs] (_ :: row') := (Derives.of_mem hr').trans hrow'
      exact ⟨hdefines, row' ++ row, r, hr, hlhs, hrow.trans (hfurther.append_right row)⟩
  · rintro ⟨hdefines, row, r, hr, rfl, hrow⟩
    obtain ⟨t, ht, hpath⟩ := hrow.exists_leading hdefines
    have hcorner : rules.defines t = true → t ∈ rules.corners rules.nullable r.lhs := fun h =>
      mem_corners.mpr ⟨⟨r, hr, rfl, ht⟩, h⟩
    rcases hpath with rfl | hpath
    · exact .single (hcorner hdefines)
    · exact .head (hcorner (defines_of_path hpath)) hpath

/-! ### Left recursion -/

theorem mem_defined_of_mem_corners {n : Nullable} (h : s ∈ rules.corners n symbol) :
    s ∈ rules.defined :=
  mem_defined.mpr (defines_iff.mp (mem_corners.mp h).2)

/-- A rule list is left-recursive if some symbol is reached from itself by left corners. -/
theorem leftRecursive_iff_exists_path (n : Nullable) :
    rules.leftRecursive n = true ↔
      ∃ symbol, rules.defines symbol = true ∧ Path (rules.corners n) symbol symbol := by
  have hlength : rules.length = rules.defined.length := (List.length_map _).symm
  simp only [leftRecursive, List.any_eq_true, List.mem_eraseDups, List.contains_iff_mem, hlength,
    mem_reached_iff fun a b hb => mem_defined_of_mem_corners hb, mem_defined, defines_iff]

/-- A rule that puts its own left side first is enough. -/
theorem leftRecursive_of_head {n : Nullable} {r : Rule} (hr : r ∈ rules)
    (hhead : r.rhs.head? = some r.lhs) : rules.leftRecursive n = true := by
  obtain ⟨rest, hrhs⟩ := List.head?_eq_some_iff.mp hhead
  have hleading : r.lhs ∈ n.leading r.rhs :=
    hrhs ▸ Nullable.mem_leading_cons.mpr (Or.inl rfl)
  have hdefines : rules.defines r.lhs = true := defines_iff.mpr ⟨r, hr, rfl⟩
  exact (leftRecursive_iff_exists_path n).mpr
    ⟨r.lhs, hdefines, .single (mem_corners.mpr ⟨⟨r, hr, rfl, hleading⟩, hdefines⟩)⟩

/-- **Left recursion is found exactly.** A rule list is left-recursive if some nonterminal derives,
in one or more steps, a form that begins with itself, and a rule that puts its own left side first
settles it at once. For each nonterminal, the search for it from itself along left corners ends, and
finds it if it does. Such a search ends on every finite graph, having found its target if a path
leads there. -/
theorem leftRecursive_exact (rules : Rules) :
    (rules.leftRecursive rules.nullable = true ↔
      ∃ symbol row, rules.defines symbol = true ∧
        rules.ProperlyDerives [symbol] (symbol :: row)) ∧
    (∀ r ∈ rules, r.rhs.head? = some r.lhs → rules.leftRecursive rules.nullable = true) ∧
    (∀ symbol, rules.defines symbol = true →
      ∃ count s, Ends (Search.step? (rules.corners rules.nullable) symbol) count
          (Search.start (rules.corners rules.nullable) symbol) s ∧
        (s.Found symbol ↔ ∃ row, rules.ProperlyDerives [symbol] (symbol :: row))) ∧
    ∀ (α : Type) [DecidableEq α] (next : α → List α) (nodes : Finset α) (origin target : α),
      (∀ a ∈ nodes, ∀ b ∈ next a, b ∈ nodes) → origin ∈ nodes →
        ∃ count ≤ (next origin).length + ∑ a ∈ nodes, (next a).length,
          ∃ s, Ends (Search.step? next target) count (Search.start next origin) s ∧
            (s.Found target ↔ Path next origin target) := by
  refine ⟨?_, fun _ => leftRecursive_of_head, fun symbol hsymbol => ?_,
    fun _ _ _ _ _ target hnodes horigin => Search.exists_ends_search hnodes horigin target⟩
  · rw [leftRecursive_iff_exists_path]
    refine exists_congr fun symbol => ?_
    rw [path_corners_iff, and_self_left, exists_and_left]
  · have hnodes : ∀ a ∈ rules.defined.toFinset, ∀ b ∈ rules.corners rules.nullable a,
        b ∈ rules.defined.toFinset := fun _ _ b hb =>
      List.mem_toFinset.mpr (mem_defined_of_mem_corners hb)
    have hmem : symbol ∈ rules.defined.toFinset :=
      List.mem_toFinset.mpr (mem_defined.mpr (defines_iff.mp hsymbol))
    obtain ⟨count, -, s, hends, hfound⟩ := Search.exists_ends_search hnodes hmem symbol
    refine ⟨count, s, hends, hfound.trans ?_⟩
    rw [path_corners_iff, and_iff_right hsymbol]

/-- A symbol is found behind itself when the symbols before it can be erased. -/
example : Rules.leftRecursive [⟨"S", ["A", "S"]⟩, ⟨"S", []⟩, ⟨"A", []⟩]
    (Rules.nullable [⟨"S", ["A", "S"]⟩, ⟨"S", []⟩, ⟨"A", []⟩]) = true := by
  decide

end Rules

end ContextFree

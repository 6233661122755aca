import ContextFree.Proofs.Repetition
import ContextFree.Proofs.Spelling
import ContextFree.Proofs.Walking

/-!
# Erasures and repeated rules

A repeated rule changes neither the chart nor the trees, but the record of erasers may differ. The
passes that find nullable symbols see in one pass what was found earlier in it, so the place of a
second copy can decide which rule of a symbol is recorded first. Replays use the record only at
their end, for the symbols that were stepped over: there, and nowhere else, a repeated rule is
noticed. Whether a replay ends in the input does not depend on it.

It is not noticed at all if the repeated rules are empty or have a symbol on the right side that is
not nullable, for then no pass ever records a later copy.

## Main definitions

* `ContextFree.Replay.erasing` - rules, and then the erasures of some symbols.
* `ContextFree.Rules.spelling`, `ContextFree.Rules.skipped` - the final items that are replayed to
  the input, and the symbols that their trees leave to be erased.
* `ContextFree.Rules.QuietRepeats` - no repeated rule erases by other symbols.

## Main results

* `ContextFree.Rules.replays_distinct` - replays differ in their erasures only.
* `ContextFree.Nullable.erasure_eq_of_eraser?` - erasures are determined by the erasers.
* `ContextFree.Nullable.nullable_distinct` - when the same erasers are recorded.
* `ContextFree.Rules.recognize_distinct` - what becomes of the outcome of an input.
-/

namespace ContextFree

/-! ### Replays -/

/-- The replay that applies rules and then erases symbols, each by its erasers. -/
def Replay.erasing (n : Nullable) (root : String) (applied : List Rule) (skipped : List String) :
    Replay :=
  ⟨root, applied ++ skipped.flatMap n.erasure⟩

/-- Only nullable symbols have erasures. -/
theorem Nullable.flatMap_erasure_filter (n : Nullable) (form : Form) :
    (form.filter n.contains).flatMap n.erasure = form.flatMap n.erasure := by
  induction form with
  | nil => rfl
  | cons symbol rest ih =>
    rw [List.filter_cons, List.flatMap_cons]
    cases hsymbol : n.contains symbol with
    | true => rw [if_pos rfl, List.flatMap_cons, ih]
    | false =>
      rw [if_neg Bool.false_ne_true, erasure, erasureIn_eq_nil hsymbol, ih, List.nil_append]

namespace Rules

variable {rules : Rules} {start : String} {input : List String} {l : Link}

/-- The final items whose trees spell the input. -/
def spelling (rules : Rules) (start : String) (input : List String) : List Link :=
  if (rules.parse start input).1.length < input.length + 1 then []
  else ((rules.parse start input).1.finals start).filter fun l =>
    rules.spelled start input l = input

/-- The symbols that the rules of a tree leave to be erased. -/
def skipped (rules : Rules) (start : String) (input : List String) (l : Link) : List String :=
  (Form.applyAll [start] (rules.tree (rules.parse start input).1 l).rules).filter
    rules.nullable.contains

/-- A replay applies the rules of its tree and erases what was stepped over. -/
theorem replay_eq_erasing (hl : l ∈ (rules.parse start input).1.finals start) :
    rules.replay rules.nullable (rules.parse start input).1 l =
      .erasing rules.nullable start (rules.tree (rules.parse start input).1 l).rules
        (rules.skipped start input l) := by
  obtain ⟨-, x, hx, hspans⟩ := Chart.mem_finals.mp hl
  have hroot : rootSymbol (rules.parse start input).1 l = start := by
    rw [rootSymbol, hx]
    exact (Item.spans_iff.mp hspans).1
  rw [replay, hroot, Forest.replay, Replay.erasing, skipped, Nullable.flatMap_erasure_filter]

theorem replays_eq (rules : Rules) (start : String) (input : List String) :
    rules.replays start input = (rules.spelling start input).map fun l =>
      .erasing rules.nullable start (rules.tree (rules.parse start input).1 l).rules
        (rules.skipped start input l) := by
  rw [replays, spelling, apply_ite (List.map _), List.map_nil, List.filter_map]
  split
  · rfl
  · have hkept : ((rules.parse start input).1.finals start).filter
          ((fun r : Replay => decide (r.form = input)) ∘
            rules.replay rules.nullable (rules.parse start input).1) =
        ((rules.parse start input).1.finals start).filter fun l =>
          decide (rules.spelled start input l = input) :=
      List.filter_congr fun l hl => by rw [Function.comp, form_eq_spelled hl]
    rw [hkept]
    exact List.map_congr_left fun l hl => replay_eq_erasing (List.mem_filter.mp hl).1

theorem spelling_distinct (rules : Rules) (start : String) (input : List String) :
    rules.distinct.spelling start input = rules.spelling start input := by
  simp only [spelling, parse_distinct, spelled_distinct]

theorem skipped_distinct (rules : Rules) (start : String) (input : List String) (l : Link) :
    rules.distinct.skipped start input l = rules.skipped start input l := by
  rw [skipped, skipped, tree_distinct, parse_distinct]
  exact List.filter_congr fun s _ => contains_nullable_distinct rules s

/-- **A repeated rule is noticed by the erasures of replays only.** -/
theorem replays_distinct (rules : Rules) (start : String) (input : List String) :
    rules.distinct.replays start input = (rules.spelling start input).map fun l =>
      .erasing rules.distinct.nullable start (rules.tree (rules.parse start input).1 l).rules
        (rules.skipped start input l) := by
  rw [replays_eq, spelling_distinct]
  simp only [tree_distinct, parse_distinct, skipped_distinct]

end Rules

/-! ### Erasers -/

namespace Nullable

variable {rules rules' record record' : Rules} {n : Nullable} {symbol : String}

/-- **Erasures are determined by the erasers.** -/
theorem erasure_eq_of_eraser? {m : Nullable} (hm : Grounded rules m.erasers)
    (hn : Grounded rules' n.erasers) (h : ∀ symbol, m.eraser? symbol = n.eraser? symbol)
    (symbol : String) : m.erasure symbol = n.erasure symbol := by
  -- induction on the place of the entry for the symbol
  induction hplace : place m.erasers symbol using Nat.strongRecOn generalizing symbol with
  | _ k ih =>
    cases hsymbol : m.eraser? symbol with
    | none =>
      have hnone : ∀ {o : Nullable}, o.eraser? symbol = none → o.erasure symbol = [] := by
        intro o ho
        refine erasureIn_eq_nil (Bool.not_eq_true _ ▸ fun hcontains => ?_)
        rw [← contains, contains_iff_isSome_eraser?, ho] at hcontains
        exact Bool.false_ne_true hcontains
      rw [hnone hsymbol, hnone ((h symbol).symm.trans hsymbol)]
    | some r =>
      have hsymbol' : n.eraser? symbol = some r := (h symbol).symm.trans hsymbol
      rw [erasure, erasure, hm.erasureIn_eq hsymbol, hn.erasureIn_eq hsymbol']
      refine congrArg (r :: ·) (List.flatMap_congr fun s hs => ?_)
      exact ih _ (hplace ▸ (hm.place_lt hsymbol s hs).2) s rfl

/-- Saturation ends in one way, however many passes it has left to make. -/
theorem saturate_eq {passes more : Nat} (h : Grounded rules n.erasers)
    (hpasses : rules.length ≤ n.size + passes) (hmore : rules.length ≤ n.size + more) :
    saturate rules passes n = saturate rules more n := by
  obtain ⟨_, -, hends⟩ := ends_saturate h hpasses
  obtain ⟨_, -, hends'⟩ := ends_saturate h hmore
  exact (hends.unique hends').2

end Nullable

namespace Rules

/-- The rules that are repeated are empty or do not erase: they have a symbol on the right side that
does not derive nothing. -/
def QuietRepeats (rules : Rules) : Prop :=
  ∀ r, 1 < rules.count r → r.rhs = [] ∨ ∃ symbol ∈ r.rhs, ¬ rules.Derives [symbol] []

end Rules

namespace Nullable

variable {rules part : Rules} {n : Nullable} {symbol : String} {r : Rule}

theorem contains_add_of_contains (h : n.contains symbol = true) :
    (n.add r).contains symbol = true := by
  rw [add]
  split
  · exact defines_cons_of_defines h
  · exact h

/-- An empty rule that was offered is recorded, or another one for its left side is. -/
theorem contains_add_of_isEmpty (h : r.rhs = []) : (n.add r).contains r.lhs = true := by
  by_contra hnot
  have hlhs : n.contains r.lhs = false :=
    Bool.not_eq_true _ ▸ fun hcontains => hnot (contains_add_of_contains hcontains)
  rw [add, h, List.all_nil, Bool.and_true, hlhs, Bool.not_false, if_pos rfl] at hnot
  exact hnot (contains_iff.mpr ⟨r, List.mem_cons_self, rfl⟩)

/-- A pass may leave out later copies of rules that are empty or do not erase. -/
theorem pass_eraseDups (hpart : ∀ r ∈ part, r ∈ rules) (hn : Grounded rules n.erasers)
    (hquiet : ∀ r, 1 < part.count r → r.rhs = [] ∨ ∃ symbol ∈ r.rhs, ¬ rules.Derives [symbol] []) :
    n.pass part.eraseDups = n.pass part := by
  -- a rule is settled when its left side is recorded, or when it never will be by this rule
  refine foldl_eraseDups (P := fun n r => n.contains r.lhs = true ∨
    Grounded rules n.erasers ∧ ∃ symbol ∈ r.rhs, ¬ rules.Derives [symbol] []) ?_ ?_ ?_
  · rintro m a b hb (hlhs | ⟨hgrounded, hopen⟩)
    · exact Or.inl (contains_add_of_contains hlhs)
    · exact Or.inr ⟨grounded_add (hpart b hb) hgrounded, hopen⟩
  · rintro m a (hlhs | ⟨hgrounded, symbol, hsymbol, hnot⟩)
    · rw [add, if_neg (by simp [hlhs])]
    · have hfalse : a.rhs.all m.contains = false :=
        List.all_eq_false.mpr ⟨symbol, hsymbol, fun h => hnot (hgrounded.derives h)⟩
      rw [add, if_neg (by simp [hfalse])]
  · intro a ha
    rcases hquiet a ha with hempty | hopen
    · exact Or.inr fun m => Or.inl (contains_add_of_isEmpty hempty)
    · exact Or.inl (Or.inr ⟨hn, hopen⟩)

theorem saturate_distinct (hquiet : rules.QuietRepeats) (passes : Nat)
    (hn : Grounded rules n.erasers) :
    saturate rules.distinct passes n = saturate rules passes n := by
  induction passes generalizing n with
  | zero => rfl
  | succ passes ih =>
    have hpass : n.pass rules.distinct = n.pass rules := pass_eraseDups (fun _ hr => hr) hn hquiet
    rw [saturate, saturate, hpass]
    simp only [ih (grounded_pass (fun _ hr => hr) hn)]

/-- Where repeated rules are empty or do not erase, the same erasers are recorded. -/
theorem nullable_distinct (hquiet : rules.QuietRepeats) :
    rules.distinct.nullable = rules.nullable := by
  have hgrounded : ∀ rules : Rules,
      Grounded rules (pass (rules.filter Rule.isEmpty) ⟨[]⟩).erasers := fun _ =>
    grounded_pass (fun _ hr => (List.mem_filter.mp hr).1) trivial
  have hempty : pass (rules.distinct.filter Rule.isEmpty) ⟨[]⟩ =
      pass (rules.filter Rule.isEmpty) ⟨[]⟩ := by
    rw [Rules.distinct, filter_eraseDups]
    have hpart : ∀ r ∈ rules.filter Rule.isEmpty, r ∈ rules := fun _ hr => (List.mem_filter.mp hr).1
    refine pass_eraseDups hpart trivial fun r hr => Or.inl ?_
    have hmem := List.count_pos_iff.mp (Nat.lt_of_le_of_lt (Nat.zero_le 1) hr)
    exact Rule.isEmpty_iff.mp (List.mem_filter.mp hmem).2
  have hlength : rules.distinct.length ≤ rules.length := (eraseDups_sublist rules).length_le
  rw [Rules.nullable, saturate_eq (hgrounded _) (Nat.le_add_left _ _)
    (Nat.le_trans hlength (Nat.le_add_left _ _)), hempty, saturate_distinct hquiet _ (hgrounded _),
    Rules.nullable]

end Nullable

namespace Rules

variable {rules : Rules} {start : String} {input : List String}

/-- The outcome does not change if the erasers do not. -/
theorem recognize_eq_of_eraser?
    (h : ∀ symbol, rules.distinct.nullable.eraser? symbol = rules.nullable.eraser? symbol) :
    rules.distinct.recognize start input = rules.recognize start input := by
  have herasure : rules.distinct.nullable.erasure = rules.nullable.erasure :=
    funext (Nullable.erasure_eq_of_eraser? (Nullable.grounded_nullable rules.distinct)
      (Nullable.grounded_nullable rules) h)
  have hreplays : rules.distinct.replays start input = rules.replays start input := by
    rw [replays_distinct, replays_eq]
    simp only [Replay.erasing, herasure]
  have hderivations : (rules.distinct.recognize start input).derivations =
      (rules.recognize start input).derivations := by
    rw [derivations_eq, derivations_eq, hreplays]
  exact congrArg Outcome.mk hderivations

/-- **What becomes of an outcome without the later copies of rules.** The chart stays the same and
so does acceptance. The derivations are those of the same rules, in the same order, up to the
erasures of the same symbols at their ends; and they stay the same if the erasers do, which is so if
no rule that is repeated erases its left side by other symbols. -/
theorem recognize_distinct (rules : Rules) (start : String) (input : List String) :
    (rules.distinct.parse start input).1 = (rules.parse start input).1 ∧
    (rules.distinct.recognize start input).accepted = (rules.recognize start input).accepted ∧
    (∃ drafts : List (List Rule × List String),
      (∀ d ∈ drafts, ∀ symbol ∈ d.2, rules.Derives [symbol] []) ∧
      (rules.recognize start input).derivations =
        (drafts.map fun d =>
          (Replay.erasing rules.nullable start d.1 d.2).derivation).eraseDups.take
            derivationLimit ∧
      (rules.distinct.recognize start input).derivations =
        (drafts.map fun d =>
          (Replay.erasing rules.distinct.nullable start d.1 d.2).derivation).eraseDups.take
            derivationLimit) ∧
    ((∀ symbol, rules.distinct.nullable.eraser? symbol = rules.nullable.eraser? symbol) →
      rules.distinct.recognize start input = rules.recognize start input) ∧
    (rules.QuietRepeats →
      rules.distinct.recognize start input = rules.recognize start input) := by
  have haccepted : (rules.distinct.recognize start input).accepted =
      (rules.recognize start input).accepted := by
    rw [Bool.eq_iff_iff, accepted_iff_replays_ne_nil, accepted_iff_replays_ne_nil,
      replays_distinct, replays_eq, Ne, Ne, List.map_eq_nil_iff, List.map_eq_nil_iff]
  refine ⟨parse_distinct rules start input, haccepted, ?_, recognize_eq_of_eraser?, fun hquiet =>
    recognize_eq_of_eraser? fun _ => by rw [Nullable.nullable_distinct hquiet]⟩
  refine ⟨(rules.spelling start input).map fun l =>
    ((rules.tree (rules.parse start input).1 l).rules, rules.skipped start input l), ?_, ?_, ?_⟩
  · intro d hd symbol hsymbol
    obtain ⟨l, -, rfl⟩ := List.mem_map.mp hd
    exact Nullable.contains_nullable_iff.mp (List.mem_filter.mp hsymbol).2
  · rw [derivations_eq, replays_eq, List.map_map, List.map_map]
    rfl
  · rw [derivations_eq, replays_distinct, List.map_map, List.map_map]
    rfl

/-- Rules that list a rule for a letter twice, and an empty rule. -/
def lettersTwice : Rules :=
  [⟨"S", ["A", "S"]⟩, ⟨"S", []⟩, ⟨"A", ["a"]⟩, ⟨"S", []⟩, ⟨"A", ["a"]⟩]

/-- A letter that is listed twice is read in one way. -/
theorem letter_listed_twice :
    lettersTwice.QuietRepeats ∧ lettersTwice.distinct.length < lettersTwice.length ∧
      (lettersTwice.recognize "S" ["a"]).length = 1 ∧
      lettersTwice.distinct.recognize "S" ["a"] = lettersTwice.recognize "S" ["a"] := by
  have hquiet : lettersTwice.QuietRepeats := by
    have hterminal : ¬ lettersTwice.Derives ["a"] [] := fun h =>
      absurd (Nullable.contains_nullable_iff.mpr h) (by decide)
    intro r hr
    have hmem : r ∈ lettersTwice := List.count_pos_iff.mp (Nat.lt_of_le_of_lt (Nat.zero_le 1) hr)
    simp only [lettersTwice, List.mem_cons, List.not_mem_nil, or_false] at hmem
    rcases hmem with rfl | rfl | rfl | rfl | rfl
    · exact absurd hr (by decide)
    · exact Or.inl rfl
    · exact Or.inr ⟨"a", List.mem_cons_self, hterminal⟩
    · exact Or.inl rfl
    · exact Or.inr ⟨"a", List.mem_cons_self, hterminal⟩
  exact ⟨hquiet, by decide, by decide +kernel,
    (recognize_distinct lettersTwice "S" ["a"]).2.2.2.2 hquiet⟩

/-- Rules under which `A` vanishes by `C`, and by `B` one pass later but for a second copy of that
rule, which stands before the rule for `C`. -/
def vanishesTwice : Rules :=
  [⟨"S", ["A", "x"]⟩, ⟨"A", ["B"]⟩, ⟨"B", ["C"]⟩, ⟨"A", ["B"]⟩, ⟨"A", ["C"]⟩, ⟨"C", []⟩]

/-- The same with a left-recursive rule, under which one derivation is found. -/
def vanishesOnce : Rules := ⟨"S", ["S", "y"]⟩ :: vanishesTwice

/-- Under either retention a repeated rule may be noticed: in the order of the derivations, or in
the only one. -/
theorem repeated_rule_noticed :
    (vanishesTwice.retention vanishesTwice.nullable = .strict ∧
      (vanishesTwice.recognize "S" ["x"]).derivations =
        (vanishesTwice.distinct.recognize "S" ["x"]).derivations.reverse ∧
      vanishesTwice.distinct.recognize "S" ["x"] ≠ vanishesTwice.recognize "S" ["x"]) ∧
    (vanishesOnce.retention vanishesOnce.nullable = .loose ∧
      (vanishesOnce.distinct.recognize "S" ["x"]).length = 1 ∧
      vanishesOnce.distinct.recognize "S" ["x"] ≠ vanishesOnce.recognize "S" ["x"]) := by
  decide +kernel

end Rules

end ContextFree

import ContextFree.Proofs.Loop
import ContextFree.Proofs.Nullable

/-!
# Erasers are well founded

The analysis is a loop over passes: the left sides of the empty rules are recorded first, and then
passes over the rule list are made for as long as one adds something. Every pass but the last makes
the record longer, and a record is never longer than the rule list, so the loop ends.

An entry of the record is erased by entries that are older than itself. The place of its entry,
counted from the oldest one on, is therefore a rank of the nullable symbols under which the symbols
on the right side of an eraser lie below its left side. It does not matter in which order the rules
are listed, or whether one of them leads back to its own left side.

## Main definitions

* `ContextFree.Nullable.pass?` - the loop over passes.
* `ContextFree.Nullable.place` - the place of an entry, counted from the oldest.

## Main results

* `ContextFree.Nullable.Grounded.place_lt` - erasers lead to older entries.
* `ContextFree.Nullable.nullable_well_founded` - the loop ends, and with erasers of exactly the
  symbols that derive nothing.
-/

namespace ContextFree

namespace Nullable

variable {rules record : Rules} {n : Nullable} {symbol : String} {r : Rule}

/-! ### The loop over passes -/

/-- One more pass over the rules, unless it adds nothing: then the loop ends. -/
def pass? (rules : Rules) (n : Nullable) : Option Nullable :=
  if (n.pass rules).size = n.size then none else some (n.pass rules)

/-- A pass over rules that change nothing changes nothing. -/
theorem pass_eq_self {part : Rules} (h : ∀ r ∈ part, n.add r = n) : n.pass part = n := by
  induction part with
  | nil => rfl
  | cons r rest ih =>
    obtain ⟨hadd, hrest⟩ := List.forall_mem_cons.mp h
    exact (congrArg (pass rest) hadd).trans (ih hrest)

/-- Where the loop ends, the last pass leaves the record as it is. -/
theorem pass_eq_self_of_stops (h : pass? rules n = none) : n.pass rules = n := by
  rw [pass?] at h
  split at h
  · next hsize => exact pass_eq_self (add_eq_self_of_size_pass hsize)
  · exact absurd h (Option.some_ne_none _)

/-- **The loop ends with what saturation ends with**, if it has as many passes left as entries. -/
theorem ends_saturate {passes : Nat} (h : Grounded rules n.erasers)
    (hbound : rules.length ≤ n.size + passes) :
    ∃ count ≤ passes, Ends (pass? rules) count n (saturate rules passes n) := by
  induction passes generalizing n with
  | zero =>
    -- the record is as long as the rule list, so a pass cannot make it longer
    have hle : (n.pass rules).size ≤ rules.length :=
      (grounded_pass (fun _ hs => hs) h).length_le
    have hge : n.size ≤ (n.pass rules).size := size_le_size_pass n rules
    have heq : (n.pass rules).size = n.size := by omega
    exact ⟨0, Nat.le_refl 0, .here (if_pos heq)⟩
  | succ passes ih =>
    have hge : n.size ≤ (n.pass rules).size := size_le_size_pass n rules
    rw [saturate]
    split
    · next heq => exact ⟨0, Nat.zero_le _, .here (if_pos heq)⟩
    · next hne =>
      obtain ⟨count, hcount, hends⟩ := ih (grounded_pass (fun _ hs => hs) h) (by omega)
      exact ⟨count + 1, Nat.succ_le_succ hcount, .step (if_neg hne) hends⟩

/-! ### Places -/

/-- The place of the entry for a symbol, counted from the oldest on; zero for a symbol without. -/
def place : Rules → String → Nat
  | [], _ => 0
  | e :: older, symbol => if e.lhs = symbol then older.length + 1 else place older symbol

theorem place_le (record : Rules) (symbol : String) : place record symbol ≤ record.length := by
  induction record with
  | nil => exact Nat.le_refl 0
  | cons e older ih =>
    rw [place]
    split
    · exact Nat.le_refl _
    · exact Nat.le_succ_of_le ih

/-- A symbol with an older entry is not the left side of a new one. -/
theorem Grounded.lhs_ne {e : Rule} {older : Rules} (h : Grounded rules (e :: older))
    (hsymbol : Rules.defines older symbol = true) : e.lhs ≠ symbol := by
  rintro rfl
  exact absurd (h.1.2.1.symm.trans hsymbol) Bool.false_ne_true

theorem defines_cons_of_defines {e : Rule} {older : Rules} (h : Rules.defines older symbol = true) :
    Rules.defines (e :: older) symbol = true :=
  Bool.or_eq_true_iff.mpr (Or.inr h)

/-- **Erasers lead to older entries.** -/
theorem Grounded.place_lt (h : Grounded rules record)
    (hfind : record.find? (fun e => e.lhs == symbol) = some r) :
    ∀ s ∈ r.rhs, record.defines s = true ∧ place record s < place record symbol := by
  induction record with
  | nil => exact absurd hfind (Option.not_mem_none r)
  | cons e older ih =>
    intro s hs
    rw [List.find?_cons] at hfind
    by_cases heq : e.lhs = symbol
    · simp only [heq, beq_self_eq_true, Option.some.injEq] at hfind
      subst hfind
      have holder : Rules.defines older s = true := h.1.2.2 s hs
      rw [place, place, if_neg (h.lhs_ne holder), if_pos heq]
      exact ⟨defines_cons_of_defines holder, Nat.lt_succ_of_le (place_le older s)⟩
    · simp only [beq_eq_false_iff_ne.mpr heq] at hfind
      obtain ⟨holder, hlt⟩ := ih h.2 hfind s hs
      rw [place, place, if_neg (h.lhs_ne holder), if_neg heq]
      exact ⟨defines_cons_of_defines holder, hlt⟩

/-- **The analysis is exact and well founded.** The loop over passes ends, after no more passes than
there are rules and one that adds nothing. The symbols that it finds, and for which it has erasers,
are those that derive nothing; an eraser is a rule of the list for its symbol; and there is a rank
under which all symbols on the right side of an eraser derive nothing and lie below its symbol. -/
theorem nullable_well_founded (rules : Rules) :
    (∃ count ≤ rules.length,
      Ends (pass? rules) count (pass (rules.filter Rule.isEmpty) ⟨[]⟩) rules.nullable ∧
        rules.nullable.pass rules = rules.nullable) ∧
    (∀ symbol, (rules.nullable.contains symbol = true ↔ rules.Derives [symbol] []) ∧
      ((rules.nullable.eraser? symbol).isSome = true ↔ rules.Derives [symbol] [])) ∧
    (∀ symbol r, rules.nullable.eraser? symbol = some r → r ∈ rules ∧ r.lhs = symbol) ∧
    ∃ rank : String → Nat, ∀ symbol r, rules.nullable.eraser? symbol = some r →
      ∀ s ∈ r.rhs, rules.Derives [s] [] ∧ rank s < rank symbol := by
  have hgrounded := grounded_nullable rules
  refine ⟨?_, fun symbol => ⟨contains_nullable_iff, ?_⟩, fun symbol r hr => ?_,
    place rules.nullable.erasers, fun symbol r hr s hs => ?_⟩
  · have hempty : Grounded rules (pass (rules.filter Rule.isEmpty) ⟨[]⟩).erasers :=
      grounded_pass (fun _ hs => (List.mem_filter.mp hs).1) trivial
    obtain ⟨count, hcount, hends⟩ := ends_saturate hempty (Nat.le_add_left rules.length _)
    exact ⟨count, hcount, hends, pass_eq_self_of_stops hends.stops⟩
  · rw [← contains_iff_isSome_eraser?]
    exact contains_nullable_iff
  · exact ⟨hgrounded.subset (List.mem_of_find?_eq_some hr), by simpa using List.find?_some hr⟩
  · obtain ⟨hdefines, hlt⟩ := hgrounded.place_lt hr s hs
    exact ⟨hgrounded.derives hdefines, hlt⟩

/-- A rule that leads back to its left side erases nothing, even if it is listed first. -/
example : (Rules.nullable [⟨"A", ["A"]⟩, ⟨"A", ["B", "B"]⟩, ⟨"B", ["b"]⟩, ⟨"B", []⟩]).eraser? "A" =
    some ⟨"A", ["B", "B"]⟩ := by
  decide

end Nullable

end ContextFree

/-!
# Loops

A loop is given by its step, which leads from one value to the next, and nowhere from a value at
which the loop ends. Nothing bounds the number of steps: that a loop ends is a statement about its
step and the value it begins with.

## Main definitions

* `ContextFree.Runs` - a number of steps from one value to another.
* `ContextFree.Ends` - a number of steps after which there is no other.

## Main results

* `ContextFree.exists_ends` - a loop ends if its steps decrease a measure.
-/

namespace ContextFree

variable {α : Type} {step? : α → Option α} {count more : Nat} {a b c : α}

/-- So many steps of a loop lead from one value to another. -/
inductive Runs (step? : α → Option α) : Nat → α → α → Prop where
  /-- No step. -/
  | done (a : α) : Runs step? 0 a a
  /-- One step, and those after it. -/
  | step {count : Nat} {a b c : α} :
      step? a = some b → Runs step? count b c → Runs step? (count + 1) a c

/-- The loop ends after so many steps, and with this value. -/
structure Ends (step? : α → Option α) (count : Nat) (a b : α) : Prop where
  /-- The steps lead to the value. -/
  runs : Runs step? count a b
  /-- No step leads on from it. -/
  stops : step? b = none

theorem Runs.trans (h : Runs step? count a b) (h' : Runs step? more b c) :
    Runs step? (count + more) a c := by
  induction h with
  | done a => exact (Nat.zero_add more).symm ▸ h'
  | step hstep _ ih => exact Nat.add_right_comm _ 1 more ▸ .step hstep (ih h')

namespace Ends

theorem here (h : step? a = none) : Ends step? 0 a a := ⟨.done a, h⟩

theorem step (h : step? a = some b) (h' : Ends step? count b c) : Ends step? (count + 1) a c :=
  ⟨.step h h'.runs, h'.stops⟩

/-- A loop ends in one way. -/
theorem unique (h : Ends step? count a b) (h' : Ends step? more a c) : count = more ∧ b = c := by
  obtain ⟨hruns, hstops⟩ := h
  induction hruns generalizing more with
  | done a =>
    cases h'.runs with
    | done => exact ⟨rfl, rfl⟩
    | step hstep => exact absurd (hstops.symm.trans hstep) (Option.some_ne_none _).symm
  | step hfirst _ ih =>
    obtain ⟨hruns', hstops'⟩ := h'
    cases hruns' with
    | done => exact absurd (hstops'.symm.trans hfirst) (Option.some_ne_none _).symm
    | step hstep hrest =>
      obtain rfl := Option.some.inj (hfirst.symm.trans hstep)
      obtain ⟨hcount, hlast⟩ := ih ⟨hrest, hstops'⟩ hstops
      exact ⟨congrArg (· + 1) hcount, hlast⟩

end Ends

/-- **A loop ends if its steps decrease a measure**, and with a value that has what they keep. -/
theorem exists_ends {P : α → Prop} (measure : α → Nat)
    (hstep : ∀ a b, P a → step? a = some b → P b ∧ measure b < measure a) (ha : P a) :
    ∃ count ≤ measure a, ∃ b, Ends step? count a b ∧ P b := by
  induction hm : measure a using Nat.strongRecOn generalizing a with
  | _ m ih =>
    cases hnext : step? a with
    | none => exact ⟨0, Nat.zero_le m, a, .here hnext, ha⟩
    | some b =>
      obtain ⟨hb, hlt⟩ := hstep a b ha hnext
      obtain ⟨count, hcount, c, hends, hc⟩ := ih (measure b) (hm ▸ hlt) hb rfl
      exact ⟨count + 1, by omega, c, .step hnext hends, hc⟩

end ContextFree

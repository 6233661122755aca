import ContextFree.Proofs.Acceptance

/-!
# Replays lose and invent nothing

The replay of a final item may end in the tokens of the input in another order, since a rule is
applied to the first occurrence of its left side and not to the one that its node stands for. It
never ends in other tokens. Where all tokens are equal there is only one order, so no final item of
such an input is discarded, and it is accepted whenever it is a sentence. The empty input is the
smallest of them.

A start symbol without rules is the exception that it is everywhere: as a terminal it derives itself
in no step, but no item recognizes it.

## Main results

* `ContextFree.Rules.form_perm_of_mem_finals` - what a replay ends in.
* `ContextFree.Rules.replays_conserve` - this, and what follows for equal tokens.
* `ContextFree.Rules.lone_start_rejected` - the exception.
-/

namespace ContextFree

/-- Where all entries are equal there is one order only. -/
theorem eq_of_perm_of_all_eq {α : Type} {a b : List α} (h : a.Perm b)
    (hall : ∀ x ∈ b, ∀ y ∈ b, x = y) : a = b := by
  cases b with
  | nil => exact h.eq_nil
  | cons x rest =>
    have hsame : x :: rest = List.replicate (x :: rest).length x :=
      List.eq_replicate_of_mem fun y hy => hall y hy x List.mem_cons_self
    rw [hsame] at h ⊢
    exact List.perm_replicate.mp h

namespace Rules

variable {rules : Rules} {retention : Retention} {start : String} {input : List String} {l : Link}

/-- **What a replay ends in**: the tokens of the input in some order, all of them terminals. -/
theorem form_perm_of_mem_finals
    (hlength : (rules.chart rules.nullable retention start input).length = input.length + 1)
    (hl : l ∈ (rules.chart rules.nullable retention start input).finals start) :
    (rules.replay rules.nullable (rules.chart rules.nullable retention start input) l).form.Perm
        input ∧
      rules.IsTerminal
        (rules.replay rules.nullable
          (rules.chart rules.nullable retention start input) l).form := by
  obtain ⟨t, ht, hreplay⟩ := exists_replay_eq_of_mem_finals hl (Nat.le_of_eq hlength.symm)
  rw [hreplay]
  refine ⟨ht.form_perm, fun symbol hsymbol => ?_⟩
  have hterminal : rules.IsTerminal input := ht.yield ▸ ht.valid.isTerminal_yield
  exact hterminal symbol (ht.form_perm.subset hsymbol)

section

variable (hall : ∀ a ∈ input, ∀ b ∈ input, a = b)
include hall

/-- No final item of equal tokens is discarded. -/
theorem form_eq_of_mem_finals
    (hlength : (rules.chart rules.nullable retention start input).length = input.length + 1)
    (hl : l ∈ (rules.chart rules.nullable retention start input).finals start) :
    (rules.replay rules.nullable (rules.chart rules.nullable retention start input) l).form =
      input :=
  eq_of_perm_of_all_eq (form_perm_of_mem_finals hlength hl).1 hall

/-- Equal tokens are accepted when they are a sentence of a start symbol with rules. -/
theorem accepted_iff_of_all_eq (retention : Retention) :
    (rules.outcome rules.nullable (rules.chart rules.nullable retention start input) start
        input).accepted = true ↔
      rules.defines start = true ∧ rules.IsSentence start input := by
  rw [accepted_outcome_iff, ← exists_mem_finals_iff retention]
  constructor
  · rintro ⟨hlength, l, hl, -⟩
    exact ⟨Nat.le_antisymm length_chart_le hlength, l, hl⟩
  · rintro ⟨hlength, l, hl⟩
    exact ⟨Nat.le_of_eq hlength.symm, l, hl, form_eq_of_mem_finals hall hlength hl⟩

end

/-- **Replays lose and invent nothing.** The replay of a final item ends in a permutation of the
input without nonterminals. So where all tokens are equal, every final item has its derivation, and
the input is accepted when the start symbol has rules and the input is a sentence of it; the empty
input is accepted when the start symbol derives nothing. -/
theorem replays_conserve (rules : Rules) (start : String) (input : List String) :
    (∀ (retention : Retention) (l : Link),
      (rules.chart rules.nullable retention start input).length = input.length + 1 →
      l ∈ (rules.chart rules.nullable retention start input).finals start →
        (rules.replay rules.nullable (rules.chart rules.nullable retention start input) l).form.Perm
            input ∧
          rules.IsTerminal (rules.replay rules.nullable
            (rules.chart rules.nullable retention start input) l).form) ∧
    ((∀ a ∈ input, ∀ b ∈ input, a = b) →
      (∀ (retention : Retention) (l : Link),
        (rules.chart rules.nullable retention start input).length = input.length + 1 →
        l ∈ (rules.chart rules.nullable retention start input).finals start →
          (rules.derivation? rules.nullable (rules.chart rules.nullable retention start input) input
            l).isSome = true) ∧
      (∀ retention : Retention,
        (rules.outcome rules.nullable (rules.chart rules.nullable retention start input) start
            input).accepted = true ↔
          rules.defines start = true ∧ rules.IsSentence start input) ∧
      ((rules.recognize start input).accepted = true ↔
        rules.defines start = true ∧ rules.IsSentence start input)) ∧
    ((rules.recognize start []).accepted = true ↔ rules.Derives [start] []) := by
  refine ⟨fun _ _ hlength hl => form_perm_of_mem_finals hlength hl, fun hall => ⟨?_,
    accepted_iff_of_all_eq hall, accepted_iff_of_all_eq hall (rules.retention rules.nullable)⟩, ?_⟩
  · intro retention l hlength hl
    exact Option.isSome_iff_exists.mpr
      ⟨_, derivation?_eq_some_iff.mpr ⟨form_eq_of_mem_finals hall hlength hl, rfl⟩⟩
  · have hnone : ∀ a ∈ ([] : List String), ∀ b ∈ ([] : List String), a = b :=
      fun _ ha => absurd ha List.not_mem_nil
    refine (accepted_iff_of_all_eq hnone (rules.retention rules.nullable)).trans ?_
    exact ⟨fun h => h.2.derives,
      fun h => ⟨Nullable.defines_of_derives_nil h, IsTerminal.nil rules, h⟩⟩

/-- A start symbol without rules is a sentence of itself, a single token, and is rejected. -/
theorem lone_start_rejected :
    (∀ a ∈ ["a"], ∀ b ∈ ["a"], a = b) ∧ Rules.IsSentence [] "a" ["a"] ∧
      (Rules.recognize [] "a" ["a"]).accepted = false := by
  refine ⟨by simp, ⟨fun _ _ => rfl, .refl _⟩, by decide +kernel⟩

end Rules

end ContextFree

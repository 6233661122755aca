import ContextFree.Outcome
import ContextFree.Proofs.Rewriting
import ContextFree.Proofs.Unfolding

/-!
# Derivations are genuine

A replay applies the rules of a tree in preorder, each at the first occurrence of its left side.
With equal symbols about, that need not be the occurrence that the node stands for, so the forms on
the way are known up to a permutation only: the roots of the trees still to come, the terminals and
the open symbols of those that are done, and whatever stood beside the tree. This is enough for
every rule to find its left side. At the end the open symbols are erased, and what is left is a
permutation of the input.

A derivation is reported only if what is left is the input itself. Its steps are then rewritings
from the start symbol to the input.

## Main definitions

* `ContextFree.Sketch.replay` - the replay of a sketch.

## Main results

* `ContextFree.Sketch.Valid.applyAll_perm` - the rules of a sketch in preorder.
* `ContextFree.Rules.IsSketch.form_perm` - the replay of a sketch ends in a permutation of the
  input.
* `ContextFree.Rules.exists_sketch_of_mem_derivations` - where the reported derivations come from.
* `ContextFree.Rules.derivations_genuine` - they are rewritings from the start symbol to the input.
-/

namespace ContextFree

variable {rules : Rules} {t : Sketch}

/-! ### Replaying a sketch -/

namespace Sketch

/-- **The rules of a sketch in preorder.** Every rule finds its left side, and the roots of the
sketch are exchanged for its terminals and its open symbols, up to a permutation. -/
theorem Valid.applyAll_perm {form beside : Form} (ht : t.Valid rules)
    (hform : form.Perm (t.roots ++ beside)) :
    form.Applicable t.preorder ∧
      (form.applyAll t.preorder).Perm (t.yield ++ (t.gaps ++ beside)) := by
  induction t generalizing form beside with
  | nil => exact ⟨trivial, hform⟩
  | leaf symbol rest ih =>
    -- a terminal stands beside the trees after it
    have hmoved : form.Perm (rest.roots ++ symbol :: beside) := hform.trans List.perm_middle.symm
    obtain ⟨happlicable, hperm⟩ := ih ht.2 hmoved
    refine ⟨happlicable, hperm.trans ?_⟩
    rw [← List.append_assoc]
    exact List.perm_middle.trans (by rw [List.append_assoc]; rfl)
  | gap symbol rest ih =>
    have hmoved : form.Perm (rest.roots ++ symbol :: beside) := hform.trans List.perm_middle.symm
    obtain ⟨happlicable, hperm⟩ := ih ht.2 hmoved
    exact ⟨happlicable, hperm.trans (List.Perm.append_left rest.yield List.perm_middle)⟩
  | node rule children rest ihc ih =>
    obtain ⟨-, hchildren, hvalidc, hvalidr⟩ := ht
    have hfound : rule.lhs ∈ form := hform.symm.subset List.mem_cons_self
    have hopened : (form.apply rule).Perm (children.roots ++ (rest.roots ++ beside)) :=
      hchildren ▸ Form.apply_perm hform
    obtain ⟨happlicablec, hpermc⟩ := ihc hvalidc hopened
    -- what the children leave stands beside the trees after the node
    have hmoved : ((form.apply rule).applyAll children.preorder).Perm
        (rest.roots ++ (children.yield ++ (children.gaps ++ beside))) := by
      refine hpermc.trans (List.perm_iff_count.mpr fun a => ?_)
      simp only [List.count_append]
      omega
    obtain ⟨happlicable, hperm⟩ := ih hvalidr hmoved
    refine ⟨⟨hfound, Form.applicable_append.mpr ⟨happlicablec, happlicable⟩⟩, ?_⟩
    rw [preorder, Form.applyAll_cons, Form.applyAll_append]
    refine hperm.trans (List.perm_iff_count.mpr fun a => ?_)
    simp only [yield, gaps, List.count_append]
    omega

theorem Valid.contains_of_mem_gaps (ht : t.Valid rules) :
    ∀ symbol ∈ t.gaps, rules.nullable.contains symbol = true := by
  induction t with
  | nil =>
    intro _ h
    exact absurd h List.not_mem_nil
  | leaf symbol rest ih => exact ih ht.2
  | gap symbol rest ih =>
    intro a ha
    rcases List.mem_cons.mp ha with rfl | ha
    · exact Nullable.contains_nullable_iff.mpr ht.1
    · exact ih ht.2 a ha
  | node rule children rest ihc ih =>
    intro a ha
    rcases List.mem_append.mp ha with ha | ha
    · exact ihc ht.2.2.1 a ha
    · exact ih ht.2.2.2 a ha

theorem Valid.rule_mem (ht : t.Valid rules) : ∀ r ∈ t.preorder, r ∈ rules := by
  induction t with
  | nil =>
    intro _ h
    exact absurd h List.not_mem_nil
  | leaf symbol rest ih => exact ih ht.2
  | gap symbol rest ih => exact ih ht.2
  | node rule children rest ihc ih =>
    intro r hr
    rcases List.mem_cons.mp hr with rfl | hr
    · exact ht.1
    · rcases List.mem_append.mp hr with hr | hr
      · exact ihc ht.2.2.1 r hr
      · exact ih ht.2.2.2 r hr

end Sketch

/-- The replay of a sketch from its root symbol: the rules of its trees, then whatever erases the
symbols that are left open. -/
def Sketch.replay (t : Sketch) (n : Nullable) (root : String) : Replay :=
  ⟨root, t.preorder ++ (Form.applyAll [root] t.preorder).flatMap n.erasure⟩

/-- A tree with the rules of a sketch has its replay. -/
theorem Forest.replay_eq {tree : Forest} (h : tree.rules = t.preorder) (n : Nullable)
    (root : String) : tree.replay n root = t.replay n root := by
  rw [Forest.replay, Sketch.replay, h]

namespace Rules

variable {symbol start : String} {input : List String}

theorem IsTerminal.without_eq_self (h : rules.IsTerminal input) :
    Form.without input rules.nullable = input :=
  Form.without_eq_self fun s hs => Nullable.contains_eq_false_of_defines (h s hs)

/-- What a replay ends in: the form that the rules of the sketch lead to, without the nullable
symbols. -/
theorem form_replay (rules : Rules) (t : Sketch) (root : String) :
    (t.replay rules.nullable root).form =
      (Form.applyAll [root] t.preorder).without rules.nullable := by
  rw [Sketch.replay, Replay.form, Form.applyAll_append, Nullable.applyAll_erasures]

namespace IsSketch

private theorem perm_roots (h : rules.IsSketch symbol input t) :
    List.Perm [symbol] (t.roots ++ []) := by
  rw [h.roots]
  exact List.Perm.refl _

/-- Every rule of a replay finds its left side. -/
theorem applicable (h : rules.IsSketch symbol input t) :
    Form.Applicable [symbol] (t.replay rules.nullable symbol).rules :=
  Form.applicable_append.mpr
    ⟨(h.valid.applyAll_perm h.perm_roots).1, Nullable.applicable_erasures rules _⟩

/-- **A replay ends in a permutation of the input.** -/
theorem form_perm (h : rules.IsSketch symbol input t) :
    (t.replay rules.nullable symbol).form.Perm input := by
  have hperm := (h.valid.applyAll_perm h.perm_roots).2
  have hwithout : Form.without (t.yield ++ (t.gaps ++ [])) rules.nullable = input := by
    rw [List.append_nil, Form.without_append, h.valid.isTerminal_yield.without_eq_self,
      Form.without_eq_nil h.valid.contains_of_mem_gaps, List.append_nil, h.yield]
  rw [form_replay, ← hwithout]
  exact hperm.filter _

theorem rule_mem (h : rules.IsSketch symbol input t) :
    ∀ r ∈ (t.replay rules.nullable symbol).rules, r ∈ rules := by
  intro r hr
  rcases List.mem_append.mp hr with hr | hr
  · exact h.valid.rule_mem r hr
  · exact Nullable.mem_of_mem_erasures hr

/-- A replay that ends in the input shows rewritings from its symbol to the input. -/
theorem exists_rewrites (h : rules.IsSketch symbol input t)
    (hform : (t.replay rules.nullable symbol).form = input) :
    ∃ trace, rules.Rewrites [symbol] trace input ∧
      (t.replay rules.nullable symbol).derivation.steps =
        ⟨"Start → " ++ symbol, symbol⟩ :: trace.map Step.of := by
  obtain ⟨trace, hrewrites, hshown⟩ := h.applicable.exists_rewrites h.rule_mem
  have hlast : Form.applyAll [symbol] (t.replay rules.nullable symbol).rules = input := hform
  rw [hlast] at hrewrites
  exact ⟨trace, hrewrites, congrArg (_ :: ·) hshown⟩

end IsSketch

/-! ### The reported derivations -/

section

variable {retention : Retention} {l : Link}

/-- The replay of an item whose right side unfolds into a row of trees. -/
theorem Unfolds.replay_eq {i : Nat} {x : Item}
    (h : rules.Unfolds (rules.chart rules.nullable retention start input) i x.rule.rhs x.provenance
      t)
    (hx : (rules.chart rules.nullable retention start input).item? l = some x) :
    rules.replay rules.nullable (rules.chart rules.nullable retention start input) l =
      (Sketch.node x.rule t .nil).replay rules.nullable x.rule.lhs := by
  have hroot : rootSymbol (rules.chart rules.nullable retention start input) l = x.rule.lhs := by
    rw [rootSymbol, hx]
  rw [Rules.replay, hroot]
  refine Forest.replay_eq ?_ _ _
  rw [h.rules_tree hx]
  simp [Sketch.preorder]

/-- The replay of a final item is the replay of a sketch of the input. -/
theorem exists_replay_eq_of_mem_finals
    (hl : l ∈ (rules.chart rules.nullable retention start input).finals start)
    (hlength : input.length + 1 ≤ (rules.chart rules.nullable retention start input).length) :
    ∃ t, rules.IsSketch start input t ∧
      rules.replay rules.nullable (rules.chart rules.nullable retention start input) l =
        t.replay rules.nullable start := by
  obtain ⟨x, t, hx, hspans, ht, hunfolds⟩ := exists_unfolds_of_mem_finals hl hlength
  refine ⟨.node x.rule t .nil, ht, ?_⟩
  rw [hunfolds.replay_eq hx, (Item.spans_iff.mp hspans).1]

end

theorem exists_replay_eq {l : Link} (hl : l ∈ (rules.parse start input).1.finals start)
    (hlength : input.length + 1 ≤ (rules.parse start input).1.length) :
    ∃ t, rules.IsSketch start input t ∧
      rules.replay rules.nullable (rules.parse start input).1 l =
        t.replay rules.nullable start :=
  exists_replay_eq_of_mem_finals hl hlength

theorem derivation?_eq_some_iff {n : Nullable} {c : Chart} {l : Link} {d : Derivation} :
    rules.derivation? n c input l = some d ↔
      (rules.replay n c l).form = input ∧ (rules.replay n c l).derivation = d := by
  simp only [derivation?]
  split
  · next hform => simp [hform]
  · next hform => simp [hform]

/-- The derivations of an input by its chart: the different ones among those of its final items, as
far as they are reported, and none if the chart stops short of the input. -/
theorem derivations_outcome (rules : Rules) (n : Nullable) (c : Chart) (start : String)
    (input : List String) :
    (rules.outcome n c start input).derivations =
      if c.length < input.length + 1 then []
      else ((c.finals start).filterMap (rules.derivation? n c input)).eraseDups.take
        derivationLimit := by
  rw [outcome, apply_ite Outcome.derivations]
  rfl

theorem derivations_recognize (rules : Rules) (start : String) (input : List String) :
    (rules.recognize start input).derivations =
      if (rules.parse start input).1.length < input.length + 1 then []
      else (((rules.parse start input).1.finals start).filterMap
        (rules.derivation? rules.nullable (rules.parse start input).1 input)).eraseDups.take
          derivationLimit :=
  derivations_outcome rules rules.nullable (rules.parse start input).1 start input

/-- An input is accepted when its chart reaches the end and a final item replays to it. -/
theorem accepted_outcome_iff {n : Nullable} {c : Chart} :
    (rules.outcome n c start input).accepted = true ↔
      input.length + 1 ≤ c.length ∧ ∃ l ∈ c.finals start, (rules.replay n c l).form = input := by
  rw [Outcome.accepted_iff, derivations_outcome]
  constructor
  · intro h
    split at h
    · exact absurd rfl h
    · next hlength =>
      obtain ⟨d, hd⟩ := List.exists_mem_of_ne_nil _ h
      obtain ⟨l, hl, hsome⟩ :=
        List.mem_filterMap.mp (List.mem_eraseDups.mp (List.mem_of_mem_take hd))
      exact ⟨Nat.le_of_not_lt hlength, l, hl, (derivation?_eq_some_iff.mp hsome).1⟩
  · rintro ⟨hlength, l, hl, hform⟩
    rw [if_neg (Nat.not_lt.mpr hlength)]
    have hmem : (rules.replay n c l).derivation ∈
        ((c.finals start).filterMap (rules.derivation? n c input)).eraseDups :=
      List.mem_eraseDups.mpr (List.mem_filterMap.mpr
        ⟨l, hl, derivation?_eq_some_iff.mpr ⟨hform, rfl⟩⟩)
    rw [Ne, List.take_eq_nil_iff]
    rintro (hzero | hnil)
    · exact absurd hzero (by decide)
    · exact List.ne_nil_of_mem hmem hnil

/-- A derivation is that of a final item, in a chart that reaches the end of the input. -/
theorem exists_final_of_mem_derivations {d : Derivation}
    (hd : d ∈ (rules.recognize start input).derivations) :
    ∃ l ∈ (rules.parse start input).1.finals start,
      input.length + 1 ≤ (rules.parse start input).1.length ∧
      (rules.replay rules.nullable (rules.parse start input).1 l).form = input ∧
      (rules.replay rules.nullable (rules.parse start input).1 l).derivation = d := by
  rw [derivations_recognize] at hd
  split at hd
  · exact absurd hd List.not_mem_nil
  · next hlength =>
    obtain ⟨l, hl, hsome⟩ := List.mem_filterMap.mp (List.mem_eraseDups.mp (List.mem_of_mem_take hd))
    exact ⟨l, hl, Nat.le_of_not_lt hlength, derivation?_eq_some_iff.mp hsome⟩

/-- **Where a derivation comes from.** It is the replay of a sketch of the input that ends in the
input. -/
theorem exists_sketch_of_mem_derivations {d : Derivation}
    (hd : d ∈ (rules.recognize start input).derivations) :
    ∃ t, rules.IsSketch start input t ∧ (t.replay rules.nullable start).form = input ∧
      (t.replay rules.nullable start).derivation = d := by
  obtain ⟨l, hl, hlength, hshown⟩ := exists_final_of_mem_derivations hd
  obtain ⟨t, ht, hreplay⟩ := exists_replay_eq hl hlength
  exact ⟨t, ht, hreplay ▸ hshown⟩

theorem nodup_derivations (rules : Rules) (start : String) (input : List String) :
    (rules.recognize start input).derivations.Nodup := by
  rw [derivations_recognize]
  split
  · exact List.nodup_nil
  · exact (nodup_eraseDups _).sublist (List.take_sublist _ _)

theorem length_derivations_le (rules : Rules) (start : String) (input : List String) :
    (rules.recognize start input).derivations.length ≤ derivationLimit := by
  rw [derivations_recognize]
  split
  · exact Nat.zero_le _
  · exact List.length_take_le _ _

/-- **Derivations are genuine.** Each is a row of rewritings from the start symbol to the input, as
shown; they are different from each other and at most four; and an accepted input is derived from
the start symbol. -/
theorem derivations_genuine (rules : Rules) (start : String) (input : List String) :
    (∀ d ∈ (rules.recognize start input).derivations, ∃ trace : List (Rule × Form),
      rules.Rewrites [start] trace input ∧
        d.steps = ⟨"Start → " ++ start, start⟩ :: trace.map Step.of) ∧
    (rules.recognize start input).derivations.Nodup ∧
    (rules.recognize start input).derivations.length ≤ 4 ∧
    ((rules.recognize start input).accepted = true → rules.Derives [start] input) := by
  have hgenuine : ∀ d ∈ (rules.recognize start input).derivations, ∃ trace,
      rules.Rewrites [start] trace input ∧
        d.steps = ⟨"Start → " ++ start, start⟩ :: trace.map Step.of := by
    intro d hd
    obtain ⟨t, ht, hform, rfl⟩ := exists_sketch_of_mem_derivations hd
    exact ht.exists_rewrites hform
  refine ⟨hgenuine, nodup_derivations rules start input, length_derivations_le rules start input,
    fun haccepted => ?_⟩
  obtain ⟨d, hd⟩ := List.exists_mem_of_ne_nil _ (Outcome.accepted_iff.mp haccepted)
  obtain ⟨trace, hrewrites, -⟩ := hgenuine d hd
  exact hrewrites.derives

end Rules

end ContextFree

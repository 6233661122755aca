import ContextFree.Proofs.Replaying

/-!
# When a sentence is accepted

An accepted input is a sentence, but a sentence may be rejected. The chart has final items for it,
each of them the root of a sketch, and the replay of a sketch ends in a permutation of the input.
The permutation is what goes wrong: a symbol that was stepped over stays in the form until the end,
and a rule for a later occurrence of the same symbol is applied to it instead.

So an input is accepted exactly when it is a sentence and one of the trees spells it in order. That
is no loss where a nullable symbol derives nothing else, for the form without its nullable symbols
is then rewritten as if they had been erased at once; in particular where no symbol is nullable.

## Main definitions

* `ContextFree.Rules.NullablesVanish` - nullable symbols derive nothing else.

## Main results

* `ContextFree.Sketch.Valid.without_applyAll` - where nullable symbols vanish, every sketch spells
  its yield in order.
* `ContextFree.Rules.accepted_iff_spelled` - when an input is accepted.
* `ContextFree.Rules.sentence_rejected` - a sentence that is rejected.
-/

namespace ContextFree

variable {rules : Rules} {start : String} {input : List String}

namespace Rules

/-- A symbol that derives nothing derives no other row of terminals. -/
def NullablesVanish (rules : Rules) : Prop :=
  ∀ (symbol : String) (row : List String), rules.Derives [symbol] [] →
    rules.IsSentence symbol row → row = []

end Rules

/-! ### Spelling in order -/

/-- **Where nullable symbols vanish, every sketch spells its yield in order.** The rules of a sketch
exchange its roots for its terminals, in a form that is seen without its nullable symbols. -/
theorem Sketch.Valid.without_applyAll {t : Sketch} {form front beside : Form}
    (hvanish : rules.NullablesVanish) (ht : t.Valid rules) (hfront : rules.IsTerminal front)
    (hform : form.without rules.nullable = front ++ (t.roots.without rules.nullable ++ beside)) :
    (form.applyAll t.preorder).without rules.nullable = front ++ (t.yield ++ beside) := by
  induction t generalizing form front beside with
  | nil => exact hform
  | leaf symbol rest ih =>
    have hsymbol := Nullable.contains_eq_false_of_defines ht.1
    rw [roots, Form.without_cons_of_not_contains hsymbol] at hform
    have hrest := ih ht.2 (hfront.append (.singleton ht.1)) (by simpa using hform)
    simpa [yield, preorder] using hrest
  | gap symbol rest ih =>
    rw [roots, Form.without_cons_of_contains (Nullable.contains_nullable_iff.mpr ht.1)] at hform
    exact ih ht.2 hfront hform
  | node rule children rest ihc ih =>
    obtain ⟨hr, hchildren, hvalidc, hvalidr⟩ := ht
    have hopened : (form.apply rule).without rules.nullable =
        front ++ (children.roots.without rules.nullable ++
          (rest.roots.without rules.nullable ++ beside)) := by
      cases hlhs : rules.nullable.contains rule.lhs with
      | true =>
        -- all that the rule brings vanishes, since its left side does
        have hderives := (Rules.Derives.of_mem hr).trans (hchildren ▸ hvalidc.derives)
        have hyield : children.yield = [] :=
          hvanish rule.lhs _ (Nullable.contains_nullable_iff.mp hlhs)
            ⟨hvalidc.isTerminal_yield, hderives⟩
        have hrhs : ∀ s ∈ children.roots, rules.nullable.contains s = true :=
          (Nullable.closed_nullable rules).contains_of_derives (hyield ▸ hvalidc.derives)
        rw [Form.without_eq_nil hrhs, Form.without_apply_of_contains hlhs (hchildren ▸ hrhs), hform,
          roots, Form.without_cons_of_contains hlhs, List.nil_append]
      | false =>
        have hnot : rule.lhs ∉ front := hfront.lhs_not_mem hr
        have happly := Form.apply_append_cons
          (r := ⟨rule.lhs, Form.without rule.rhs rules.nullable⟩) hnot
          (rest.roots.without rules.nullable ++ beside)
        rw [Form.without_apply hlhs, hform, roots, Form.without_cons_of_not_contains hlhs,
          List.cons_append, happly, hchildren, List.append_assoc]
    have hdone := ihc hvalidc hfront hopened
    have hrest := ih hvalidr (hfront.append hvalidc.isTerminal_yield) (by simpa using hdone)
    simpa [yield, preorder] using hrest

namespace Rules

/-! ### Final items of sentences -/

theorem length_chart_le {n : Nullable} {retention : Retention} :
    (rules.chart n retention start input).length ≤ input.length + 1 := by
  by_contra hlength
  have hlt : input.length + 1 < (rules.chart n retention start input).states.length :=
    Nat.lt_of_not_le hlength
  obtain ⟨before, token, -, htoken, -⟩ := chart_next (List.getElem?_eq_getElem hlt)
  exact absurd (List.getElem?_eq_some_iff.mp htoken).1 (Nat.lt_irrefl _)

/-- The chart of an input reaches its end and has a final item there exactly when the start symbol
has rules and the input is a sentence of it. -/
theorem exists_mem_finals_iff (retention : Retention) :
    ((rules.chart rules.nullable retention start input).length = input.length + 1 ∧
      ∃ l, l ∈ (rules.chart rules.nullable retention start input).finals start) ↔
      rules.defines start = true ∧ rules.IsSentence start input := by
  refine Iff.trans ?_ (@exists_spans_iff rules retention start input)
  constructor
  · rintro ⟨hlength, l, hl⟩
    obtain ⟨hlast, x, hx, hspans⟩ := Chart.mem_finals.mp hl
    obtain ⟨s, hs, hk⟩ := Chart.item?_eq_some_iff.mp hx
    have hposition : l.position = input.length := by omega
    exact ⟨s, hposition ▸ hs, x, List.mem_of_getElem? hk, hspans⟩
  · rintro ⟨s, hs, x, hx, hspans⟩
    have hlength :
        (rules.chart rules.nullable retention start input).length = input.length + 1 := by
      have hle : (rules.chart rules.nullable retention start input).length ≤ input.length + 1 :=
        length_chart_le
      have hlt : input.length < (rules.chart rules.nullable retention start input).length :=
        (List.getElem?_eq_some_iff.mp hs).1
      omega
    obtain ⟨k, hk⟩ := List.mem_iff_getElem?.mp hx
    have hitem : (rules.chart rules.nullable retention start input).item? ⟨input.length, k⟩ =
        some x := Chart.item?_eq_some_iff.mpr ⟨s, hs, hk⟩
    exact ⟨hlength, _, Chart.mem_finals.mpr ⟨hlength.symm, x, hitem, hspans⟩⟩

/-- The chart of a sentence reaches its end, and has a final item there. -/
theorem IsSentence.finals_ne_nil (h : rules.IsSentence start input)
    (hstart : rules.defines start = true) :
    (rules.parse start input).1.length = input.length + 1 ∧
      (rules.parse start input).1.finals start ≠ [] := by
  obtain ⟨hlength, l, hl⟩ :=
    (exists_mem_finals_iff (rules.retention rules.nullable)).mpr ⟨hstart, h⟩
  exact ⟨hlength, List.ne_nil_of_mem hl⟩

/-- An input is accepted when its chart reaches the end and a final item replays to it. -/
theorem accepted_iff_exists_replay : (rules.recognize start input).accepted = true ↔
    input.length + 1 ≤ (rules.parse start input).1.length ∧
      ∃ l ∈ (rules.parse start input).1.finals start,
        (rules.replay rules.nullable (rules.parse start input).1 l).form = input :=
  accepted_outcome_iff

/-! ### Acceptance -/

/-- A sentence of a symbol with rules is accepted if all its sketches spell it in order. -/
theorem IsSentence.accepted (h : rules.IsSentence start input) (hstart : rules.defines start = true)
    (hspells : ∀ t, rules.IsSketch start input t → (t.replay rules.nullable start).form = input) :
    (rules.recognize start input).accepted = true := by
  obtain ⟨hlength, hfinals⟩ := h.finals_ne_nil hstart
  obtain ⟨l, hl⟩ := List.exists_mem_of_ne_nil _ hfinals
  obtain ⟨t, ht, hreplay⟩ := exists_replay_eq hl (Nat.le_of_eq hlength.symm)
  exact accepted_iff_exists_replay.mpr
    ⟨Nat.le_of_eq hlength.symm, l, hl, hreplay ▸ hspells t ht⟩

theorem NullablesVanish.form_eq (hvanish : rules.NullablesVanish) {t : Sketch}
    (ht : rules.IsSketch start input t) : (t.replay rules.nullable start).form = input := by
  have hform : Form.without [start] rules.nullable =
      [] ++ (t.roots.without rules.nullable ++ []) := by
    rw [ht.roots, List.append_nil, List.nil_append]
  rw [form_replay, ht.valid.without_applyAll hvanish (.nil rules) hform, ht.yield]
  simp

/-- The form that the rules of the tree at a link lead to, without its nullable symbols. -/
def spelled (rules : Rules) (start : String) (input : List String) (l : Link) : Form :=
  (Form.applyAll [start] (rules.tree (rules.parse start input).1 l).rules).without rules.nullable

/-- The replay of a final item ends in what its tree spells. -/
theorem form_eq_spelled {l : Link} (hl : l ∈ (rules.parse start input).1.finals start) :
    (rules.replay rules.nullable (rules.parse start input).1 l).form =
      rules.spelled start input l := by
  obtain ⟨-, x, hx, hspans⟩ := Chart.mem_finals.mp hl
  have hroot : rootSymbol (rules.parse start input).1 l = start := by
    rw [rootSymbol, hx]
    exact (Item.spans_iff.mp hspans).1
  rw [Rules.replay, hroot, Forest.replay, Replay.form, Form.applyAll_append,
    Nullable.applyAll_erasures]
  rfl

/-- **When an input is accepted.** It has to be a sentence of a start symbol with rules, and the
tree of a final item has to spell it in order. A sentence always has final items, and their trees
spell a permutation of it; where nullable symbols vanish, they spell it in order. -/
theorem accepted_iff_spelled (rules : Rules) (start : String) (input : List String) :
    ((rules.recognize start input).accepted = true ↔
      (rules.defines start = true ∧ rules.IsSentence start input) ∧
        ∃ l ∈ (rules.parse start input).1.finals start, rules.spelled start input l = input) ∧
    (rules.defines start = true ∧ rules.IsSentence start input →
      (rules.parse start input).1.finals start ≠ [] ∧
        ∀ l ∈ (rules.parse start input).1.finals start,
          (rules.spelled start input l).Perm input) ∧
    (rules.NullablesVanish → ((rules.recognize start input).accepted = true ↔
      rules.defines start = true ∧ rules.IsSentence start input)) := by
  have hsound : (rules.recognize start input).accepted = true →
      rules.defines start = true ∧ rules.IsSentence start input := by
    intro h
    obtain ⟨hlength, l, hl, -⟩ := accepted_iff_exists_replay.mp h
    obtain ⟨-, x, hx, hspans⟩ := Chart.mem_finals.mp hl
    obtain ⟨t, ht, -⟩ := exists_replay_eq hl hlength
    have hmade : rules.Made rules.nullable start input (rules.parse start input).1 l x :=
      made_of_item? hx
    refine ⟨defines_iff.mpr ⟨x.rule, hmade.rule_mem, (Item.spans_iff.mp hspans).1⟩, ?_⟩
    exact ⟨ht.yield ▸ ht.valid.isTerminal_yield, ht.yield ▸ ht.roots ▸ ht.valid.derives⟩
  refine ⟨⟨fun h => ⟨hsound h, ?_⟩, ?_⟩, ?_, fun hvanish => ⟨hsound, fun h => ?_⟩⟩
  · obtain ⟨-, l, hl, hform⟩ := accepted_iff_exists_replay.mp h
    exact ⟨l, hl, form_eq_spelled hl ▸ hform⟩
  · rintro ⟨⟨hstart, hsentence⟩, l, hl, hspelled⟩
    have hlength := (hsentence.finals_ne_nil hstart).1
    exact accepted_iff_exists_replay.mpr
      ⟨Nat.le_of_eq hlength.symm, l, hl, (form_eq_spelled hl).trans hspelled⟩
  · rintro ⟨hstart, hsentence⟩
    obtain ⟨hlength, hfinals⟩ := hsentence.finals_ne_nil hstart
    refine ⟨hfinals, fun l hl => ?_⟩
    obtain ⟨t, ht, hreplay⟩ := exists_replay_eq hl (Nat.le_of_eq hlength.symm)
    rw [← form_eq_spelled hl, hreplay]
    exact ht.form_perm
  · exact h.2.accepted h.1 fun t ht => hvanish.form_eq ht

/-- Rules under which two symbols have to vanish before an equal one is read. -/
def twoVanish : Rules := [⟨"S", ["A", "A", "b", "A"]⟩, ⟨"A", ["a"]⟩, ⟨"A", []⟩]

/-- Left-recursive rules under which a symbol has to vanish before an equal one is read. -/
def oneVanishes : Rules := [⟨"S", ["S", "x"]⟩, ⟨"S", ["A", "b", "A"]⟩, ⟨"A", ["a"]⟩, ⟨"A", []⟩]

/-- Under either retention a sentence may be rejected. -/
theorem sentence_rejected :
    (twoVanish.retention twoVanish.nullable = .strict ∧ twoVanish.IsSentence "S" ["b", "a"] ∧
      (twoVanish.recognize "S" ["b", "a"]).accepted = false) ∧
    (oneVanishes.retention oneVanishes.nullable = .loose ∧ oneVanishes.IsSentence "S" ["b", "a"] ∧
      (oneVanishes.recognize "S" ["b", "a"]).accepted = false) := by
  refine ⟨⟨by decide +kernel, isSentence_iff_exists_isParse.mpr ⟨?_, ?_⟩, by decide +kernel⟩,
    by decide +kernel, isSentence_iff_exists_isParse.mpr ⟨?_, ?_⟩, by decide +kernel⟩
  · exact .node ⟨"S", ["A", "A", "b", "A"]⟩ (.node ⟨"A", []⟩ .nil (.node ⟨"A", []⟩ .nil
      (.leaf "b" (.node ⟨"A", ["a"]⟩ (.leaf "a" .nil) .nil)))) .nil
  · exact ⟨⟨by simp [Sketch.Valid, Sketch.roots, Rules.defines, twoVanish], rfl, rfl⟩, rfl⟩
  · exact .node ⟨"S", ["A", "b", "A"]⟩ (.node ⟨"A", []⟩ .nil
      (.leaf "b" (.node ⟨"A", ["a"]⟩ (.leaf "a" .nil) .nil))) .nil
  · exact ⟨⟨by simp [Sketch.Valid, Sketch.roots, Rules.defines, oneVanishes], rfl, rfl⟩, rfl⟩

end Rules

end ContextFree

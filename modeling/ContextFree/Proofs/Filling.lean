import ContextFree.Proofs.Closing

/-!
# The states of a filled chart

Filling hands on the states made so far and a kernel for the next one. What comes out can be said
without the recursion: every state is the closure of a kernel after the states before it, and the
kernel after a state holds the items of that state that read the next token. There is a next state
whenever some item does.

## Main definitions

* `ContextFree.Rules.Fills` - how the states of a filling hang together.

## Main results

* `ContextFree.Rules.chart_first`, `ContextFree.Rules.chart_next`,
  `ContextFree.Rules.chart_reads` - how a chart is filled.
* `ContextFree.Chart.item?_eq_some_iff` - items are found in states.
-/

namespace ContextFree

/-- As many entries stand before an entry as its index says. -/
theorem length_take_of_getElem? {α : Type} {a : List α} {i : Nat} {x : α} (h : a[i]? = some x) :
    (a.take i).length = i :=
  List.length_take_of_le (Nat.le_of_lt (List.getElem?_eq_some_iff.mp h).1)

theorem Chart.item?_eq_some_iff {c : Chart} {l : Link} {item : Item} :
    c.item? l = some item ↔
      ∃ s, c.states[l.position]? = some s ∧ s.items[l.index]? = some item := by
  simp [Chart.item?, Chart.state?, State.get?, Option.bind_eq_some_iff]

namespace Rules

variable {rules : Rules} {n : Nullable} {earlier states : List State} {kernel : State}
  {input : List String}

/-- States that go on after `earlier` with the closure of a kernel, reading an input. -/
structure Fills (rules : Rules) (n : Nullable) (earlier : List State) (kernel : State)
    (input : List String) (states : List State) : Prop where
  /-- The states so far stay as they are. -/
  stays : earlier <+: states
  /-- The first new state closes the kernel. -/
  first : states[earlier.length]? = some (rules.close n earlier kernel)
  /-- A later state closes the items of the state before it that read a token. -/
  next : ∀ i s, states[earlier.length + (i + 1)]? = some s →
    ∃ before token, states[earlier.length + i]? = some before ∧ input[i]? = some token ∧
      s = rules.close n (states.take (earlier.length + (i + 1)))
        ((State.empty kernel.retention).insertAll (rules.scanned before token))
  /-- If an item of a state reads the next token, there is a next state. -/
  reads : ∀ i s token, states[earlier.length + i]? = some s → input[i]? = some token →
    rules.scanned s token ≠ [] → ∃ s', states[earlier.length + (i + 1)]? = some s'

/-- A filling ends with the first state when nothing more is read. -/
theorem fills_singleton (hread : ∀ token ∈ input.head?,
    rules.scanned (rules.close n earlier kernel) token = []) :
    rules.Fills n earlier kernel input (earlier ++ [rules.close n earlier kernel]) where
  stays := List.prefix_append _ _
  first := List.getElem?_concat_length
  next i s hs := by simp at hs
  reads i s token hs htoken hne := by
    cases i with
    | zero =>
      rw [Nat.add_zero, List.getElem?_concat_length] at hs
      obtain rfl := Option.some.inj hs
      exact absurd (hread token (List.head?_eq_getElem? ▸ htoken)) hne
    | succ i => simp at hs

theorem fills_fillFrom (rules : Rules) (n : Nullable) (earlier : List State) (kernel : State)
    (input : List String) :
    rules.Fills n earlier kernel input (rules.fillFrom n earlier kernel input) := by
  induction input generalizing earlier kernel with
  | nil => exact fills_singleton fun _ h => absurd h (Option.not_mem_none _)
  | cons token rest ih =>
    simp only [fillFrom]
    split
    · next hmoved => exact fills_singleton fun t ht => by simp_all
    · next moved hmoved =>
      obtain ⟨hstays, hfirst, hnext, hreads⟩ := ih (earlier ++ [rules.close n earlier kernel])
        ((State.empty kernel.retention).insertAll
          (rules.scanned (rules.close n earlier kernel) token))
      generalize rules.fillFrom n (earlier ++ [rules.close n earlier kernel]) _ rest = states at *
      -- what is counted from the second state on there is counted from the first one on here
      have hshift : ∀ i, (earlier ++ [rules.close n earlier kernel]).length + i =
          earlier.length + (i + 1) := by
        intro i
        rw [List.length_append, List.length_singleton]
        omega
      have hone : (earlier ++ [rules.close n earlier kernel]).length = earlier.length + 1 :=
        hshift 0
      have htake : states.take (earlier.length + 1) = earlier ++ [rules.close n earlier kernel] :=
        hone ▸ (List.prefix_iff_eq_take.mp hstays).symm
      have hhere : states[earlier.length]? = some (rules.close n earlier kernel) :=
        getElem?_prefix_mono hstays List.getElem?_concat_length
      simp only [hshift, State.retention_insertAll] at hnext hreads
      rw [hone] at hfirst
      refine ⟨(List.prefix_append _ _).trans hstays, hhere, fun i s hs => ?_,
        fun i s t hs ht hne => ?_⟩
      · cases i with
        | zero =>
          rw [Nat.zero_add] at hs ⊢
          refine ⟨_, token, hhere, rfl, ?_⟩
          rw [htake]
          exact Option.some.inj (hs.symm.trans hfirst)
        | succ i => exact hnext i s hs
      · cases i with
        | zero => exact ⟨_, hfirst⟩
        | succ i => exact hreads i s t hs ht hne

/-! ### Charts -/

section Chart

variable {retention : Retention} {start : String} {i : Nat} {s : State} {token : String}

private theorem fills_chart (rules : Rules) (n : Nullable) (retention : Retention) (start : String)
    (input : List String) :
    rules.Fills n [] (rules.seed retention start) input
      (rules.chart n retention start input).states :=
  fills_fillFrom rules n [] (rules.seed retention start) input

/-- The first state closes the rules of the start symbol. -/
theorem chart_first : (rules.chart n retention start input).states[0]? =
    some (rules.close n [] (rules.seed retention start)) :=
  (fills_chart rules n retention start input).first

/-- A later state closes the items of the state before it that read a token. -/
theorem chart_next (hs : (rules.chart n retention start input).states[i + 1]? = some s) :
    ∃ before token, (rules.chart n retention start input).states[i]? = some before ∧
      input[i]? = some token ∧
      s = rules.close n ((rules.chart n retention start input).states.take (i + 1))
        ((State.empty retention).insertAll (rules.scanned before token)) := by
  obtain ⟨before, token, hbefore, htoken, hs⟩ :=
    (fills_chart rules n retention start input).next i s (by simpa using hs)
  rw [seed, State.retention_insertAll, List.length_nil, Nat.zero_add] at hs
  exact ⟨before, token, by simpa using hbefore, htoken, hs⟩

/-- Every state closes a kernel that was made by insertions, after the states before it. -/
theorem exists_kernel (hs : (rules.chart n retention start input).states[i]? = some s) :
    ∃ offered, s = rules.close n ((rules.chart n retention start input).states.take i)
      ((State.empty retention).insertAll offered) := by
  cases i with
  | zero => exact ⟨_, Option.some.inj (hs.symm.trans chart_first)⟩
  | succ i =>
    obtain ⟨before, token, -, -, hs⟩ := chart_next hs
    exact ⟨_, hs⟩

/-- If an item of a state reads the next token, there is a next state. -/
theorem chart_reads (hs : (rules.chart n retention start input).states[i]? = some s)
    (htoken : input[i]? = some token) (hreads : rules.scanned s token ≠ []) :
    ∃ s', (rules.chart n retention start input).states[i + 1]? = some s' := by
  simpa using
    (fills_chart rules n retention start input).reads i s token (by simpa using hs) htoken hreads

end Chart

end Rules

end ContextFree

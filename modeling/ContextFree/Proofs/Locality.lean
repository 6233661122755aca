import ContextFree.Proofs.Stepping

/-!
# Charts are local

What a state holds depends on the tokens before it and on no others, so the charts of inputs that
begin alike begin alike. For the recursion that fills a chart this is a matter of cutting it off: a
filling of more tokens goes on where a filling of fewer ends.

The loop is another matter. It writes ahead of itself, into the state after the one it walks over,
and it reads behind itself, in whatever state an item began. What keeps it local is that serving an
item writes one state at most: the state that is walked over, by what this state and earlier ones
hold, or the one after it, by what the next token is. So no state is written after the loop has left
it, and two loops whose inputs begin alike stay in step as long as they walk over the states that
the tokens in common lead to.

## Main definitions

* `ContextFree.Rules.written?` - the state that serving an item writes.
* `ContextFree.Filling.Agree` - two loops at the same place, with the same states up to a position.

## Main results

* `ContextFree.Rules.take_chart_append` - the chart of more tokens, cut off.
* `ContextFree.Rules.getElem?_of_steps?` - states that the loop has left stay as they are.
* `ContextFree.Filling.Agree.steps?` - loops whose inputs begin alike stay in step.
* `ContextFree.Rules.chart_local` - the charts of inputs that begin alike begin alike.
-/

namespace ContextFree

/-! ### Cutting off a filling -/

namespace Rules

variable {rules : Rules} {n : Nullable} {retention : Retention} {start : String}
  {earlier : List State} {kernel : State}

theorem prefix_fillFrom (rules : Rules) (n : Nullable) (earlier : List State) (kernel : State)
    (input : List String) :
    earlier ++ [rules.close n earlier kernel] <+: rules.fillFrom n earlier kernel input := by
  obtain ⟨⟨later, hlater⟩, hfirst, -, -⟩ := fills_fillFrom rules n earlier kernel input
  rw [← hlater, List.getElem?_append_right (Nat.le_refl _), Nat.sub_self] at hfirst
  cases later with
  | nil => exact absurd hfirst (Option.some_ne_none _).symm
  | cons s rest =>
    obtain rfl := Option.some.inj hfirst
    exact ⟨rest, by rw [← hlater, List.append_assoc]; rfl⟩

/-- Cut off after a number of tokens, a filling is the filling of these tokens. -/
theorem take_fillFrom_append (u v : List String) :
    (rules.fillFrom n earlier kernel (u ++ v)).take (earlier.length + (u.length + 1)) =
      rules.fillFrom n earlier kernel u := by
  induction u generalizing earlier kernel with
  | nil =>
    have hcut := List.prefix_iff_eq_take.mp (prefix_fillFrom rules n earlier kernel v)
    rw [List.length_append] at hcut
    exact hcut.symm
  | cons token rest ih =>
    rw [List.cons_append]
    by_cases hmoved : rules.scanned (rules.close n earlier kernel) token = []
    · rw [fillFrom_cons_of_eq_nil hmoved, fillFrom_cons_of_eq_nil hmoved]
      exact List.take_of_length_le (by simp)
    · rw [fillFrom_cons_of_ne_nil hmoved rfl, fillFrom_cons_of_ne_nil hmoved rfl, ← ih,
        List.length_append, List.length_singleton, List.length_cons]
      exact congrArg (List.take · _) (by omega)

/-- **The chart of more tokens, cut off**, is the chart of fewer. -/
theorem take_chart_append (rules : Rules) (n : Nullable) (retention : Retention) (start : String)
    (u v : List String) :
    (rules.chart n retention start (u ++ v)).states.take (u.length + 1) =
      (rules.chart n retention start u).states := by
  have hcut : (rules.fillFrom n [] (rules.seed retention start) (u ++ v)).take
      (([] : List State).length + (u.length + 1)) =
        rules.fillFrom n [] (rules.seed retention start) u :=
    take_fillFrom_append u v
  rwa [List.length_nil, Nat.zero_add] at hcut

end Rules

/-! ### What an item writes -/

namespace State

variable {s : State} {offered : List Item} {x : Item}

theorem mem_of_mem_insertAll (h : x ∈ (s.insertAll offered).items) : x ∈ s.items ∨ x ∈ offered := by
  obtain ⟨k, hk⟩ := List.mem_iff_getElem?.mp h
  exact (getElem?_insertAll hk).imp List.mem_of_getElem? And.right

theorem mem_of_mem_dedup (h : x ∈ s.dedup.items) : x ∈ s.items := by
  rw [dedup_eq_insertAll] at h
  exact (mem_of_mem_insertAll h).resolve_left List.not_mem_nil

end State

/-- The items of every state began at its position or before. -/
def Begun (states : List State) : Prop :=
  ∀ (i : Nat) (s : State), states[i]? = some s → ∀ x ∈ s.items, x.start ≤ i

theorem Begun.start_le_getD {states : List State} {other : State} {i p : Nat} (h : Begun states)
    (hother : ∀ x ∈ other.items, x.start ≤ p) (hi : i ≤ p) :
    ∀ x ∈ (states[i]?.getD other).items, x.start ≤ p := by
  intro x hx
  cases hstate : states[i]? with
  | none =>
    rw [hstate, Option.getD_none] at hx
    exact hother x hx
  | some s =>
    rw [hstate, Option.getD_some] at hx
    exact Nat.le_trans (h i s hstate x hx) hi

namespace Rules

variable {rules : Rules} {n : Nullable} {retention : Retention} {start : String}
  {input : List String} {f g : Filling} {here s : State} {item : Item} {i p count : Nat}
  {states : List State}

/-- The state that serving an item writes, with its position. -/
def written? (rules : Rules) (n : Nullable) (retention : Retention) (input : List String)
    (f : Filling) (here : State) (item : Item) : Option (Nat × State) :=
  match item.next? with
  | none =>
    let origin := f.states[item.start]?.getD here
    some (f.position,
      here.insertAll (completions origin.items item.rule.lhs ⟨f.position, f.index⟩))
  | some symbol =>
    if rules.defines symbol then
      some (f.position, (here.pushAll (rules.predictions n item symbol f.position)).dedup)
    else if input[f.position]? = some symbol then
      some (f.position + 1,
        (f.states[f.position + 1]?.getD (.empty retention)).insert (item.advance .scan))
    else none

theorem getElem?_set_of_some (hhere : states[p]? = some here) :
    (states.set p s)[i]? = if p = i then some s else states[i]? := by
  rw [List.getElem?_set']
  split
  · next heq => rw [← heq, hhere]; rfl
  · rfl

/-- Where the next state is written, it is made if there is none. -/
theorem getElem?_modify_extended {write : State → State} (hhere : states[p]? = some here) :
    ((extended retention states p).modify (p + 1) write)[i]? =
      if p + 1 = i then some (write (states[i]?.getD (.empty retention))) else states[i]? := by
  obtain ⟨hlt, -⟩ := List.getElem?_eq_some_iff.mp hhere
  have hextended : (extended retention states p)[i]? =
      if p + 1 = i then some (states[i]?.getD (.empty retention)) else states[i]? := by
    rw [extended]
    split
    · next hlast =>
      rcases Nat.lt_trichotomy i (p + 1) with hbefore | rfl | hafter
      · rw [if_neg (by omega), List.getElem?_append_left (by omega)]
      · rw [if_pos rfl, ← hlast, List.getElem?_concat_length,
          List.getElem?_eq_none_iff.mpr (Nat.le_refl _), Option.getD_none]
      · rw [if_neg (by omega), List.getElem?_eq_none_iff.mpr (by simp; omega),
          List.getElem?_eq_none_iff.mpr (by omega)]
    · next hnext =>
      split
      · next heq =>
        have hi : i < states.length := by omega
        rw [List.getElem?_eq_getElem hi, Option.getD_some]
      · rfl
  rw [List.getElem?_modify, hextended]
  split
  · rfl
  · exact id_map _

theorem getElem?_serve (hhere : f.states[f.position]? = some here) (i : Nat) :
    (rules.serve n retention input f here item)[i]? =
      match rules.written? n retention input f here item with
      | none => f.states[i]?
      | some (p, s) => if p = i then some s else f.states[i]? := by
  rw [serve, written?]
  cases item.next? with
  | none => exact getElem?_set_of_some hhere
  | some symbol =>
    cases hdefines : rules.defines symbol with
    | true =>
      simp only [hdefines, if_true]
      exact getElem?_set_of_some hhere
    | false =>
      simp only [hdefines, Bool.false_eq_true, if_false]
      by_cases hread : input[f.position]? = some symbol
      · simp only [if_pos hread]
        rw [getElem?_modify_extended hhere]
        split
        · next heq => rw [heq]
        · rfl
      · simp only [if_neg hread]

/-- **Serving an item writes one state at most**, and leaves the others as they are. -/
theorem serve_cases (rules : Rules) (n : Nullable) (retention : Retention) (input : List String)
    (item : Item) (hhere : f.states[f.position]? = some here) (i : Nat) :
    (∃ s, rules.written? n retention input f here item = some (i, s) ∧
        (rules.serve n retention input f here item)[i]? = some s) ∨
      (∀ s, rules.written? n retention input f here item ≠ some (i, s)) ∧
        (rules.serve n retention input f here item)[i]? = f.states[i]? := by
  rw [getElem?_serve hhere]
  rcases rules.written? n retention input f here item with _ | ⟨p, s⟩
  · exact Or.inr ⟨fun _ => (Option.some_ne_none _).symm, rfl⟩
  · by_cases heq : p = i
    · subst heq
      exact Or.inl ⟨s, rfl, if_pos rfl⟩
    · exact Or.inr ⟨fun _ h => heq (Prod.mk.inj (Option.some.inj h)).1, if_neg heq⟩

/-- What is written: the state that is walked over with what the item offers, or the next one with
the item that moved over a token. -/
theorem written?_cases (h : rules.written? n retention input f here item = some (p, s)) :
    (p = f.position ∧ s = here.insertAll (completions (f.states[item.start]?.getD here).items
        item.rule.lhs ⟨f.position, f.index⟩)) ∨
      (∃ symbol, p = f.position ∧
        s = (here.pushAll (rules.predictions n item symbol f.position)).dedup) ∨
      p = f.position + 1 ∧
        s = (f.states[f.position + 1]?.getD (.empty retention)).insert (item.advance .scan) := by
  rw [written?] at h
  split at h
  · cases h
    exact Or.inl ⟨rfl, rfl⟩
  · next symbol _ =>
    split at h
    · cases h
      exact Or.inr (Or.inl ⟨symbol, rfl, rfl⟩)
    · split at h
      · cases h
        exact Or.inr (Or.inr ⟨rfl, rfl⟩)
      · exact absurd h (Option.some_ne_none _).symm

/-- No state before the one that is walked over is written. -/
theorem position_le_of_written (h : rules.written? n retention input f here item = some (p, s)) :
    f.position ≤ p := by
  rcases written?_cases h with ⟨rfl, -⟩ | ⟨-, rfl, -⟩ | ⟨rfl, -⟩
  · exact Nat.le_refl _
  · exact Nat.le_refl _
  · exact Nat.le_succ _

/-- What is written began at its position or before. -/
theorem start_le_of_written (hbegun : Begun f.states) (hhere : f.states[f.position]? = some here)
    (hitem : item ∈ here.items)
    (h : rules.written? n retention input f here item = some (p, s)) :
    ∀ x ∈ s.items, x.start ≤ p := by
  have hkept : ∀ x ∈ here.items, x.start ≤ f.position := hbegun _ _ hhere
  intro x hx
  rcases written?_cases h with ⟨rfl, rfl⟩ | ⟨symbol, rfl, rfl⟩ | ⟨rfl, rfl⟩
  · rcases State.mem_of_mem_insertAll hx with hx | hx
    · exact hkept x hx
    · -- the item that waited is found where the completed item began
      obtain ⟨waiting, hwaiting, -, rfl⟩ := mem_completions.mp hx
      exact hbegun.start_le_getD hkept (hkept item hitem) waiting hwaiting
  · have hx := State.mem_of_mem_dedup hx
    rw [State.items_pushAll, List.mem_append] at hx
    rcases hx with hx | hx
    · exact hkept x hx
    · rcases mem_predictions.mp hx with ⟨r, -, -, rfl⟩ | ⟨-, rfl⟩
      · exact Nat.le_refl _
      · exact hkept item hitem
  · rw [← State.insertAll_nil (State.insert _ _), ← State.insertAll_cons] at hx
    rcases State.mem_of_mem_insertAll hx with hx | hx
    · exact hbegun.start_le_getD (fun _ h => absurd h List.not_mem_nil) (Nat.le_refl _) x hx
    · obtain rfl := List.mem_singleton.mp hx
      exact Nat.le_succ_of_le (hkept item hitem)

/-! ### Steps -/

/-- **What a step does**: it goes on to the next state, or serves an item. -/
theorem step?_cases (h : rules.step? n retention input f = some g) :
    ∃ here, f.states[f.position]? = some here ∧
      (here.items[f.index]? = none ∧ g = ⟨f.states, f.position + 1, 0⟩ ∨
        ∃ item, here.items[f.index]? = some item ∧
          g = ⟨rules.serve n retention input f here item, f.position, f.index + 1⟩) := by
  rw [step?] at h
  split at h
  · exact absurd h (Option.some_ne_none g).symm
  · next here hhere =>
    refine ⟨here, hhere, ?_⟩
    split at h
    · next hnone => exact Or.inl ⟨hnone, (Option.some.inj h).symm⟩
    · next item hitem => exact Or.inr ⟨item, hitem, (Option.some.inj h).symm⟩

theorem step?_frame (h : rules.step? n retention input f = some g) :
    f.position ≤ g.position ∧ ∀ i < f.position, g.states[i]? = f.states[i]? := by
  obtain ⟨here, hhere, ⟨-, rfl⟩ | ⟨item, -, rfl⟩⟩ := step?_cases h
  · exact ⟨Nat.le_succ _, fun _ _ => rfl⟩
  · refine ⟨Nat.le_refl _, fun i hi => ?_⟩
    rcases serve_cases rules n retention input item hhere i with ⟨s, hwritten, -⟩ | ⟨-, hkept⟩
    · exact absurd (position_le_of_written hwritten) (Nat.not_le.mpr hi)
    · exact hkept

/-- **The loop goes forward**, and leaves the states behind it as they are. -/
theorem steps?_frame (h : rules.steps? n retention input count f = some g) :
    f.position ≤ g.position ∧ ∀ i < f.position, g.states[i]? = f.states[i]? := by
  induction count generalizing f with
  | zero =>
    obtain rfl := Option.some.inj h
    exact ⟨Nat.le_refl _, fun _ _ => rfl⟩
  | succ count ih =>
    rw [steps?] at h
    obtain ⟨mid, hstep, hrest⟩ := Option.bind_eq_some_iff.mp h
    obtain ⟨hforward, hframe⟩ := step?_frame hstep
    obtain ⟨hforward', hframe'⟩ := ih hrest
    exact ⟨Nat.le_trans hforward hforward', fun i hi =>
      (hframe' i (Nat.lt_of_lt_of_le hi hforward)).trans (hframe i hi)⟩

/-- What all states have has to be seen to only where a state is written. -/
theorem forall_step? {P : Nat → State → Prop}
    (hall : ∀ (i : Nat) (s : State), f.states[i]? = some s → P i s)
    (hwritten : ∀ here item, f.states[f.position]? = some here → item ∈ here.items →
      ∀ p s, rules.written? n retention input f here item = some (p, s) → P p s)
    (h : rules.step? n retention input f = some g) (i : Nat) (s : State)
    (hs : g.states[i]? = some s) : P i s := by
  obtain ⟨here, hhere, ⟨-, rfl⟩ | ⟨item, hitem, rfl⟩⟩ := step?_cases h
  · exact hall i s hs
  · rcases serve_cases rules n retention input item hhere i with ⟨s', hnew, hat⟩ | ⟨-, hkept⟩
    · obtain rfl := Option.some.inj (hat.symm.trans hs)
      exact hwritten here item hhere (List.mem_of_getElem? hitem) i s' hnew
    · exact hall i s (hkept.symm.trans hs)

theorem begun_step? (hbegun : Begun f.states) (h : rules.step? n retention input f = some g) :
    Begun g.states :=
  forall_step? hbegun (fun _ _ hhere hitem _ _ => start_le_of_written hbegun hhere hitem) h

theorem begun_seed (rules : Rules) (retention : Retention) (start : String) :
    Begun [rules.seed retention start] := by
  intro i s hs x hx
  obtain ⟨hi, rfl⟩ := List.getElem?_eq_some_iff.mp hs
  obtain rfl := Nat.lt_one_iff.mp hi
  rcases State.mem_of_mem_insertAll hx with hx | hx
  · exact absurd hx List.not_mem_nil
  · obtain ⟨r, -, rfl⟩ := List.mem_map.mp hx
    exact Nat.le_refl 0

/-- **States that the loop has left stay as they are**: they are those of the chart. -/
theorem getElem?_of_steps?
    (h : rules.steps? n retention input count ⟨[rules.seed retention start], 0, 0⟩ = some f) :
    ∀ i < f.position, f.states[i]? = (rules.chart n retention start input).state? i := by
  obtain ⟨⟨hall, hend⟩, -, -⟩ := filling_ends rules n retention start input
  rcases Nat.le_total count ((rules.chart n retention start input).size +
    (rules.chart n retention start input).length) with hle | hge
  · obtain ⟨more, hmore⟩ := Nat.exists_eq_add_of_le hle
    rw [hmore, steps?_add, h, Option.bind_some] at hall
    intro i hi
    exact ((steps?_frame hall).2 i hi).symm
  · -- past its last step the loop would lead nowhere
    obtain ⟨more, hmore⟩ := Nat.exists_eq_add_of_le hge
    rw [hmore, steps?_add, hall, Option.bind_some] at h
    cases more with
    | zero =>
      obtain rfl := Option.some.inj h
      exact fun _ _ => rfl
    | succ more =>
      rw [steps?, hend] at h
      exact absurd h (Option.some_ne_none f).symm

end Rules

/-! ### Two loops -/

namespace Filling

/-- Two loops stand at the same place, and have the same states up to a position. -/
structure Agree (k : Nat) (f g : Filling) : Prop where
  /-- They walk over the same state. -/
  position : f.position = g.position
  /-- They serve the same item next. -/
  index : f.index = g.index
  /-- The states up to the position are the same. -/
  states : ∀ i ≤ k, f.states[i]? = g.states[i]?

namespace Agree

variable {rules : Rules} {n : Nullable} {retention : Retention} {a b : List String} {k count : Nat}
  {f f' g : Filling} {here : State} {item : Item}

theorem refl (k : Nat) (f : Filling) : Agree k f f := ⟨rfl, rfl, fun _ _ => rfl⟩

/-- Serving the same item writes the same, as far as the loops agree. -/
theorem written?_iff (h : Agree k f g) (rules : Rules) (n : Nullable) (retention : Retention)
    (here : State) (hinput : ∀ i < k, a[i]? = b[i]?) (hposition : f.position ≤ k)
    (hstart : item.start ≤ f.position) {p : Nat} (hp : p ≤ k) (s : State) :
    rules.written? n retention a f here item = some (p, s) ↔
      rules.written? n retention b g here item = some (p, s) := by
  rw [Rules.written?, Rules.written?, ← h.position, ← h.index,
    h.states _ (Nat.le_trans hstart hposition)]
  cases item.next? with
  | none => exact Iff.rfl
  | some symbol =>
    cases hdefines : rules.defines symbol with
    | true => simp only [hdefines, if_true]
    | false =>
      simp only [hdefines, Bool.false_eq_true, if_false]
      rcases Nat.lt_or_eq_of_le hposition with hlt | heq
      · rw [hinput _ hlt, h.states _ hlt]
      · -- what the loops read now is written after the states they agree on
        have hnever : ∀ (input : List String) (next : State),
            (if input[f.position]? = some symbol then some (f.position + 1, next) else none) ≠
              some (p, s) := by
          intro input next hwritten
          split at hwritten
          · obtain ⟨rfl, -⟩ := Prod.mk.inj (Option.some.inj hwritten)
            omega
          · exact Option.some_ne_none _ hwritten.symm
        exact iff_of_false (hnever a _) (hnever b _)

/-- **Loops whose inputs begin alike stay in step** for one step over a state that they agree on. -/
theorem step? (h : Agree k f g) (hbegun : Begun f.states) (hinput : ∀ i < k, a[i]? = b[i]?)
    (hposition : f.position ≤ k) (hstep : rules.step? n retention a f = some f') :
    ∃ g', rules.step? n retention b g = some g' ∧ Agree k f' g' := by
  obtain ⟨here, hhere, hcases⟩ := Rules.step?_cases hstep
  have hhere' : g.states[g.position]? = some here :=
    h.position ▸ (h.states _ hposition).symm.trans hhere
  rcases hcases with ⟨hnone, rfl⟩ | ⟨item, hitem, rfl⟩
  · refine ⟨⟨g.states, g.position + 1, 0⟩, ?_, congrArg (· + 1) h.position, rfl, h.states⟩
    simp only [Rules.step?, hhere', ← h.index, hnone]
  · refine ⟨⟨rules.serve n retention b g here item, g.position, g.index + 1⟩, ?_, h.position,
      congrArg (· + 1) h.index, fun i hi => ?_⟩
    · simp only [Rules.step?, hhere', ← h.index, hitem]
    · have hstart : item.start ≤ f.position := hbegun _ _ hhere item (List.mem_of_getElem? hitem)
      have hiff := h.written?_iff rules n retention here hinput hposition hstart hi
      rcases Rules.serve_cases rules n retention a item hhere i with
        ⟨s, hwritten, hnew⟩ | ⟨hnot, hkept⟩
      · rw [hnew, Rules.getElem?_serve hhere', (hiff s).mp hwritten]
        exact (if_pos rfl).symm
      · rcases Rules.serve_cases rules n retention b item hhere' i with
          ⟨s, hwritten, -⟩ | ⟨-, hkept'⟩
        · exact absurd ((hiff s).mpr hwritten) (hnot s)
        · rw [hkept, hkept', h.states i hi]

/-- **Loops whose inputs begin alike stay in step** as long as they walk over states that they agree
on. -/
theorem steps? (h : Agree k f g) (hbegun : Begun f.states) (hinput : ∀ i < k, a[i]? = b[i]?)
    (hsteps : rules.steps? n retention a count f = some f') (hposition : f'.position ≤ k) :
    ∃ g', rules.steps? n retention b count g = some g' ∧ Agree k f' g' := by
  induction count generalizing f g with
  | zero =>
    obtain rfl := Option.some.inj hsteps
    exact ⟨g, rfl, h⟩
  | succ count ih =>
    rw [Rules.steps?] at hsteps
    obtain ⟨mid, hstep, hrest⟩ := Option.bind_eq_some_iff.mp hsteps
    have hforward := Nat.le_trans (Rules.step?_frame hstep).1 (Rules.steps?_frame hrest).1
    obtain ⟨mid', hstep', hmid⟩ := h.step? hbegun hinput (Nat.le_trans hforward hposition) hstep
    obtain ⟨g', hrest', hagree⟩ := ih hmid (Rules.begun_step? hbegun hstep) hrest
    exact ⟨g', by rw [Rules.steps?, hstep', Option.bind_some, hrest'], hagree⟩

end Agree

end Filling

/-! ### Charts of inputs that begin alike -/

/-- **Charts are local.** The charts of two inputs with a first part in common have the same states
up to the position where that part ends: they exist in both or in neither, and hold the same items
in the same order. The loops that fill them take the same steps as long as they walk over these
states, and a state is not changed after a loop has left it. -/
theorem Rules.chart_local (rules : Rules) (n : Nullable) (retention : Retention) (start : String)
    (u v w : List String) :
    (∀ i ≤ u.length, (rules.chart n retention start (u ++ v)).state? i =
      (rules.chart n retention start (u ++ w)).state? i) ∧
    ∀ count f,
      rules.steps? n retention (u ++ v) count ⟨[rules.seed retention start], 0, 0⟩ = some f →
        (∀ i < f.position,
          f.states[i]? = (rules.chart n retention start (u ++ v)).state? i) ∧
        (f.position ≤ u.length → ∃ g,
          rules.steps? n retention (u ++ w) count ⟨[rules.seed retention start], 0, 0⟩ = some g ∧
            f.Agree u.length g) := by
  have hlocal : ∀ more : List String, ∀ i ≤ u.length,
      (rules.chart n retention start (u ++ more)).state? i =
        (rules.chart n retention start u).state? i := by
    intro more i hi
    rw [Chart.state?, Chart.state?, ← take_chart_append rules n retention start u more,
      List.getElem?_take_of_lt (Nat.lt_succ_of_le hi)]
  have hinput : ∀ i < u.length, (u ++ v)[i]? = (u ++ w)[i]? := by
    intro i hi
    rw [List.getElem?_append_left hi, List.getElem?_append_left hi]
  refine ⟨fun i hi => (hlocal v i hi).trans (hlocal w i hi).symm, fun count f hsteps =>
    ⟨getElem?_of_steps? hsteps, fun hposition => ?_⟩⟩
  exact (Filling.Agree.refl u.length _).steps? (begun_seed rules retention start) hinput hsteps
    hposition

end ContextFree

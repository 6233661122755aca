import ContextFree.Proofs.Acceptance

/-!
# Filling step by step

A chart is filled by closing one state after the other, and a closing is a walk of no more steps
than the state has room for. Seen from nearby, filling is one loop without any bound. It serves the
items in the order of their links, and both its ends move while it runs. A completed item inserts
into the state that is walked over. An item before a nonterminal pushes to it unjudged, and the
state is sifted afterwards, so it also shrinks. An item before a terminal inserts into the next
state, which it makes if there is none.

The loop is spelled out here, and it ends with the chart. Two facts make them agree: to push to a
sifted state and to sift it is to insert; and nothing reads the next state before it is walked over,
so its kernel may as well be made when the state before it is closed. The bound of the walk is never
met, since the items of a state lie in the cells that the rules have room for. So the loop takes one
step for each item and one for each state.

## Main definitions

* `ContextFree.State.Sifted` - judging the items anew keeps all of them.
* `ContextFree.Filling`, `ContextFree.Rules.step?`, `ContextFree.Rules.steps?` - the loop.

## Main results

* `ContextFree.State.dedup_eq_insertAll`, `ContextFree.State.dedup_pushAll` - sifting is inserting
  into an empty state, and pushing and sifting is inserting.
* `ContextFree.Rules.step?_turn`, `ContextFree.Rules.steps?_walk` - what one turn of the loop does,
  and the turns of one state.
* `ContextFree.Rules.filling_ends` - the loop ends with the chart, and how large that can be.
-/

namespace ContextFree

/-! ### Pushing and sifting -/

namespace State

variable {s s' : State} {offered : List Item}

/-- Append items unjudged, one after the other. -/
def pushAll (s : State) (offered : List Item) : State := offered.foldl push s

/-- Judging the items anew keeps all of them. -/
def Sifted (s : State) : Prop := sift s.retention [] s.items = s.items

@[simp] theorem items_pushAll (s : State) (offered : List Item) :
    (s.pushAll offered).items = s.items ++ offered := by
  induction offered generalizing s with
  | nil => exact (List.append_nil _).symm
  | cons item rest ih => exact (ih (s.push item)).trans (by simp)

@[simp] theorem retention_pushAll (s : State) (offered : List Item) :
    (s.pushAll offered).retention = s.retention := by
  induction offered generalizing s with
  | nil => rfl
  | cons item rest ih => exact ih (s.push item)

theorem insertAll_append (s : State) (a b : List Item) :
    s.insertAll (a ++ b) = (s.insertAll a).insertAll b :=
  List.foldl_append

/-- What is inserted is sifted by the items that are there. -/
theorem items_insertAll (h : s.Aligned) (offered : List Item) :
    (s.insertAll offered).items = sift s.retention s.items offered := by
  induction offered generalizing s with
  | nil => rfl
  | cons item rest ih =>
    rw [insertAll_cons, ih (h.insert item), retention_insert, items_insert, sift, h]
    split <;> simp

/-- States without stale records are told apart by their items. -/
theorem Aligned.eq_of_items (h : s.Aligned) (h' : s'.Aligned)
    (hretention : s.retention = s'.retention) (hitems : s.items = s'.items) : s = s' := by
  obtain ⟨retention, items, record⟩ := s
  obtain ⟨retention', items', record'⟩ := s'
  simp only [Aligned] at h h' hretention hitems
  subst h h' hretention hitems
  rfl

/-- **Sifting a state is inserting its items** into an empty one. -/
theorem dedup_eq_insertAll (s : State) : s.dedup = (empty s.retention).insertAll s.items := by
  have hempty := aligned_empty s.retention
  refine Aligned.eq_of_items (record_dedup s) (hempty.insertAll s.items) ?_ ?_
  · exact (retention_insertAll (empty s.retention) s.items).symm
  · exact (items_insertAll hempty s.items).symm

/-- Items that are pushed are judged by the sifted state in the end. -/
theorem dedup_pushAll_eq (s : State) (offered : List Item) :
    (s.pushAll offered).dedup = s.dedup.insertAll offered := by
  rw [dedup_eq_insertAll, dedup_eq_insertAll, retention_pushAll, items_pushAll, insertAll_append]

/-- So are items that the record admits. -/
theorem dedup_insert_of_admits {item : Item} (h : admits s.retention s.record item = true) :
    (s.insert item).dedup = s.dedup.insert item := by
  rw [State.insert, h, if_pos rfl]
  exact dedup_pushAll_eq s [item]

theorem sifted_empty (retention : Retention) : (State.empty retention).Sifted := rfl

theorem Sifted.dedup_eq (haligned : s.Aligned) (h : s.Sifted) : s.dedup = s :=
  Aligned.eq_of_items (record_dedup s) haligned rfl h

theorem Sifted.insert (haligned : s.Aligned) (h : s.Sifted) (item : Item) :
    (s.insert item).Sifted := by
  cases hadmits : admits s.retention s.record item with
  | false =>
    rw [State.insert, hadmits, if_neg Bool.false_ne_true]
    exact h
  | true =>
    have hdedup := dedup_insert_of_admits hadmits
    rw [Sifted.dedup_eq haligned h] at hdedup
    exact congrArg State.items hdedup

theorem Sifted.insertAll (haligned : s.Aligned) (h : s.Sifted) (offered : List Item) :
    (s.insertAll offered).Sifted := by
  induction offered generalizing s with
  | nil => exact h
  | cons item rest ih => exact ih (haligned.insert item) (Sifted.insert haligned h item)

/-- **Pushing and sifting is inserting**, to a state that is sifted already. -/
theorem dedup_pushAll (haligned : s.Aligned) (h : s.Sifted) (offered : List Item) :
    (s.pushAll offered).dedup = s.insertAll offered := by
  rw [dedup_pushAll_eq, Sifted.dedup_eq haligned h]

/-- The state as it is before the items from an index on. -/
def upTo (s : State) (index : Nat) : State := { s with items := s.items.take index }

end State

/-! ### The loop -/

/-- A chart in the making: the states made so far, and the place of the item that is served next. -/
structure Filling where
  /-- The states, by position. -/
  states : List State
  /-- The position of the state that is walked over. -/
  position : Nat
  /-- The index of the item that is served next. -/
  index : Nat

namespace Rules

/-- The states with an empty one at the end if the one at a position is the last. -/
def extended (retention : Retention) (states : List State) (position : Nat) : List State :=
  if states.length = position + 1 then states ++ [.empty retention] else states

/-- The states after the item at the present place is served. -/
def serve (rules : Rules) (n : Nullable) (retention : Retention) (input : List String) (f : Filling)
    (here : State) (item : Item) : List State :=
  match item.next? with
  | none =>
    let origin := f.states[item.start]?.getD here
    f.states.set f.position
      (here.insertAll (completions origin.items item.rule.lhs ⟨f.position, f.index⟩))
  | some symbol =>
    if rules.defines symbol then
      f.states.set f.position (here.pushAll (rules.predictions n item symbol f.position)).dedup
    else if input[f.position]? = some symbol then
      (extended retention f.states f.position).modify (f.position + 1)
        (·.insert (item.advance .scan))
    else f.states

/-- One step of the loop: serve an item, or go on to the next state if none is left. The loop ends
where there is no state. -/
def step? (rules : Rules) (n : Nullable) (retention : Retention) (input : List String)
    (f : Filling) : Option Filling :=
  match f.states[f.position]? with
  | none => none
  | some here =>
    match here.items[f.index]? with
    | none => some ⟨f.states, f.position + 1, 0⟩
    | some item => some ⟨rules.serve n retention input f here item, f.position, f.index + 1⟩

/-- A number of steps, if the loop does not end before. -/
def steps? (rules : Rules) (n : Nullable) (retention : Retention) (input : List String) :
    Nat → Filling → Option Filling
  | 0, f => some f
  | count + 1, f => (rules.step? n retention input f).bind (rules.steps? n retention input count)

variable {rules : Rules} {n : Nullable} {retention : Retention} {start : String}
  {input unread : List String} {earlier : List State} {here last : State} {item : Item}
  {bound index : Nat}

theorem steps?_add (a b : Nat) (f : Filling) : rules.steps? n retention input (a + b) f =
    (rules.steps? n retention input a f).bind (rules.steps? n retention input b) := by
  induction a generalizing f with
  | zero => rw [Nat.zero_add, steps?, Option.bind_some]
  | succ a ih =>
    rw [Nat.add_right_comm, steps?, steps?, Option.bind_assoc]
    exact Option.bind_congr fun g _ => ih g

/-! ### One turn -/

/-- The items of a state that read the next token, if there is one. -/
def reading (rules : Rules) (token? : Option String) (s : State) : List Item :=
  match token? with
  | none => []
  | some token => rules.scanned s token

/-- The states after one whose items move over the next token: one, unless no item moves. -/
def kernels (retention : Retention) (moved : List Item) : List State :=
  if moved = [] then [] else [(State.empty retention).insertAll moved]

theorem reading_congr {a b : State} (h : a.items = b.items) (token? : Option String) :
    rules.reading token? a = rules.reading token? b := by
  cases token? with
  | none => rfl
  | some token => rw [reading, reading, scanned, scanned, h]

@[simp] theorem reading_upTo_zero (token? : Option String) (s : State) :
    rules.reading token? (s.upTo 0) = [] := by
  cases token? with
  | none => rfl
  | some token => simp [reading, scanned, State.upTo]

/-- One more item of a state is read for the next token. -/
theorem reading_upTo_succ (hitem : here.items[index]? = some item) (token? : Option String) :
    rules.reading token? (here.upTo (index + 1)) = rules.reading token? (here.upTo index) ++
      if item.next? = token? ∧ token?.any (!rules.defines ·) = true then [item.advance .scan]
      else [] := by
  cases token? with
  | none => simp [reading]
  | some token =>
    simp only [reading, scanned, State.upTo, List.take_add_one, hitem, Option.toList_some,
      List.filter_append, List.map_append]
    cases hdefines : rules.defines token with
    | true => simp [hdefines]
    | false =>
      by_cases hnext : item.next? = some token
      · simp [hdefines, hnext]
      · simp [hdefines, hnext]

theorem set_append_cons (here' : State) (next : List State) :
    (earlier ++ here :: next).set earlier.length here' = earlier ++ here' :: next := by
  rw [List.set_append_right _ _ (Nat.le_refl _), Nat.sub_self, List.set_cons_zero]

/-- What is read for the next state is inserted there, and makes it if it is the first. -/
theorem modify_extended (here : State) (moved : List Item) (item : Item) :
    (extended retention (earlier ++ here :: kernels retention moved) earlier.length).modify
        (earlier.length + 1) (·.insert item) =
      earlier ++ here :: kernels retention (moved ++ [item]) := by
  have hmodify : ∀ next : State, (earlier ++ [here, next]).modify (earlier.length + 1)
      (·.insert item) = earlier ++ [here, next.insert item] := by
    intro next
    induction earlier with
    | nil => rfl
    | cons s rest ih => exact congrArg (s :: ·) ih
  by_cases hmoved : moved = []
  · subst hmoved
    have hlength : (earlier ++ [here]).length = earlier.length + 1 := by simp
    rw [kernels, if_pos rfl, extended, if_pos hlength, List.append_assoc]
    exact hmodify _
  · have hlength : (earlier ++ [here, (State.empty retention).insertAll moved]).length ≠
        earlier.length + 1 := by simp
    rw [kernels, if_neg hmoved, extended, if_neg hlength, hmodify, kernels, if_neg (by simp),
      State.insertAll_append]
    rfl

/-- The state where an item began is found among those before and the one walked over. -/
theorem origin_eq (next : List State) (hstart : item.start ≤ earlier.length) :
    (earlier ++ here :: next)[item.start]?.getD here = earlier[item.start]?.getD here := by
  rcases Nat.lt_or_eq_of_le hstart with hlt | heq
  · rw [List.getElem?_append_left hlt]
  · rw [heq, List.getElem?_append_right (Nat.le_refl _), Nat.sub_self,
      List.getElem?_eq_none_iff.mpr (Nat.le_refl _)]
    rfl

/-- **One turn of the loop** inserts what the item offers, and reads it for the next token. -/
theorem step?_turn (hitem : here.items[index]? = some item) (hstart : item.start ≤ earlier.length)
    (haligned : here.Aligned) (hsifted : here.Sifted) {here' : State}
    (hturn : here.insertAll (rules.offers n earlier here index item) = here') :
    rules.step? n retention input
        ⟨earlier ++ here ::
            kernels retention (rules.reading input[earlier.length]? (here.upTo index)),
          earlier.length, index⟩ =
      some ⟨earlier ++ here' ::
          kernels retention (rules.reading input[earlier.length]? (here'.upTo (index + 1))),
        earlier.length, index + 1⟩ := by
  -- the items served so far are the same before and after the turn
  have hserved : rules.reading input[earlier.length]? (here'.upTo (index + 1)) =
      rules.reading input[earlier.length]? (here.upTo (index + 1)) := by
    refine reading_congr ?_ _
    have hfront : here.items <+: here'.items := hturn ▸ State.items_prefix_insertAll here _
    have hlt : index < here.items.length := (List.getElem?_eq_some_iff.mp hitem).1
    obtain ⟨more, hmore⟩ := hfront
    show here'.items.take (index + 1) = here.items.take (index + 1)
    rw [← hmore, List.take_append_of_le_length hlt]
  have hat : ∀ next : List State, (earlier ++ here :: next)[earlier.length]? = some here := by
    intro next
    rw [List.getElem?_append_right (Nat.le_refl _), Nat.sub_self]
    rfl
  rw [step?, hat]
  simp only [hitem]
  refine congrArg some (congrArg (Filling.mk · earlier.length (index + 1)) ?_)
  rw [hserved, reading_upTo_succ hitem, serve, ← hturn, offers]
  cases hnext : item.next? with
  | none =>
    simp only [origin_eq _ hstart, set_append_cons]
    rw [if_neg, List.append_nil]
    rintro ⟨htoken, hterminal⟩
    rw [← htoken] at hterminal
    exact Bool.false_ne_true hterminal
  | some symbol =>
    cases hdefines : rules.defines symbol with
    | true =>
      simp only [hdefines, if_true, set_append_cons, State.dedup_pushAll haligned hsifted]
      rw [if_neg, List.append_nil]
      rintro ⟨htoken, hterminal⟩
      rw [← htoken, Option.any_some, hdefines] at hterminal
      exact Bool.false_ne_true hterminal
    | false =>
      simp only [hdefines, Bool.false_eq_true, if_false, State.insertAll_nil]
      by_cases hread : input[earlier.length]? = some symbol
      · rw [if_pos hread, if_pos ⟨hread.symm, by simp [hread, hdefines]⟩]
        exact modify_extended here _ _
      · rw [if_neg hread, if_neg fun h => hread h.1.symm, List.append_nil]

/-! ### The turns of one state -/

/-- **The loop walks over a state** as a walk does that may take as many steps as there are items in
the end. -/
theorem steps?_walk (retention : Retention) (input : List String) (haligned : here.Aligned)
    (hsifted : here.Sifted) (hlast : rules.walk n earlier bound index here = last)
    (hbound : last.items.length ≤ index + bound) (hindex : index ≤ here.items.length)
    (hstart : ∀ x ∈ last.items, x.start ≤ earlier.length) :
    rules.steps? n retention input (last.items.length - index)
        ⟨earlier ++ here ::
            kernels retention (rules.reading input[earlier.length]? (here.upTo index)),
          earlier.length, index⟩ =
      some ⟨earlier ++ last :: kernels retention (rules.reading input[earlier.length]? last),
        earlier.length, last.items.length⟩ := by
  -- where the walk stops, all items have been served
  have hdone : ∀ {index : Nat} {here : State}, here.items.length = index → here = last →
      rules.steps? n retention input (last.items.length - index)
          ⟨earlier ++ here ::
            kernels retention (rules.reading input[earlier.length]? (here.upTo index)),
            earlier.length, index⟩ =
        some ⟨earlier ++ last :: kernels retention (rules.reading input[earlier.length]? last),
          earlier.length, last.items.length⟩ := by
    rintro _ here rfl rfl
    rw [Nat.sub_self, reading_congr (a := here.upTo _) List.take_length]
    rfl
  induction bound generalizing index here with
  | zero =>
    have hsame : here = last := hlast
    subst hsame
    exact hdone (by omega) rfl
  | succ bound ih =>
    have hfront : here.items <+: last.items := hlast ▸ items_prefix_walk _ _ here
    rw [walk] at hlast
    split at hlast
    · next hnone =>
      have hlength : here.items.length ≤ index := List.getElem?_eq_none_iff.mp hnone
      exact hdone (by omega) hlast
    · next item hitem =>
      have hitem : here.items[index]? = some item := hitem
      have hlt : index < here.items.length := (List.getElem?_eq_some_iff.mp hitem).1
      have hle := (State.items_prefix_insertAll here
        (rules.offers n earlier here index item)).length_le
      have hitem_start := hstart item (hfront.subset (List.mem_of_getElem? hitem))
      have hlast_le := hfront.length_le
      rw [show last.items.length - index = (last.items.length - (index + 1)) + 1 by omega, steps?,
        step?_turn hitem hitem_start haligned hsifted rfl, Option.bind_some]
      exact ih (haligned.insertAll _) (hsifted.insertAll haligned _) hlast (by omega) (by omega)

/-! ### The run -/

/-- After the last item of a state the loop goes on to the next position. -/
theorem step?_next (states : List State) (hat : states[index]? = some here) :
    rules.step? n retention input ⟨states, index, here.items.length⟩ =
      some ⟨states, index + 1, 0⟩ := by
  rw [step?, hat]
  simp

/-- The loop closes the state that it begins with. -/
theorem steps?_close (retention : Retention) (input : List String) (haligned : here.Aligned)
    (hsifted : here.Sifted)
    (hclosed : rules.close n earlier here = last)
    (hroom : last.items.length ≤ rules.room here.retention earlier.length)
    (hstart : ∀ x ∈ last.items, x.start ≤ earlier.length) :
    rules.steps? n retention input (last.size + 1) ⟨earlier ++ [here], earlier.length, 0⟩ =
      some ⟨earlier ++ last :: kernels retention (rules.reading input[earlier.length]? last),
        earlier.length + 1, 0⟩ := by
  have hwalk := steps?_walk retention input haligned hsifted hclosed
    (by omega) (Nat.zero_le _) hstart
  rw [reading_upTo_zero, kernels, if_pos rfl] at hwalk
  rw [steps?_add, State.size]
  rw [Nat.sub_zero] at hwalk
  rw [hwalk, Option.bind_some, steps?, step?_next _ (by simp), Option.bind_some]
  rfl

theorem fillFrom_cons_of_eq_nil {token : String}
    (hmoved : rules.scanned (rules.close n earlier here) token = []) :
    rules.fillFrom n earlier here (token :: unread) = earlier ++ [rules.close n earlier here] := by
  simp only [fillFrom, hmoved]

theorem fillFrom_cons_of_ne_nil {token : String}
    (hmoved : rules.scanned (rules.close n earlier here) token ≠ [])
    (hretention : here.retention = retention) :
    rules.fillFrom n earlier here (token :: unread) =
      rules.fillFrom n (earlier ++ [rules.close n earlier here])
        ((State.empty retention).insertAll (rules.scanned (rules.close n earlier here) token))
        unread := by
  simp only [fillFrom, hretention]

/-- **The loop fills the rest of a chart**, in one step for each item and each state. -/
theorem steps?_fillFrom (haligned : here.Aligned) (hsifted : here.Sifted)
    (hretention : here.retention = retention) (hunread : input.drop earlier.length = unread)
    (hfits : ∀ i s, (rules.fillFrom n earlier here unread)[i]? = some s →
      s.items.length ≤ rules.room retention i ∧ ∀ x ∈ s.items, x.start ≤ i) :
    ∃ count, count + (State.total earlier + earlier.length) =
        State.total (rules.fillFrom n earlier here unread) +
          (rules.fillFrom n earlier here unread).length ∧
      rules.steps? n retention input count ⟨earlier ++ [here], earlier.length, 0⟩ =
        some ⟨rules.fillFrom n earlier here unread,
          (rules.fillFrom n earlier here unread).length, 0⟩ := by
  induction unread generalizing earlier here with
  | nil =>
    obtain ⟨hroom, hstart⟩ := hfits _ _ (fills_fillFrom rules n earlier here []).first
    have hend : input[earlier.length]? = none :=
      List.getElem?_eq_none_iff.mpr (List.drop_eq_nil_iff.mp hunread)
    have hclose := steps?_close retention input haligned hsifted rfl
      (hretention.symm ▸ hroom) hstart
    rw [hend] at hclose
    refine ⟨_, ?_, by simpa [fillFrom, reading, kernels] using hclose⟩
    simp only [fillFrom, State.total_append, State.total, List.length_append, List.length_singleton]
    omega
  | cons token rest ih =>
    obtain ⟨hroom, hstart⟩ := hfits _ _ (fills_fillFrom rules n earlier here (token :: rest)).first
    obtain ⟨htoken, hrest⟩ := drop_eq_cons_iff.mp hunread
    have hclose := steps?_close retention input haligned hsifted rfl
      (hretention.symm ▸ hroom) hstart
    rw [htoken, reading] at hclose
    by_cases hmoved : rules.scanned (rules.close n earlier here) token = []
    · rw [hmoved, kernels, if_pos rfl] at hclose
      rw [fillFrom_cons_of_eq_nil hmoved]
      refine ⟨_, ?_, by simpa using hclose⟩
      simp only [State.total_append, State.total, List.length_append, List.length_singleton]
      omega
    · rw [kernels, if_neg hmoved] at hclose
      rw [fillFrom_cons_of_ne_nil hmoved hretention] at hfits ⊢
      -- the loop stands where a loop stands that begins with the next state
      have hlength : (earlier ++ [rules.close n earlier here]).length = earlier.length + 1 := by
        simp
      have hempty := State.aligned_empty retention
      obtain ⟨count, hcount, hrun⟩ := ih (hempty.insertAll _)
        ((State.sifted_empty retention).insertAll hempty _) (State.retention_insertAll _ _)
        (hlength.symm ▸ hrest) hfits
      rw [hlength, State.total_append, State.total, State.total] at hcount
      rw [hlength, List.append_assoc] at hrun
      refine ⟨(rules.close n earlier here).size + 1 + count, by omega, ?_⟩
      rw [steps?_add, hclose, Option.bind_some]
      exact hrun

/-! ### The size of a chart -/

/-- A state has no more items than the cells of different rules hold copies. -/
theorem size_le (hs : (rules.chart n retention start input).states[index]? = some here) :
    here.size ≤ retention.copies * dots rules.eraseDups * (index + 1) := by
  have hcells : ∀ x ∈ here.items, x.cell ∈ cells rules.eraseDups index := by
    intro x hx
    obtain ⟨hrule, hdot, hstart⟩ := mem_cells.mp (cell_mem_cells hs hx)
    exact mem_cells.mpr ⟨List.mem_eraseDups.mpr hrule, hdot, hstart⟩
  have hlength := State.length_le_of_limited (limited_of_state hs) hcells
  rwa [retention_of_state hs, length_cells, ← Nat.mul_assoc] at hlength

/-- **Filling ends.** The loop that begins with the rules of the start symbol takes one step for
each item and one for each state of the chart, and has then made the chart and nothing left to do.
There is at most one state more than tokens; a state holds at most so many copies of each place for
a dot in a rule of the list, repeated rules counted once, and of each start at or before it; and its
items keep to these places. -/
theorem filling_ends (rules : Rules) (n : Nullable) (retention : Retention) (start : String)
    (input : List String) :
    (rules.steps? n retention input
        ((rules.chart n retention start input).size + (rules.chart n retention start input).length)
        ⟨[rules.seed retention start], 0, 0⟩ =
      some ⟨(rules.chart n retention start input).states,
        (rules.chart n retention start input).length, 0⟩ ∧
      rules.step? n retention input ⟨(rules.chart n retention start input).states,
        (rules.chart n retention start input).length, 0⟩ = none) ∧
    (rules.chart n retention start input).length ≤ input.length + 1 ∧
    ∀ i s, (rules.chart n retention start input).state? i = some s →
      s.size ≤ retention.copies * dots rules.eraseDups * (i + 1) ∧
        ∀ x ∈ s.items, x.start ≤ i ∧ x.dot ≤ x.rule.rhs.length := by
  refine ⟨⟨?_, ?_⟩, length_chart_le, fun i s hs => ⟨size_le hs, fun x hx => ?_⟩⟩
  · have hkernel := State.aligned_empty retention
    have hfits : ∀ i s, (rules.fillFrom n [] (rules.seed retention start) input)[i]? = some s →
        s.items.length ≤ rules.room retention i ∧ ∀ x ∈ s.items, x.start ≤ i :=
      fun i s hs => ⟨length_items_le hs, fun x hx => (mem_cells.mp (cell_mem_cells hs hx)).2.2⟩
    have hunread : input.drop ([] : List State).length = input := rfl
    obtain ⟨count, hcount, hrun⟩ := steps?_fillFrom
      (hkernel.insertAll ((rules.of start).map (Item.predicted · 0)))
      ((State.sifted_empty retention).insertAll hkernel _) (State.retention_insertAll _ _)
      hunread hfits
    have hcount : count = (rules.chart n retention start input).size +
        (rules.chart n retention start input).length := hcount
    rw [← hcount]
    exact hrun
  · rw [step?, Chart.length, List.getElem?_eq_none_iff.mpr (Nat.le_refl _)]
  · obtain ⟨-, hdot, hstart⟩ := mem_cells.mp (cell_mem_cells hs hx)
    exact ⟨hstart, hdot⟩

end Rules

end ContextFree

import ContextFree.Grammar
import ContextFree.Proofs.Acceptance
import ContextFree.Proofs.Ambiguity
import ContextFree.Proofs.Copies
import ContextFree.Proofs.Leftmost
import Mathlib.Data.ENat.Lattice

/-!
# How many derivations are counted

Where no symbol is nullable and no rule is left-recursive, the derivations of an input are counted
exactly up to the limit: there are as many as leftmost derivations, or as many as are reported.

Each cell keeps so many copies only, yet what it drops is not missed. A row of trees over the
symbols after the dot leads a copy over them, tree by tree: a leaf scans it, and a node is
predicted, led to its end, and completes it. At each step the copy is made, or else the cell that
it would lie in is full; and from a full cell the row of trees leads to a full cell. So every parse
tree of the input is the tree of a final item, unless a cell of final items is full. In that case
there are as many derivations as the limit allows, for different copies unfold into different trees.

That different trees are shown differently is where symbols have to be one character long: a rule is
then read back from its text, and the rules in preorder tell the tree.

## Main definitions

* `ContextFree.Rules.OneCharacter` - every symbol is one character long.

## Main results

* `ContextFree.Rules.Unfolds.links_eq` - different copies unfold into different trees.
* `ContextFree.Rules.exists_copy_of_sketch` - a row of trees leads from copy to copy, or to a full
  cell.
* `ContextFree.Rules.IsParse.derivation_injOn` - different trees are shown differently.
* `ContextFree.Rules.length_derivations_eq_min` - how many derivations are reported.
-/

namespace ContextFree

variable {rules : Rules} {retention : Retention} {start : String} {input : List String}

namespace Rules

/-! ### Different copies have different trees -/

/-- The tree of a linked nonterminal is a node, whose children its item unfolds into. -/
theorem Unfolds.of_node {c : Chart} {i : Nat} {row : Form} {links : List Link} {r : Rule}
    {u t : Sketch} (h : rules.Unfolds c i row links (.node r u t)) :
    ∃ k x rest links', row = r.lhs :: rest ∧ links = ⟨i + u.yield.length, k⟩ :: links' ∧
      c.item? ⟨i + u.yield.length, k⟩ = some x ∧ x.cell = ⟨r, x.dot, i⟩ ∧ x.next? = none ∧
      rules.Unfolds c i r.rhs x.provenance u ∧
      rules.Unfolds c (i + u.yield.length) rest links' t := by
  generalize ht : Sketch.node r u t = tree at h
  cases h with
  | nil => exact Sketch.noConfusion ht
  | leaf => exact Sketch.noConfusion ht
  | gap => exact Sketch.noConfusion ht
  | @node j k x rest links' _ _ hx _ hnone hbelow hlength hafter =>
    obtain ⟨rfl, rfl, rfl⟩ := Sketch.node.inj ht
    obtain rfl := hlength
    exact ⟨k, x, rest, links', rfl, rfl, hx, rfl, hnone, hbelow, hafter⟩

/-- Items completed under one rule from one position are told apart by their provenance. -/
theorem index_eq_of_completed {n : Nullable} {i k k' : Nat} {x x' : Item}
    (hx : (rules.chart n retention start input).item? ⟨i, k⟩ = some x) (hnone : x.next? = none)
    (hx' : (rules.chart n retention start input).item? ⟨i, k'⟩ = some x') (hnone' : x'.next? = none)
    (hrule : x.rule = x'.rule) (hstart : x.start = x'.start)
    (hprovenance : x.provenance = x'.provenance) : k = k' := by
  have hcell : x.cell = x'.cell := by
    rw [(made_of_item? hx).cell_of_completed hnone, (made_of_item? hx').cell_of_completed hnone',
      hrule, hstart]
  exact index_eq_of_copy hx hx' hcell hprovenance

/-- **Different copies unfold into different trees.** A row of trees tells the links it is made
from. -/
theorem Unfolds.links_eq {n : Nullable} {i : Nat} {row row' : Form} {links links' : List Link}
    {t : Sketch} (h : rules.Unfolds (rules.chart n retention start input) i row links t)
    (h' : rules.Unfolds (rules.chart n retention start input) i row' links' t) :
    links = links' := by
  induction t generalizing i row row' links links' with
  | nil =>
    cases h with
    | nil =>
      cases h' with
      | nil => rfl
  | leaf symbol rest ih =>
    cases h with
    | leaf _ hrest =>
      cases h' with
      | leaf _ hrest' => exact ih hrest hrest'
  | gap symbol rest ih =>
    cases h with
    | gap _ hrest =>
      cases h' with
      | gap _ hrest' => exact ih hrest hrest'
  | node r u rest ihu ih =>
    obtain ⟨k, x, _, _, rfl, rfl, hx, hcell, hnone, hbelow, hafter⟩ := h.of_node
    obtain ⟨k', x', _, _, -, rfl, hx', hcell', hnone', hbelow', hafter'⟩ := h'.of_node
    obtain ⟨hrule, -, hstart⟩ := Cell.mk.inj hcell
    obtain ⟨hrule', -, hstart'⟩ := Cell.mk.inj hcell'
    rw [index_eq_of_completed hx hnone hx' hnone' (hrule.trans hrule'.symm)
      (hstart.trans hstart'.symm) (ihu hbelow hbelow'), ih hafter hafter']

/-! ### Rows of trees lead from copy to copy -/

section

variable {i : Nat} {r : Rule} {dot origin : Nat} {behind : Form} {after : List String} {t : Sketch}

/-- A rule that is begun has one copy, without links. -/
theorem nil_mem_copies_of_holds {n : Nullable}
    (h : (rules.chart n retention start input).Holds i ⟨r, 0, origin⟩) :
    [] ∈ (rules.chart n retention start input).copies i ⟨r, 0, origin⟩ := by
  obtain ⟨k, x, hx, hcell⟩ := Chart.holds_iff.mp h
  refine ⟨k, x, hx, hcell, ?_⟩
  obtain ⟨-, hdot, -⟩ := Cell.mk.inj hcell
  exact (made_of_item? hx).provenance_eq_nil hdot

/-- If the cell of an item that waits is full, so is the cell that it is led to. -/
theorem full_of_sketch (hnone : rules.NoneNullable)
    (hfull : (rules.chart rules.nullable retention start input).Full i ⟨r, dot, origin⟩)
    (hvalid : t.Valid rules) (hroots : r.rhs.drop dot = t.roots ++ behind)
    (hread : input.drop i = t.yield ++ after) :
    (rules.chart rules.nullable retention start input).Full (i + t.yield.length)
      ⟨r, dot + t.roots.length, origin⟩ := by
  induction t generalizing i dot behind after with
  | nil => exact hfull
  | leaf symbol rest ih =>
    obtain ⟨hnext, hroots'⟩ := drop_eq_cons_iff.mp hroots
    obtain ⟨htoken, hread'⟩ := drop_eq_cons_iff.mp hread
    have hmoved := ih (full_scanned hfull hnext htoken hvalid.1) hvalid.2 hroots' hread'
    rwa [Nat.add_right_comm, Nat.add_right_comm dot] at hmoved
  | gap symbol rest => exact absurd hvalid.1 (hnone symbol)
  | node rule children rest _ ih =>
    obtain ⟨hr, hchildren, hvalidc, hvalidr⟩ := hvalid
    obtain ⟨hnext, hroots'⟩ := drop_eq_cons_iff.mp hroots
    obtain ⟨hread', hdrop⟩ := drop_eq_node hread
    -- one item completed over the children advances every copy that waits for it
    have hbegun := holds_predicted hfull.holds hnext hr rfl
    have hrow : rule.rhs.drop 0 = children.roots ++ [] := by simp [hchildren]
    have hended := holds_of_sketch hbegun hvalidc hrow hread'
    rw [Nat.zero_add, hchildren] at hended
    obtain ⟨k, x, hx, hcell⟩ := Chart.holds_iff.mp hended
    obtain ⟨rfl, hdot, rfl⟩ := Cell.mk.inj hcell
    have hlater : x.start < x.start + children.yield.length :=
      Nat.lt_add_of_pos_right (hnone.length_yield_pos hr hchildren hvalidc)
    have hend : x.next? = none := Item.next?_eq_none hdot
    have hmoved := ih (full_completed hx hend hlater hfull hnext) hvalidr hroots' hdrop
    simp only [Sketch.yield, Sketch.roots, List.length_append, List.length_cons]
    rwa [Nat.add_assoc, Nat.add_right_comm dot] at hmoved

/-- **A row of trees leads from copy to copy, or to a full cell.** The links that a copy gains on
the way are those that the row unfolds from. -/
theorem exists_copy_of_sketch {links : List Link} (hnone : rules.NoneNullable)
    (hlinks : links ∈ (rules.chart rules.nullable retention start input).copies i ⟨r, dot, origin⟩)
    (hvalid : t.Valid rules) (hroots : r.rhs.drop dot = t.roots ++ behind)
    (hread : input.drop i = t.yield ++ after) :
    (∃ more, rules.Unfolds (rules.chart rules.nullable retention start input) i t.roots more t ∧
      links ++ more ∈ (rules.chart rules.nullable retention start input).copies
        (i + t.yield.length) ⟨r, dot + t.roots.length, origin⟩) ∨
    (rules.chart rules.nullable retention start input).Full (i + t.yield.length)
      ⟨r, dot + t.roots.length, origin⟩ := by
  induction t generalizing i r dot origin links behind after with
  | nil => exact Or.inl ⟨[], .nil, by rw [List.append_nil]; exact hlinks⟩
  | leaf symbol rest ih =>
    obtain ⟨hnext, hroots'⟩ := drop_eq_cons_iff.mp hroots
    obtain ⟨htoken, hread'⟩ := drop_eq_cons_iff.mp hread
    have hyield : i + (Sketch.leaf symbol rest).yield.length = i + 1 + rest.yield.length := by
      simp only [Sketch.yield, List.length_cons]
      omega
    have hlength : dot + (Sketch.leaf symbol rest).roots.length = dot + 1 + rest.roots.length := by
      simp only [Sketch.roots, List.length_cons]
      omega
    rw [hyield, hlength]
    rcases mem_copies_scanned hlinks hnext htoken hvalid.1 with hscanned | hfull
    · rcases ih hscanned hvalid.2 hroots' hread' with ⟨more, hunfolds, hmore⟩ | hfull
      · exact Or.inl ⟨more, .leaf hvalid.1 hunfolds, hmore⟩
      · exact Or.inr hfull
    · exact Or.inr (full_of_sketch hnone hfull hvalid.2 hroots' hread')
  | gap symbol rest => exact absurd hvalid.1 (hnone symbol)
  | node rule children rest ihc ih =>
    obtain ⟨hr, hchildren, hvalidc, hvalidr⟩ := hvalid
    obtain ⟨hnext, hroots'⟩ := drop_eq_cons_iff.mp hroots
    obtain ⟨hread', hdrop⟩ := drop_eq_node hread
    have hyield : i + (Sketch.node rule children rest).yield.length =
        i + children.yield.length + rest.yield.length := by
      simp only [Sketch.yield, List.length_append]
      omega
    have hlength : dot + (Sketch.node rule children rest).roots.length =
        dot + 1 + rest.roots.length := by
      simp only [Sketch.roots, List.length_cons]
      omega
    have hlater : i < i + children.yield.length :=
      Nat.lt_add_of_pos_right (hnone.length_yield_pos hr hchildren hvalidc)
    rw [hyield, hlength]
    -- the rule of the node is begun here, and its children lead it to its end
    have hbegun := nil_mem_copies_of_holds
      (holds_predicted (Chart.holds_of_mem_copies hlinks) hnext hr rfl)
    have hrow : rule.rhs.drop 0 = children.roots ++ [] := by simp [hchildren]
    have hended := ihc hbegun hvalidc hrow hread'
    rw [Nat.zero_add, hchildren] at hended
    rcases hended with ⟨below, hunfolds, hbelow⟩ | hfull
    · obtain ⟨k, x, hx, hcell, hprovenance⟩ := hbelow
      obtain ⟨rfl, hdot, rfl⟩ := Cell.mk.inj hcell
      rw [List.nil_append] at hprovenance
      have hxnone : x.next? = none := Item.next?_eq_none hdot
      rcases mem_copies_completed hx hxnone hlater hlinks hnext with hcompleted | hfull
      · rcases ih hcompleted hvalidr hroots' hdrop with ⟨more, hmore, hcopy⟩ | hfull
        · refine Or.inl ⟨⟨_, k⟩ :: more, .node hx hr hxnone (hprovenance ▸ hunfolds) rfl hmore, ?_⟩
          rwa [List.append_assoc] at hcopy
        · exact Or.inr hfull
      · exact Or.inr (full_of_sketch hnone hfull hvalidr hroots' hdrop)
    · exact Or.inr (full_of_sketch hnone (full_of_full_completed hfull hlater hlinks hnext) hvalidr
        hroots' hdrop)

end

/-! ### Rules are read back from their texts -/

/-- Every symbol is one character long. -/
def OneCharacter (rules : Rules) : Prop :=
  ∀ r ∈ rules, r.lhs.length = 1 ∧ ∀ symbol ∈ r.rhs, symbol.length = 1

instance (rules : Rules) : Decidable rules.OneCharacter :=
  inferInstanceAs (Decidable (∀ r ∈ rules, r.lhs.length = 1 ∧ ∀ symbol ∈ r.rhs, symbol.length = 1))

/-- Without nullable symbols no rule is empty. -/
theorem NoneNullable.rhs_ne_nil {r : Rule} (h : rules.NoneNullable) (hr : r ∈ rules) :
    r.rhs ≠ [] := fun hrhs => h r.lhs (hrhs ▸ Derives.of_mem hr)

/-- A rule is read back from its text. An empty rule would not be, for it is shown as one that
spells the sign of an empty right side. -/
theorem OneCharacter.text_injOn (hchars : rules.OneCharacter) (hnone : rules.NoneNullable) :
    Set.InjOn Rule.text {r | r ∈ rules} := by
  intro r hr r' hr' htext
  have htext_of : ∀ {r : Rule}, r ∈ rules →
      r.text.toList = r.lhs.toList ++ (" → ".toList ++ (String.join r.rhs).toList) := by
    intro r hr
    have hempty : ¬ r.isEmpty = true := fun h => hnone.rhs_ne_nil hr (Rule.isEmpty_iff.mp h)
    rw [Rule.text, if_neg hempty, String.toList_append, String.toList_append, List.append_assoc]
  have hlists := congrArg String.toList htext
  rw [htext_of hr, htext_of hr'] at hlists
  have hlength : r.lhs.toList.length = r'.lhs.toList.length := by
    rw [String.length_toList, String.length_toList]
    exact (hchars r hr).1.trans (hchars r' hr').1.symm
  obtain ⟨hlhs, hafter⟩ := List.append_inj hlists hlength
  have hrhs : r.rhs = r'.rhs := by
    have hjoined := String.toList_inj.mp (List.append_cancel_left hafter)
    rw [← characters_join (hchars r hr).2, hjoined, characters_join (hchars r' hr').2]
  cases r with
  | mk lhs rhs =>
    rw [Rule.mk.injEq]
    exact ⟨String.toList_inj.mp hlhs, hrhs⟩

/-- **Different trees are shown differently.** -/
theorem IsParse.derivation_injOn (hchars : rules.OneCharacter) (hnone : rules.NoneNullable)
    (start : String) (input : List String) :
    Set.InjOn (fun t : Sketch => (t.replay rules.nullable start).derivation)
      {t | rules.IsParse start input t} := by
  intro t ht u hu hderivation
  have hread : ∀ v : Sketch, v.Valid rules → (v.preorder.map Rule.text).map
      (Function.invFunOn Rule.text {r | r ∈ rules}) = v.preorder := by
    intro v hv
    rw [List.map_map]
    calc v.preorder.map (Function.invFunOn Rule.text {r | r ∈ rules} ∘ Rule.text)
        _ = v.preorder.map id := List.map_congr_left fun r hr =>
          (hchars.text_injOn hnone).leftInvOn_invFunOn (hv.rule_mem r hr)
        _ = v.preorder := List.map_id _
  have hsteps : (Form.trace [start] t.preorder).map Step.of =
      (Form.trace [start] u.preorder).map Step.of := by
    have hlists := congrArg Derivation.steps hderivation
    simp only [hnone.derivation_replay] at hlists
    exact List.tail_eq_of_cons_eq hlists
  have hrules : ∀ form : Form, ∀ applied : List Rule,
      ((form.trace applied).map Step.of).map Step.rule = applied.map Rule.text := by
    intro form applied
    conv_rhs => rw [← Form.map_fst_trace form applied, List.map_map]
    rw [List.map_map]
    rfl
  have htexts : t.preorder.map Rule.text = u.preorder.map Rule.text := by
    rw [← hrules [start], ← hrules [start], hsteps]
  refine IsParse.preorder_injOn rules start input ht hu ?_
  rw [← hread t ht.valid, ← hread u hu.valid, htexts]

/-! ### Final items and derivations -/

/-- Items at the end of a rule of the start symbol, in the last state, are final. -/
theorem places_subset_finals {r : Rule} (hlhs : r.lhs = start)
    (hlength : (rules.chart rules.nullable retention start input).length = input.length + 1) :
    (rules.chart rules.nullable retention start input).places input.length ⟨r, r.rhs.length, 0⟩ ⊆
      {l | l ∈ (rules.chart rules.nullable retention start input).finals start} := by
  rintro l ⟨hposition, x, hx, hcell⟩
  obtain ⟨rfl, hdot, hzero⟩ := Cell.mk.inj hcell
  refine Chart.mem_finals.mpr ⟨by rw [hposition, hlength], x, hx, Item.spans_iff.mpr
    ⟨hlhs, hzero, Item.next?_eq_none hdot⟩⟩

/-- **Every parse tree is that of a final item**, unless there are as many of these as a cell has
room for. -/
theorem exists_final_of_isParse {t : Sketch} (hnone : rules.NoneNullable)
    (hlength : (rules.chart rules.nullable retention start input).length = input.length + 1)
    (hstart : rules.defines start = true) (ht : rules.IsParse start input t) :
    (∃ l ∈ (rules.chart rules.nullable retention start input).finals start,
      rules.replay rules.nullable (rules.chart rules.nullable retention start input) l =
        t.replay rules.nullable start) ∨
    ((rules.chart rules.nullable retention start input).retention.copies : ℕ∞) ≤
      {l | l ∈ (rules.chart rules.nullable retention start input).finals start}.encard := by
  obtain ⟨r, u, rest, rfl, ⟨hr, hlhs⟩, ⟨hvalid, hroots, -⟩, -, hrest, -⟩ :=
    ht.valid.exists_node ht.gaps ht.roots hstart
  obtain rfl := Sketch.eq_nil_of_roots hrest
  have hyield : u.yield = input := by simpa [Sketch.yield] using ht.yield
  have hbegun : [] ∈ (rules.chart rules.nullable retention start input).copies 0 ⟨r, 0, 0⟩ :=
    nil_mem_copies_of_holds (holds_seeded hr hlhs)
  have hrow : r.rhs.drop 0 = u.roots ++ [] := by simp [hroots]
  have hread : input.drop 0 = u.yield ++ [] := by simp [hyield]
  have hended := exists_copy_of_sketch hnone hbegun hvalid hrow hread
  rw [Nat.zero_add, Nat.zero_add, hyield, hroots] at hended
  rcases hended with ⟨links, hunfolds, k, x, hx, hcell, hprovenance⟩ | hfull
  · have hmem := places_subset_finals hlhs hlength ⟨rfl, x, hx, hcell⟩
    obtain ⟨rfl, -, -⟩ := Cell.mk.inj hcell
    rw [List.nil_append] at hprovenance
    refine Or.inl ⟨_, hmem, ?_⟩
    rw [Unfolds.replay_eq (hprovenance ▸ hunfolds) hx, hlhs]
  · exact Or.inr (hfull.trans ((Chart.encard_copies_le_encard_places _ _ _).trans
      (Set.encard_le_encard (places_subset_finals hlhs hlength))))

/-- **Different final items are shown differently.** -/
theorem derivation_injOn_finals (hchars : rules.OneCharacter) (hnone : rules.NoneNullable)
    (hlength : (rules.chart rules.nullable retention start input).length = input.length + 1) :
    Set.InjOn (fun l => (rules.replay rules.nullable
        (rules.chart rules.nullable retention start input) l).derivation)
      {l | l ∈ (rules.chart rules.nullable retention start input).finals start} := by
  rintro ⟨i, k⟩ hl ⟨i', k'⟩ hl' hderivation
  obtain ⟨x, t, hx, hspans, ht, hunfolds⟩ :=
    exists_unfolds_of_mem_finals hl (Nat.le_of_eq hlength.symm)
  obtain ⟨x', t', hx', hspans', ht', hunfolds'⟩ :=
    exists_unfolds_of_mem_finals hl' (Nat.le_of_eq hlength.symm)
  obtain ⟨hlhs, hzero, hend⟩ := Item.spans_iff.mp hspans
  obtain ⟨hlhs', hzero', hend'⟩ := Item.spans_iff.mp hspans'
  simp only [hunfolds.replay_eq hx, hunfolds'.replay_eq hx', hlhs, hlhs'] at hderivation
  have htrees := IsParse.derivation_injOn hchars hnone start input (hnone.isParse ht)
    (hnone.isParse ht') hderivation
  obtain ⟨hrule, rfl, -⟩ := Sketch.node.inj htrees
  obtain rfl : i = i' :=
    Nat.succ.inj ((Chart.mem_finals.mp hl).1.trans (Chart.mem_finals.mp hl').1.symm)
  rw [index_eq_of_completed hx hend hx' hend' hrule (hzero.trans hzero'.symm)
    (hunfolds.links_eq hunfolds')]

/-! ### Counting derivations -/

/-- The first occurrences of a list's entries are as many as it has members. -/
theorem length_eraseDups_eq_encard {α : Type} [DecidableEq α] (l : List α) :
    (l.eraseDups.length : ℕ∞) = {a | a ∈ l}.encard := by
  rw [← encard_mem_of_nodup (nodup_eraseDups l)]
  simp only [List.mem_eraseDups]

/-- There are as many derivations as final items, up to the limit. -/
theorem length_derivations_eq_min_finals (hchars : rules.OneCharacter) (hnone : rules.NoneNullable)
    (hlength : (rules.parse start input).1.length = input.length + 1) :
    ((rules.recognize start input).derivations.length : ℕ∞) =
      min (derivationLimit : ℕ∞) {l | l ∈ (rules.parse start input).1.finals start}.encard := by
  have hfound : {d | d ∈ ((rules.parse start input).1.finals start).filterMap
      (rules.derivation? rules.nullable (rules.parse start input).1 input)} =
      (fun l => (rules.replay rules.nullable (rules.parse start input).1 l).derivation) ''
        {l | l ∈ (rules.parse start input).1.finals start} := by
    ext d
    constructor
    · intro hd
      obtain ⟨l, hl, hsome⟩ := List.mem_filterMap.mp hd
      exact ⟨l, hl, (derivation?_eq_some_iff.mp hsome).2⟩
    · rintro ⟨l, hl, rfl⟩
      obtain ⟨t, ht, hreplay⟩ := hnone.exists_isParse_of_mem_finals hl hlength
      exact List.mem_filterMap.mpr
        ⟨l, hl, derivation?_eq_some_iff.mpr ⟨hreplay ▸ hnone.form_replay ht, rfl⟩⟩
  rw [derivations_recognize, if_neg (Nat.not_lt.mpr (Nat.le_of_eq hlength.symm)), List.length_take,
    Nat.mono_cast.map_min, length_eraseDups_eq_encard, hfound]
  exact congrArg _ (derivation_injOn_finals hchars hnone hlength).encard_image

/-- Without nullable symbols there are no more derivations than parse trees. -/
theorem NoneNullable.length_derivations_le (hnone : rules.NoneNullable) :
    ((rules.recognize start input).derivations.length : ℕ∞) ≤
      {t | rules.IsParse start input t}.encard :=
  (length_derivations_le_encard_isSketch rules start input).trans
    (Set.encard_le_encard fun _ ht => hnone.isParse ht)

/-- The parse trees of an input are those of its final items, unless there are as many of these as
derivations are reported. -/
theorem min_encard_isParse_le (hchars : rules.OneCharacter) (hnone : rules.NoneNullable)
    (hrecursive : rules.leftRecursive rules.nullable = false)
    (hlength : (rules.parse start input).1.length = input.length + 1)
    (hstart : rules.defines start = true) :
    min (derivationLimit : ℕ∞) {t | rules.IsParse start input t}.encard ≤
      {l | l ∈ (rules.parse start input).1.finals start}.encard := by
  have hcopies : (rules.parse start input).1.retention.copies = derivationLimit := by
    show (rules.retention rules.nullable).copies = derivationLimit
    rw [retention, hrecursive]
    rfl
  by_cases hlimit : (derivationLimit : ℕ∞) ≤
      {l | l ∈ (rules.parse start input).1.finals start}.encard
  · exact (min_le_left _ _).trans hlimit
  have hsubset : (fun t => (t.replay rules.nullable start).derivation) ''
      {t | rules.IsParse start input t} ⊆
      (fun l => (rules.replay rules.nullable (rules.parse start input).1 l).derivation) ''
        {l | l ∈ (rules.parse start input).1.finals start} := by
    rintro _ ⟨t, ht, rfl⟩
    rcases exists_final_of_isParse hnone hlength hstart ht with ⟨l, hl, hreplay⟩ | hfull
    · exact ⟨l, hl, congrArg Replay.derivation hreplay⟩
    · exact absurd (hcopies ▸ hfull) hlimit
  calc min (derivationLimit : ℕ∞) {t | rules.IsParse start input t}.encard
      _ ≤ {t | rules.IsParse start input t}.encard := min_le_right _ _
      _ = _ := (IsParse.derivation_injOn hchars hnone start input).encard_image.symm
      _ ≤ _ := Set.encard_le_encard hsubset
      _ ≤ {l | l ∈ (rules.parse start input).1.finals start}.encard := Set.encard_image_le _ _

/-- A symbol without rules has no derivations. -/
theorem derivations_eq_nil (hstart : rules.defines start = false) :
    (rules.recognize start input).derivations = [] := by
  by_contra hne
  obtain ⟨-, l, hl, -⟩ := accepted_iff_exists_replay.mp (Outcome.accepted_iff.mpr hne)
  obtain ⟨-, x, hx, hspans⟩ := Chart.mem_finals.mp hl
  have hdefines : rules.defines start = true :=
    defines_iff.mpr ⟨x.rule, (made_of_item? hx).rule_mem, (Item.spans_iff.mp hspans).1⟩
  exact Bool.false_ne_true (hstart.symm.trans hdefines)

/-- **How many derivations are reported.** Under rules over symbols of one character, none of them
nullable and none left-recursive, an input has as many derivations as leftmost derivations, up to
four; no derivation is reported exactly if there is none, and a single one exactly if there is
one. -/
theorem length_derivations_eq_min (rules : Rules) (start : String) (input : List String)
    (hchars : rules.OneCharacter) (hnone : rules.NoneNullable)
    (hrecursive : rules.leftRecursive rules.nullable = false) :
    (rules.defines start = true →
      ((rules.recognize start input).derivations.length : ℕ∞) =
          min 4 {trace | rules.IsLeftmost start input trace}.encard ∧
        ((rules.recognize start input).derivations = [] ↔
          {trace | rules.IsLeftmost start input trace}.encard = 0) ∧
        ((∃ d, (rules.recognize start input).derivations = [d]) ↔
          {trace | rules.IsLeftmost start input trace}.encard = 1)) ∧
    (rules.defines start = false → (rules.recognize start input).derivations = []) ∧
    {trace | rules.IsLeftmost start input trace}.encard =
      {t | rules.IsParse start input t}.encard := by
  rw [encard_isLeftmost]
  refine ⟨fun hstart => ?_, derivations_eq_nil, rfl⟩
  have hmin : ((rules.recognize start input).derivations.length : ℕ∞) =
      min 4 {t | rules.IsParse start input t}.encard := by
    refine le_antisymm (le_min ?_ hnone.length_derivations_le) ?_
    · exact_mod_cast length_derivations_le rules start input
    rcases {t | rules.IsParse start input t}.eq_empty_or_nonempty with hempty | ⟨t, ht⟩
    · simp [hempty]
    have hlength := ((isSentence_iff_exists_isParse.mpr ⟨t, ht⟩).finals_ne_nil hstart).1
    rw [length_derivations_eq_min_finals hchars hnone hlength]
    exact le_min (min_le_left _ _) (min_encard_isParse_le hchars hnone hrecursive hlength hstart)
  -- below the limit the least of the two numbers is the number of parse trees
  have hbelow : ∀ k : ℕ∞, k < 4 → (min 4 {t | rules.IsParse start input t}.encard = k ↔
      {t | rules.IsParse start input t}.encard = k) := by
    intro k hk
    refine ⟨fun h => ((min_eq_iff.mp h).resolve_left fun hfour => hk.ne' hfour.1).1, ?_⟩
    rintro rfl
    exact min_eq_right hk.le
  refine ⟨hmin, ?_, ?_⟩
  · rw [← List.length_eq_zero_iff, ← Nat.cast_inj (R := ℕ∞), hmin]
    exact hbelow 0 (by decide)
  · rw [← List.length_eq_one_iff, ← Nat.cast_inj (R := ℕ∞), hmin]
    exact hbelow 1 (by decide)

/-- Rules under which a letter is read in one of two ways. -/
def twoWays : Rules := [⟨"S", ["A"]⟩, ⟨"S", ["B"]⟩, ⟨"A", ["a"]⟩, ⟨"B", ["a"]⟩]

/-- A letter read in two ways has two leftmost derivations. -/
theorem letter_read_two_ways :
    twoWays.OneCharacter ∧ twoWays.NoneNullable ∧
      twoWays.leftRecursive twoWays.nullable = false ∧ twoWays.defines "S" = true ∧
      {trace | twoWays.IsLeftmost "S" ["a"] trace}.encard = 2 := by
  have hchars : twoWays.OneCharacter := by decide
  have hnone : twoWays.NoneNullable := NoneNullable.iff_erasers_eq_nil.mpr (by decide)
  have hrecursive : twoWays.leftRecursive twoWays.nullable = false := by decide +kernel
  have hlength : (twoWays.recognize "S" ["a"]).derivations.length = 2 := by decide +kernel
  refine ⟨hchars, hnone, hrecursive, rfl, ?_⟩
  have hmin := ((length_derivations_eq_min twoWays "S" ["a"] hchars hnone hrecursive).1 rfl).1
  rw [hlength] at hmin
  exact ((min_eq_iff.mp hmin.symm).resolve_left fun hfour => absurd hfour.1 (by decide)).1

/-- A symbol without rules is a sentence of itself, but it has no derivation. -/
theorem lone_start_not_counted :
    Rules.OneCharacter [] ∧ Rules.NoneNullable [] ∧
      Rules.leftRecursive [] (Rules.nullable []) = false ∧
      {trace | Rules.IsLeftmost [] "a" ["a"] trace}.encard = 1 ∧
      (Rules.recognize [] "a" ["a"]).derivations = [] := by
  refine ⟨by decide, NoneNullable.iff_erasers_eq_nil.mpr (by decide), by decide +kernel, ?_,
    by decide +kernel⟩
  have hnil : ∀ {form last : Form} {trace : List (Rule × Form)},
      Rules.Leftmost [] form trace last → trace = [] := by
    intro form last trace h
    cases h with
    | done => rfl
    | step hr => exact absurd hr List.not_mem_nil
  have hone : {trace | Rules.IsLeftmost [] "a" ["a"] trace} = {[]} := by
    ext trace
    constructor
    · exact fun h => hnil h.leftmost
    · rintro rfl
      exact ⟨.singleton rfl, .done _⟩
  rw [hone, Set.encard_singleton]

end Rules

end ContextFree

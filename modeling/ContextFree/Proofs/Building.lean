import ContextFree.Proofs.Growing
import ContextFree.Proofs.Loop
import ContextFree.Proofs.Numbering

/-!
# Building the table of a tree

A tree is built as a list of rows. A node that carries a link is put aside when it is attached to
its parent, and expanded on its turn, the last one put aside first; expanding it attaches a child
for every symbol of the rule of its item. Nothing bounds the loop. It ends because every link leads
to an item made before: what is below a node is the tree that the item unfolds into, and the loop
spends one turn on each of its inner nodes.

The rows of a level are all there, without children, before the first of them is expanded, and the
turn of a node comes when everything to its right is done. So what the loop has made of a row of
trees is known from the rows it began with: the rows of the roots have got their children, and the
rows of the nodes below follow after the others.

## Main definitions

* `ContextFree.Building` - rows, and the nodes put aside.
* `ContextFree.Rules.expand?` - one turn of the loop.
* `ContextFree.Forest.filled` - what the loop makes of the rows of the roots.

## Main results

* `ContextFree.Forest.storedIn_filled` - the loop numbers the nodes as the table does.
* `ContextFree.Forest.ends_expand` - it ends with the table, after as many turns as inner nodes.
-/

namespace ContextFree

/-! ### The loop -/

/-- The rows so far, and the numbers of the nodes put aside, the next one first. -/
structure Building where
  /-- The rows by number. -/
  nodes : List Forest.Row
  /-- The nodes that are still to be expanded. -/
  pending : List Nat

namespace Forest

variable {nodes more : List Row} {parent k : Nat} {ids : List Nat} {row : Row}

/-- Add children to a node. -/
def adopt (nodes : List Row) (parent : Nat) (ids : List Nat) : List Row :=
  nodes.modify parent fun row => { row with children := row.children ++ ids }

@[simp] theorem length_adopt : (adopt nodes parent ids).length = nodes.length :=
  List.length_modify _ _ _

@[simp] theorem adopt_nil : adopt nodes parent [] = nodes := by
  simp only [adopt, List.append_nil]
  exact List.modify_id parent nodes

@[simp] theorem adopt_adopt {ids' : List Nat} :
    adopt (adopt nodes parent ids) parent ids' = adopt nodes parent (ids ++ ids') := by
  rw [adopt, adopt, List.modify_modify_eq, adopt]
  simp only [Function.comp_def, List.append_assoc]

theorem adopt_append (h : parent < nodes.length) :
    adopt (nodes ++ more) parent ids = adopt nodes parent ids ++ more := by
  refine List.ext_getElem? fun k => ?_
  rw [adopt, adopt, List.getElem?_modify]
  rcases Nat.lt_or_ge k nodes.length with hk | hk
  · rw [List.getElem?_append_left hk, List.getElem?_append_left (by rwa [List.length_modify]),
      List.getElem?_modify]
  · have hne : parent ≠ k := by omega
    rw [List.getElem?_append_right hk, List.getElem?_append_right (by rwa [List.length_modify]),
      List.length_modify]
    simp [hne]

theorem getElem?_adopt_self (h : nodes[parent]? = some row) :
    (adopt nodes parent ids)[parent]? = some { row with children := row.children ++ ids } := by
  rw [adopt, List.getElem?_modify_eq, h]
  rfl

theorem getElem?_adopt_of_ne (h : parent ≠ k) : (adopt nodes parent ids)[k]? = nodes[k]? :=
  List.getElem?_modify_ne _ nodes h

end Forest

/-- Attach a new child to a node, and put it aside if it carries a link. -/
def Building.attach (b : Building) (parent : Nat) (value : String) (link : Option Link) :
    Building where
  nodes := Forest.adopt (b.nodes ++ [⟨value, link, []⟩]) parent [b.nodes.length]
  pending := match link with
    | none => b.pending
    | some _ => b.nodes.length :: b.pending

namespace Rules

/-- Attach the symbols of a row to a node, handing out links to the nonterminals. -/
def attachAll (rules : Rules) (parent : Nat) : List String → List Link → Building → Building
  | [], _, b => b
  | symbol :: rest, links, b =>
    if rules.defines symbol then
      match links with
      | [] => rules.attachAll parent rest [] (b.attach parent symbol none)
      | l :: links => rules.attachAll parent rest links (b.attach parent symbol (some l))
    else rules.attachAll parent rest links (b.attach parent symbol none)

/-- Attach to a node what stands below it by its item: the symbols of the rule, or the one leaf of
an empty rule. -/
def attachItem (rules : Rules) (id : Nat) (x : Item) (b : Building) : Building :=
  if x.rule.isEmpty then b.attach id "" none
  else rules.attachAll id x.rule.rhs x.provenance b

/-- Expand the node put aside last; without one the loop ends. -/
def expand? (rules : Rules) (c : Chart) (b : Building) : Option Building :=
  match b.pending with
  | [] => none
  | id :: pending =>
    b.nodes[id]?.map fun row =>
      match row.link.bind c.item? with
      | none => ⟨b.nodes, pending⟩
      | some x => rules.attachItem id x ⟨b.nodes, pending⟩

/-- The turn of a node that carries an item. -/
theorem expand?_of_item? {rules : Rules} {c : Chart} {nodes : List Forest.Row} {id : Nat}
    {pending : List Nat} {row : Forest.Row} {x : Item} (hrow : nodes[id]? = some row)
    (hx : row.link.bind c.item? = some x) :
    rules.expand? c ⟨nodes, id :: pending⟩ = some (rules.attachItem id x ⟨nodes, pending⟩) := by
  simp only [expand?, hrow, Option.map_some, hx]

end Rules

namespace Forest

variable {rules : Rules} {c : Chart} {value : String} {link : Link} {rule : Rule}
  {children rest f : Forest} {nodes : List Row} {id parent k : Nat} {pending : List Nat}

/-! ### What the loop makes of a row of trees -/

/-- The rows of the roots, before they get their children. -/
def heads : Forest → List Row
  | nil => []
  | leaf value rest => ⟨value, none, []⟩ :: rest.heads
  | node value link _ _ rest => ⟨value, some link, []⟩ :: rest.heads

/-- The numbers of the roots that carry links, put aside one after the other. -/
def opened : Forest → Nat → List Nat → List Nat
  | nil, _, pending => pending
  | leaf _ rest, id, pending => rest.opened (id + 1) pending
  | node _ _ _ _ rest, id, pending => rest.opened (id + 1) (id :: pending)

/-- The rows after the trees of a row are done, given the number of the first root: a node gets its
children when everything to its right is done, and these are done next. -/
def filled : Forest → List Row → Nat → List Row
  | nil, nodes, _ => nodes
  | leaf _ rest, nodes, id => rest.filled nodes (id + 1)
  | node _ _ _ children rest, nodes, id =>
    let later := rest.filled nodes (id + 1)
    children.filled (adopt later id (List.range' later.length children.width) ++ children.heads)
      later.length

@[simp] theorem length_heads (f : Forest) : f.heads.length = f.width := by
  induction f with
  | nil => rfl
  | leaf value rest ih => exact congrArg (· + 1) ih
  | node value link rule children rest _ ih => exact congrArg (· + 1) ih

@[simp] theorem length_filled (f : Forest) (nodes : List Row) (id : Nat) :
    (f.filled nodes id).length = nodes.length + f.descendants := by
  induction f generalizing nodes id with
  | nil => rfl
  | leaf value rest ih => exact ih nodes (id + 1)
  | node value link rule children rest ihc ih =>
    rw [filled, ihc, List.length_append, length_adopt, length_heads, ih, descendants]
    omega

/-- Only the rows of the roots change; those of the nodes below are new. -/
theorem getElem?_filled (hk : k < nodes.length) (hroot : k < id ∨ id + f.width ≤ k) :
    (f.filled nodes id)[k]? = nodes[k]? := by
  induction f generalizing nodes id with
  | nil => rfl
  | leaf value rest ih =>
    rw [width] at hroot
    exact ih hk (by omega)
  | node value link rule children rest ihc ih =>
    rw [width] at hroot
    have hlater : k < (rest.filled nodes (id + 1)).length := by
      rw [length_filled]
      omega
    rw [filled, ihc (by rw [List.length_append, length_adopt]; omega) (Or.inl hlater),
      List.getElem?_append_left (by rwa [length_adopt]), getElem?_adopt_of_ne (by omega)]
    exact ih hk (by omega)

/-- The rows of the roots stand at the numbers from one number on, still without children. -/
def Rooted (nodes : List Row) : Forest → Nat → Prop
  | nil, _ => True
  | leaf value rest, id => nodes[id]? = some ⟨value, none, []⟩ ∧ rest.Rooted nodes (id + 1)
  | node value link _ _ rest, id =>
    nodes[id]? = some ⟨value, some link, []⟩ ∧ rest.Rooted nodes (id + 1)

theorem rooted_append (f : Forest) (nodes : List Row) :
    f.Rooted (nodes ++ f.heads) nodes.length := by
  induction f generalizing nodes with
  | nil => trivial
  | leaf value rest ih =>
    have hrest := ih (nodes ++ [⟨value, none, []⟩])
    rw [List.append_assoc, List.length_append] at hrest
    exact ⟨by simp [heads], hrest⟩
  | node value link rule children rest _ ih =>
    have hrest := ih (nodes ++ [⟨value, some link, []⟩])
    rw [List.append_assoc, List.length_append] at hrest
    exact ⟨by simp [heads], hrest⟩

/-- When the turn of a node comes, its row is as it was. -/
theorem getElem?_filled_succ {row : Row} (h : nodes[id]? = some row) :
    (rest.filled nodes (id + 1))[id]? = some row := by
  obtain ⟨hlt, -⟩ := List.getElem?_eq_some_iff.mp h
  rw [getElem?_filled hlt (Or.inl (Nat.lt_succ_self id)), h]

/-- **The loop numbers the nodes as the table does.** -/
theorem storedIn_filled (h : f.Rooted nodes id) (hid : id + f.width ≤ nodes.length) :
    f.StoredIn (f.filled nodes id) id nodes.length := by
  induction f generalizing nodes id with
  | nil =>
    intro _ hentry
    exact absurd hentry List.not_mem_nil
  | leaf value rest ih =>
    rw [width] at hid
    exact storedIn_leaf.mpr ⟨getElem?_filled_succ h.1, ih h.2 (by omega)⟩
  | node value link rule children rest ihc ih =>
    rw [width] at hid
    have hlength := length_filled rest nodes (id + 1)
    rw [filled]
    generalize hlater : rest.filled nodes (id + 1) = later at hlength ⊢
    generalize hopened : adopt later id (List.range' later.length children.width) = adopted
    have hadopted : adopted.length = later.length := hopened ▸ length_adopt
    -- the rows before those of the children stay as they are
    have hkept : ∀ j < later.length,
        (children.filled (adopted ++ children.heads) later.length)[j]? = adopted[j]? := by
      intro j hj
      rw [getElem?_filled (by rw [List.length_append]; omega) (Or.inl hj),
        List.getElem?_append_left (by omega)]
    refine storedIn_node.mpr ⟨?_, ?_, ?_⟩
    · rw [hkept id (by omega), ← hopened, ← hlength,
        getElem?_adopt_self (hlater ▸ getElem?_filled_succ h.1)]
      rfl
    · have hrooted := rooted_append children adopted
      rw [hadopted] at hrooted
      have hchildren := ihc hrooted (by simp [hadopted])
      rw [List.length_append, length_heads, hadopted] at hchildren
      rwa [hlength] at hchildren ⊢
    · intro entry hentry
      have hbounds := (numbers_perm rest (id + 1) nodes.length).subset
        (List.mem_map_of_mem hentry)
      rw [List.mem_append, List.mem_range'_1, List.mem_range'_1] at hbounds
      rw [hkept entry.1 (by omega), ← hopened, getElem?_adopt_of_ne (by omega), ← hlater]
      exact ih h.2 (by omega) entry hentry

theorem storedIn_filled_heads (f : Forest) : f.StoredIn (f.filled f.heads 0) 0 f.width := by
  have hrooted : f.Rooted f.heads 0 := rooted_append f []
  have hstored := storedIn_filled hrooted (by simp)
  rwa [length_heads] at hstored

/-- The rows that the loop ends with are the table. -/
theorem table_eq_filled (f : Forest) : f.table = f.filled f.heads 0 :=
  f.storedIn_filled_heads.table_eq (by simp)

theorem storedIn_table (f : Forest) : f.StoredIn f.table 0 f.width :=
  f.table_eq_filled ▸ f.storedIn_filled_heads

/-! ### The turns of the loop -/

theorem attachAll_leaf (h : rules.defines value = true → rest.links = []) (b : Building) :
    rules.attachAll parent (value :: rest.values) rest.links b =
      rules.attachAll parent rest.values rest.links (b.attach parent value none) := by
  rw [Rules.attachAll.eq_def]
  by_cases hdefines : rules.defines value = true
  · simp only [h hdefines, hdefines, if_true]
  · simp only [if_neg hdefines]

theorem attachAll_node (h : rules.defines value = true) (b : Building) :
    rules.attachAll parent (value :: rest.values) (link :: rest.links) b =
      rules.attachAll parent rest.values rest.links (b.attach parent value (some link)) := by
  rw [Rules.attachAll.eq_def]
  simp only [h, if_true]

/-- Attaching the symbols of a row that is grown from the chart adds the rows of its roots. -/
theorem attachAll_eq (hf : f.Grown rules c) (hparent : parent < nodes.length) :
    rules.attachAll parent f.values f.links ⟨nodes, pending⟩ =
      ⟨adopt nodes parent (List.range' nodes.length f.width) ++ f.heads,
        f.opened nodes.length pending⟩ := by
  induction f generalizing nodes pending with
  | nil =>
    rw [width, List.range'_zero, adopt_nil, heads, List.append_nil]
    rfl
  | leaf value rest ih =>
    rw [values, links, attachAll_leaf hf.1, Building.attach, adopt_append hparent,
      ih hf.2 (by simpa using Nat.lt_succ_of_lt hparent), adopt_append (by simpa using hparent)]
    simp [opened, heads, width, List.range'_succ]
  | node value link rule children rest _ ih =>
    rw [values, links, attachAll_node hf.1, Building.attach, adopt_append hparent,
      ih hf.2.2.2 (by simpa using Nat.lt_succ_of_lt hparent),
      adopt_append (by simpa using hparent)]
    simp [opened, heads, width, List.range'_succ]

/-- What stands below a node is grown from the chart, also below one with an empty rule. -/
theorem Grown.of_node (h : (node value link rule children rest).Grown rules c) :
    children.Grown rules c := by
  obtain ⟨-, -, hbelow, -⟩ := h
  split at hbelow
  · exact hbelow ▸ ⟨fun _ => rfl, trivial⟩
  · exact hbelow.2

/-- The turn of a node attaches the rows of its children. -/
theorem Grown.expand?_eq (h : (node value link rule children rest).Grown rules c)
    (hrow : nodes[id]? = some ⟨value, some link, []⟩) :
    rules.expand? c ⟨nodes, id :: pending⟩ =
      some ⟨adopt nodes id (List.range' nodes.length children.width) ++ children.heads,
        children.opened nodes.length pending⟩ := by
  obtain ⟨hid, -⟩ := List.getElem?_eq_some_iff.mp hrow
  have hchildren := h.of_node
  obtain ⟨-, ⟨x, hx, -, rfl, hlinks⟩, hbelow, -⟩ := h
  rw [Rules.expand?_of_item? hrow hx, Rules.attachItem]
  split
  · next hempty =>
    rw [if_pos hempty] at hbelow
    rw [hbelow, Building.attach, adopt_append hid]
    rfl
  · next hempty =>
    rw [if_neg hempty] at hbelow
    rw [← hbelow.1, ← hlinks, attachAll_eq hchildren hid]

/-- The turns that are spent on a row of trees, one for each inner node. -/
theorem Grown.runs_expand (hf : f.Grown rules c) (hroot : f.Rooted nodes id) :
    Runs (rules.expand? c) f.rules.length ⟨nodes, f.opened id pending⟩
      ⟨f.filled nodes id, pending⟩ := by
  induction f generalizing nodes id pending with
  | nil => exact .done _
  | leaf value rest ih => exact ih hf.2 hroot.2
  | node value link rule children rest ihc ih =>
    have hright : Runs (rules.expand? c) rest.rules.length
        ⟨nodes, rest.opened (id + 1) (id :: pending)⟩
        ⟨rest.filled nodes (id + 1), id :: pending⟩ := ih hf.2.2.2 hroot.2
    have hrooted := rooted_append children
      (adopt (rest.filled nodes (id + 1)) id
        (List.range' (rest.filled nodes (id + 1)).length children.width))
    rw [length_adopt] at hrooted
    have hdown : Runs (rules.expand? c) (children.rules.length + 1)
        ⟨rest.filled nodes (id + 1), id :: pending⟩
        ⟨(node value link rule children rest).filled nodes id, pending⟩ :=
      .step (hf.expand?_eq (getElem?_filled_succ hroot.1)) (ihc hf.of_node hrooted)
    have hcount : (node value link rule children rest).rules.length =
        rest.rules.length + (children.rules.length + 1) := by
      rw [Forest.rules, List.length_cons, List.length_append]
      omega
    rw [hcount]
    exact hright.trans hdown

/-- **The loop ends with the table**, after as many turns as there are inner nodes. -/
theorem Grown.ends_expand (hf : f.Grown rules c) :
    Ends (rules.expand? c) f.rules.length ⟨f.heads, f.opened 0 []⟩ ⟨f.table, []⟩ :=
  ⟨table_eq_filled f ▸ hf.runs_expand (rooted_append f []), rfl⟩

end Forest

/-! ### The trees of completed items -/

/-- The loop begins with the row of a root that carries a link. -/
def Building.start (value : String) (l : Link) : Building := ⟨[⟨value, some l, []⟩], [0]⟩

namespace Rules

variable {rules : Rules} {retention : Retention} {start : String} {input : List String} {l : Link}
  {x : Item} {c : Chart}

theorem tree_eq_node (rules : Rules) (hx : c.item? l = some x) :
    ∃ depth, rules.tree c l = .node x.rule.lhs l x.rule (rules.children c depth x) .nil := by
  have hrank := Chart.rank_lt_size hx
  obtain ⟨depth, hdepth⟩ := Nat.exists_eq_add_one.mpr (Nat.zero_lt_of_lt hrank)
  have hroot : rootSymbol c l = x.rule.lhs := by rw [rootSymbol, hx]
  exact ⟨depth, by rw [tree, hdepth, unfold_succ hx, hroot]⟩

/-- The tree of a completed item of a filled chart is grown from it. -/
theorem grown_tree (hx : (rules.chart rules.nullable retention start input).item? l = some x)
    (hcomplete : x.isComplete = true) :
    (rules.tree (rules.chart rules.nullable retention start input) l).Grown rules
      (rules.chart rules.nullable retention start input) := by
  have hroot : rootSymbol (rules.chart rules.nullable retention start input) l = x.rule.lhs := by
    rw [rootSymbol, hx]
  refine (grown_unfold (wellLinked_chart rules retention start input) _ l .nil
    ⟨Chart.rank_lt_size hx, x, hx, Item.isComplete_iff.mp hcomplete⟩ ?_ trivial).1
  exact hroot ▸ defines_iff.mpr ⟨x.rule, (made_of_item? hx).rule_mem, rfl⟩

/-- **Building ends** on every completed item of a filled chart, with the table of its tree. -/
theorem ends_build (hx : (rules.chart rules.nullable retention start input).item? l = some x)
    (hcomplete : x.isComplete = true) :
    Ends (rules.expand? (rules.chart rules.nullable retention start input))
      (rules.tree (rules.chart rules.nullable retention start input) l).rules.length
      (.start x.rule.lhs l)
      ⟨(rules.tree (rules.chart rules.nullable retention start input) l).table, []⟩ := by
  have hends := (grown_tree hx hcomplete).ends_expand
  obtain ⟨depth, hnode⟩ := tree_eq_node rules hx
  have hheads : (rules.tree (rules.chart rules.nullable retention start input) l).heads =
      [⟨x.rule.lhs, some l, []⟩] := by rw [hnode]; rfl
  have hopened : (rules.tree (rules.chart rules.nullable retention start input) l).opened 0 [] =
      [0] := by rw [hnode]; rfl
  rwa [hheads, hopened] at hends

end Rules

end ContextFree

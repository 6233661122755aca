import ContextFree.Outcome
import ContextFree.Proofs.Building
import ContextFree.Proofs.Erasers
import ContextFree.Proofs.Rewriting

/-!
# Replaying the table of a tree

A tree is replayed from its table in two loops. The first walks over the rows from the root on and
applies the rule of every row that carries an item, keeping the nodes to visit next in front and
passing over a node that it has visited before. In the table of a tree every node is a child once,
so no node is passed over, and the nodes are visited in the order in which they are listed.

The second loop erases, for as long as the form has a symbol with an eraser, the first one by its
eraser. A step may make the form longer. But the erasures of a form are a list of rules, and a step
takes the first of them off: what the right side of an eraser needs to be erased is part of what the
symbol needed, since erasers lead to older entries of the record.

## Main definitions

* `ContextFree.Play` - a form and the steps that led to it.
* `ContextFree.Walk`, `ContextFree.Walk.visit?` - the walk over the rows.
* `ContextFree.Play.erase?` - the loop that erases.

## Main results

* `ContextFree.Forest.Grown.runs_visit` - the walk visits the nodes as they are listed.
* `ContextFree.Play.ends_erase` - erasing ends, after as many steps as there are erasures.
* `ContextFree.Rules.build_and_replay_end` - building and replaying end on every completed item.
-/

namespace ContextFree

/-! ### Forms with their steps -/

/-- A form and the steps that led to it. -/
structure Play where
  /-- The form. -/
  form : Form
  /-- The steps so far, as they are shown. -/
  steps : List Step

namespace Play

/-- Apply a rule and show the step. -/
def apply (p : Play) (r : Rule) : Play :=
  ⟨p.form.apply r, p.steps ++ [⟨r.text, (p.form.apply r).text⟩]⟩

/-- Apply rules one after the other. -/
def applyAll (p : Play) (rules : List Rule) : Play := rules.foldl apply p

theorem applyAll_eq (p : Play) (rules : List Rule) :
    p.applyAll rules = ⟨p.form.applyAll rules, p.steps ++ Replay.stepsFrom p.form rules⟩ := by
  induction rules generalizing p with
  | nil => exact congrArg (Play.mk p.form) (List.append_nil p.steps).symm
  | cons r rest ih =>
    refine (ih (p.apply r)).trans ?_
    rw [apply, List.append_assoc]
    rfl

theorem applyAll_append (p : Play) (a b : List Rule) :
    p.applyAll (a ++ b) = (p.applyAll a).applyAll b :=
  List.foldl_append

/-- A replay begins with its root symbol. -/
def start (root : String) : Play := ⟨[root], [⟨"Start → " ++ root, root⟩]⟩

theorem applyAll_start (r : Replay) :
    (start r.root).applyAll r.rules = ⟨r.form, r.derivation.steps⟩ :=
  applyAll_eq _ _

end Play

/-! ### The walk -/

/-- What the walk over a table has come to. -/
structure Walk where
  /-- The form and the steps so far. -/
  play : Play
  /-- The nodes visited before. -/
  visited : List Nat
  /-- The nodes to visit, the next one first. -/
  pending : List Nat

namespace Walk

/-- Apply the rule of the item that a row carries, if it carries one. -/
def enter (c : Chart) (row : Forest.Row) (p : Play) : Play :=
  match row.link.bind c.item? with
  | none => p
  | some x => p.apply x.rule

/-- Visit the next node, unless it was visited before; without one the walk ends. -/
def visit? (c : Chart) (nodes : List Forest.Row) (w : Walk) : Option Walk :=
  match w.pending with
  | [] => none
  | id :: pending =>
    if id ∈ w.visited then some { w with pending }
    else nodes[id]?.map fun row => ⟨enter c row w.play, id :: w.visited, row.children ++ pending⟩

theorem visit?_of_not_mem {c : Chart} {nodes : List Forest.Row} {row : Forest.Row} {p : Play}
    {visited pending : List Nat} {id : Nat} (hnew : id ∉ visited) (hrow : nodes[id]? = some row) :
    visit? c nodes ⟨p, visited, id :: pending⟩ =
      some ⟨enter c row p, id :: visited, row.children ++ pending⟩ := by
  simp only [visit?, if_neg hnew, hrow, Option.map_some]

end Walk

namespace Forest

variable {rules : Rules} {c : Chart} {f : Forest} {nodes : List Row} {id next : Nat} {p : Play}
  {visited pending : List Nat}

/-- **The walk visits the nodes as they are listed**, each once, and applies their rules. -/
theorem Grown.runs_visit (hf : f.Grown rules c) (hstored : f.StoredIn nodes id next)
    (hnodup : ((f.numbers id next).reverse ++ visited).Nodup) :
    Runs (Walk.visit? c nodes) (f.numbers id next).length
      ⟨p, visited, List.range' id f.width ++ pending⟩
      ⟨p.applyAll f.rules, (f.numbers id next).reverse ++ visited, pending⟩ := by
  induction f generalizing id next p visited pending with
  | nil => exact .done _
  | leaf value rest ih =>
    obtain ⟨hrow, hrest⟩ := storedIn_leaf.mp hstored
    rw [numbers_leaf, List.reverse_cons, List.append_assoc, List.singleton_append] at hnodup ⊢
    rw [width, List.range'_succ]
    have hnew : id ∉ visited := (List.nodup_cons.mp (List.nodup_append.mp hnodup).2.1).1
    exact .step (Walk.visit?_of_not_mem hnew hrow) (ih hf.2 hrest hnodup)
  | node value link rule children rest ihc ih =>
    obtain ⟨hrow, hchildren, hrest⟩ := storedIn_node.mp hstored
    obtain ⟨x, hx, -, hrule, -⟩ := hf.2.1
    have henter : Walk.enter c
        ⟨value, some link, List.range' (next + rest.descendants) children.width⟩ p =
          p.apply rule := by
      simp only [Walk.enter, Option.bind_some, hx, hrule]
    rw [numbers_node, List.reverse_cons, List.reverse_append, List.append_assoc,
      List.append_assoc, List.singleton_append] at hnodup ⊢
    rw [width, List.range'_succ]
    have hleft := (List.nodup_append.mp hnodup).2.1
    have hnew : id ∉ visited := (List.nodup_cons.mp (List.nodup_append.mp hleft).2.1).1
    rw [List.length_cons, List.length_append, Forest.rules]
    refine .step (Walk.visit?_of_not_mem hnew hrow) ?_
    rw [henter]
    exact Play.applyAll_append (p.apply rule) _ _ ▸
      (ihc hf.of_node hchildren hleft).trans (ih hf.2.2.2 hrest hnodup)

/-- The walk over the table of a tree ends. -/
theorem Grown.ends_visit (hf : f.Grown rules c) :
    Ends (Walk.visit? c f.table) f.table.length ⟨p, [], List.range' 0 f.width⟩
      ⟨p.applyAll f.rules, (f.numbers 0 f.width).reverse, []⟩ := by
  have hnodup : ((f.numbers 0 f.width).reverse ++ []).Nodup := by
    rw [List.append_nil]
    exact (List.reverse_perm _).nodup_iff.mpr (nodup_numbers (by omega))
  have hruns : Runs (Walk.visit? c f.table) (f.numbers 0 f.width).length
      ⟨p, [], List.range' 0 f.width ++ []⟩
      ⟨p.applyAll f.rules, (f.numbers 0 f.width).reverse ++ [], []⟩ :=
    hf.runs_visit f.storedIn_table hnodup
  rw [List.append_nil, List.append_nil, length_numbers, ← length_table] at hruns
  exact ⟨hruns, rfl⟩

end Forest

/-! ### Erasing -/

namespace Nullable

variable {rules record : Rules} {symbol : String} {r : Rule} {n : Nullable}

/-- Newer entries do not take part in the erasure of a symbol that has an older one. -/
theorem Grounded.erasureIn_cons {e : Rule} {older : Rules} (h : Grounded rules (e :: older))
    (hsymbol : Rules.defines older symbol = true) :
    erasureIn (e :: older) symbol = erasureIn older symbol := by
  rw [erasureIn, if_neg (h.lhs_ne hsymbol)]

/-- The erasure of a symbol is its eraser and the erasures of what that leads to. -/
theorem Grounded.erasureIn_eq (h : Grounded rules record)
    (hfind : record.find? (fun e => e.lhs == symbol) = some r) :
    erasureIn record symbol = r :: r.rhs.flatMap (erasureIn record) := by
  induction record with
  | nil => exact absurd hfind (Option.not_mem_none r)
  | cons e older ih =>
    rw [List.find?_cons] at hfind
    by_cases heq : e.lhs = symbol
    · simp only [heq, beq_self_eq_true, Option.some.injEq] at hfind
      subst hfind
      rw [erasureIn, if_pos heq]
      exact congrArg (e :: ·) (List.flatMap_congr fun s hs =>
        (h.erasureIn_cons (h.1.2.2 s hs)).symm)
    · simp only [beq_eq_false_iff_ne.mpr heq] at hfind
      rw [erasureIn, if_neg heq, ih h.2 hfind]
      exact congrArg (r :: ·) (List.flatMap_congr fun s hs =>
        (h.erasureIn_cons (h.2.place_lt hfind s hs).1).symm)

/-- Either a form has no symbol with an eraser and no erasures, or the step at the first one is the
first of its erasures and leaves the others. -/
theorem Grounded.erasures (h : Grounded rules n.erasers) (form : Form) :
    (form.findSome? n.eraser? = none ∧ form.flatMap n.erasure = []) ∨
      ∃ r, form.findSome? n.eraser? = some r ∧
        form.flatMap n.erasure = r :: (form.apply r).flatMap n.erasure := by
  induction form with
  | nil => exact Or.inl ⟨rfl, rfl⟩
  | cons symbol rest ih =>
    rw [List.findSome?_cons, List.flatMap_cons]
    cases hsymbol : n.eraser? symbol with
    | some r =>
      have hlhs : r.lhs = symbol := by simpa using List.find?_some hsymbol
      refine Or.inr ⟨r, rfl, ?_⟩
      rw [Form.apply, if_pos hlhs.symm, List.flatMap_append, erasure, h.erasureIn_eq hsymbol]
      rfl
    | none =>
      have hnot : n.contains symbol = false := by
        rw [← Bool.not_eq_true, contains_iff_isSome_eraser?, hsymbol]
        exact Bool.false_ne_true
      rw [erasure, erasureIn_eq_nil hnot, List.nil_append]
      rcases ih with hnone | ⟨r, hr, hrest⟩
      · exact Or.inl hnone
      -- the eraser that is found erases a later symbol
      have hne : symbol ≠ r.lhs := by
        rintro rfl
        obtain ⟨s, -, hs⟩ := List.exists_of_findSome?_eq_some hr
        have hlhs : r.lhs = s := by simpa using List.find?_some hs
        rw [hlhs, hs] at hsymbol
        exact absurd hsymbol (Option.some_ne_none r)
      refine Or.inr ⟨r, hr, ?_⟩
      rw [Form.apply, if_neg hne, List.flatMap_cons, erasure, erasureIn_eq_nil hnot, hrest]
      rfl

end Nullable

namespace Play

/-- Erase the first symbol that has an eraser; without one the loop ends. -/
def erase? (n : Nullable) (p : Play) : Option Play := (p.form.findSome? n.eraser?).map p.apply

/-- **Erasing ends**, after as many steps as there are erasures. -/
theorem ends_erase {rules : Rules} {n : Nullable} (h : Nullable.Grounded rules n.erasers)
    (p : Play) :
    Ends (erase? n) (p.form.flatMap n.erasure).length p
      (p.applyAll (p.form.flatMap n.erasure)) := by
  -- induction on the erasures that are left
  induction herasures : p.form.flatMap n.erasure generalizing p with
  | nil =>
    rcases h.erasures p.form with ⟨hnone, -⟩ | ⟨r, -, hcons⟩
    · exact .here (by rw [erase?, hnone]; rfl)
    · exact absurd (hcons.symm.trans herasures) (List.cons_ne_nil _ _)
  | cons r rest ih =>
    rcases h.erasures p.form with ⟨-, hnil⟩ | ⟨r', hr', hcons⟩
    · exact absurd (herasures.symm.trans hnil) (List.cons_ne_nil _ _)
    · obtain ⟨rfl, hrest⟩ := List.cons.inj (herasures.symm.trans hcons)
      exact .step (by rw [erase?, hr']; rfl) (ih (p.apply r) hrest.symm)

end Play

/-! ### Building and replaying -/

/-- Erasing ends with the replay of a tree when the walk has applied the rules of the tree. -/
theorem Forest.ends_erase_replay (tree : Forest) (rules : Rules) (root : String) :
    Ends (Play.erase? rules.nullable)
      ((Form.applyAll [root] tree.rules).flatMap rules.nullable.erasure).length
      ((Play.start root).applyAll tree.rules)
      ⟨(tree.replay rules.nullable root).form,
        (tree.replay rules.nullable root).derivation.steps⟩ := by
  have hends := Play.ends_erase (Nullable.grounded_nullable rules)
    ((Play.start root).applyAll tree.rules)
  have hform : ((Play.start root).applyAll tree.rules).form = Form.applyAll [root] tree.rules := by
    rw [Play.applyAll_eq, Play.start]
  rw [hform, ← Play.applyAll_append] at hends
  rw [← Play.applyAll_start]
  exact hends

/-- No nullable symbol is left in a replay. -/
theorem Forest.not_contains_of_mem_replay {tree : Forest} {rules : Rules} {root symbol : String}
    (h : symbol ∈ (tree.replay rules.nullable root).form) :
    rules.nullable.contains symbol = false := by
  rw [Forest.replay, Replay.form, Form.applyAll_append, Nullable.applyAll_erasures] at h
  simpa using (List.mem_filter.mp h).2

namespace Rules

/-- **Building and replaying end** on every completed item of a filled chart, whatever the rules,
the retention and the input. Building ends with the table of the tree of the item. The walk over the
table ends, and erasing ends with the replay of the tree, in a form without nullable symbols. -/
theorem build_and_replay_end (rules : Rules) (retention : Retention) (start : String)
    (input : List String) (l : Link) (x : Item)
    (hx : (rules.chart rules.nullable retention start input).item? l = some x)
    (hcomplete : x.isComplete = true) :
    let c := rules.chart rules.nullable retention start input
    let tree := rules.tree c l
    let replay := Rules.replay rules rules.nullable c l
    Ends (rules.expand? c) tree.rules.length (.start x.rule.lhs l) ⟨tree.table, []⟩ ∧
      (∃ walked visited count, tree.rules.length + count = replay.rules.length ∧
        Ends (Walk.visit? c tree.table) tree.table.length ⟨.start x.rule.lhs, [], [0]⟩
          ⟨walked, visited, []⟩ ∧
        Ends (Play.erase? rules.nullable) count walked ⟨replay.form, replay.derivation.steps⟩) ∧
      ∀ symbol ∈ replay.form, rules.nullable.contains symbol = false := by
  intro c tree replay
  have hroot : rootSymbol c l = x.rule.lhs := by rw [rootSymbol, hx]
  have hgrown : tree.Grown rules c := grown_tree hx hcomplete
  have hwidth : List.range' 0 tree.width = [0] := by
    obtain ⟨depth, hnode⟩ := tree_eq_node rules hx
    change List.range' 0 (rules.tree c l).width = [0]
    rw [hnode]
    rfl
  refine ⟨ends_build hx hcomplete, ?_, fun symbol => Forest.not_contains_of_mem_replay⟩
  have hvisit := hgrown.ends_visit (p := .start (rootSymbol c l))
  rw [hwidth] at hvisit
  rw [← hroot]
  exact ⟨_, _, _, List.length_append.symm, hvisit, tree.ends_erase_replay rules (rootSymbol c l)⟩

/-- Rows of `a` behind symbols that derive nothing, or themselves. -/
def looping : Rules := [⟨"S", ["A", "S"]⟩, ⟨"S", ["a"]⟩, ⟨"A", ["A"]⟩, ⟨"A", []⟩]

/-- An item whose tree has a node for `A → A` in it, the symbol below that node being left open. -/
theorem looping_item_built :
    (looping.chart looping.nullable .strict "S" ["a"]).item? ⟨1, 3⟩ =
        some ⟨⟨"S", ["A", "S"]⟩, 2, 0, .complete, [⟨0, 5⟩, ⟨1, 0⟩]⟩ ∧
      Ends (looping.expand? (looping.chart looping.nullable .strict "S" ["a"])) 3
        (.start "S" ⟨1, 3⟩)
        ⟨[⟨"S", some ⟨1, 3⟩, [1, 2]⟩, ⟨"A", some ⟨0, 5⟩, [4]⟩, ⟨"S", some ⟨1, 0⟩, [3]⟩,
          ⟨"a", none, []⟩, ⟨"A", none, []⟩], []⟩ := by
  have hitem : (looping.chart looping.nullable .strict "S" ["a"]).item? ⟨1, 3⟩ =
      some ⟨⟨"S", ["A", "S"]⟩, 2, 0, .complete, [⟨0, 5⟩, ⟨1, 0⟩]⟩ := by
    decide +kernel
  have hrules : (looping.tree (looping.chart looping.nullable .strict "S" ["a"])
      ⟨1, 3⟩).rules.length = 3 := by
    decide +kernel
  have htable : (looping.tree (looping.chart looping.nullable .strict "S" ["a"]) ⟨1, 3⟩).table =
      [⟨"S", some ⟨1, 3⟩, [1, 2]⟩, ⟨"A", some ⟨0, 5⟩, [4]⟩, ⟨"S", some ⟨1, 0⟩, [3]⟩,
        ⟨"a", none, []⟩, ⟨"A", none, []⟩] := by
    rw [Forest.table_eq_filled]
    decide +kernel
  have hends := (build_and_replay_end looping .strict "S" ["a"] ⟨1, 3⟩ _ hitem (by decide)).1
  rw [hrules, htable] at hends
  exact ⟨hitem, hends⟩

end Rules

end ContextFree

import ContextFree.Derives

/-!
# Sketches of parse trees

A row of symbols is parsed by a row of trees. A terminal is its own tree; a nonterminal has the tree
of one of its rules, which parses the right side. A nullable symbol may also be left open, so that
nothing is said about how it vanishes: a row of trees in which some symbols are left open is a
sketch, and a parse is a sketch without such gaps.

Nothing here mentions a chart. Sketches are the tree form of derivability: a form derives a row of
terminals exactly when some sketch with the form as its roots has the row as its yield.

## Main definitions

* `ContextFree.Sketch` - rows of trees with gaps.
* `ContextFree.Sketch.roots`, `ContextFree.Sketch.yield` - what a row parses, and what it spells.
* `ContextFree.Sketch.Valid` - every tree is the tree of a rule, every gap is nullable.
* `ContextFree.Rules.IsSketch`, `ContextFree.Rules.IsParse` - the sketches and the parses of an
  input.

## Main results

* `ContextFree.Sketch.Valid.derives` - the roots derive the yield.
* `ContextFree.Rules.Derives.exists_sketch` - whatever derives terminals has a sketch without gaps.
* `ContextFree.Rules.Derives.exists_split` - a derivation from two rows to terminals is cut in two.
-/

namespace ContextFree

/-! ### Rows of terminals -/

namespace Rules.IsTerminal

variable {rules : Rules} {a b : Form}

theorem nil (rules : Rules) : rules.IsTerminal [] := by
  intro symbol hsymbol
  exact absurd hsymbol List.not_mem_nil

theorem singleton {symbol : String} (h : rules.defines symbol = false) :
    rules.IsTerminal [symbol] := by
  intro symbol' hsymbol
  exact List.mem_singleton.mp hsymbol ▸ h

theorem append (ha : rules.IsTerminal a) (hb : rules.IsTerminal b) : rules.IsTerminal (a ++ b) := by
  intro symbol hsymbol
  rcases List.mem_append.mp hsymbol with hsymbol | hsymbol
  · exact ha symbol hsymbol
  · exact hb symbol hsymbol

theorem of_append_left (h : rules.IsTerminal (a ++ b)) : rules.IsTerminal a := by
  intro symbol hsymbol
  exact h symbol (List.mem_append_left b hsymbol)

theorem of_append_right (h : rules.IsTerminal (a ++ b)) : rules.IsTerminal b := by
  intro symbol hsymbol
  exact h symbol (List.mem_append_right a hsymbol)

/-- No rule replaces a symbol of the row. -/
theorem lhs_not_mem {r : Rule} (h : rules.IsTerminal a) (hr : r ∈ rules) : r.lhs ∉ a := by
  intro hmem
  have hdefines : rules.defines r.lhs = true := Rules.defines_iff.mpr ⟨r, hr, rfl⟩
  exact absurd ((h r.lhs hmem).symm.trans hdefines) Bool.false_ne_true

end Rules.IsTerminal

/-! ### Rows of trees -/

/-- A row of parse trees, in which nullable symbols may be left open. -/
inductive Sketch where
  /-- No tree. -/
  | nil
  /-- A terminal and the trees after it. -/
  | leaf (symbol : String) (rest : Sketch)
  /-- A symbol left open and the trees after it. -/
  | gap (symbol : String) (rest : Sketch)
  /-- The tree of a rule, given by the trees of its right side, and the trees after it. -/
  | node (rule : Rule) (children rest : Sketch)
deriving DecidableEq, Repr

namespace Sketch

/-- The symbols that the trees of a row stand for. -/
def roots : Sketch → Form
  | nil => []
  | leaf symbol rest => symbol :: rest.roots
  | gap symbol rest => symbol :: rest.roots
  | node rule _ rest => rule.lhs :: rest.roots

/-- The terminals of a row, left to right. -/
def yield : Sketch → List String
  | nil => []
  | leaf symbol rest => symbol :: rest.yield
  | gap _ rest => rest.yield
  | node _ children rest => children.yield ++ rest.yield

/-- The symbols that are left open, left to right. -/
def gaps : Sketch → List String
  | nil => []
  | leaf _ rest => rest.gaps
  | gap symbol rest => symbol :: rest.gaps
  | node _ children rest => children.gaps ++ rest.gaps

/-- The rules of the trees in preorder. -/
def preorder : Sketch → List Rule
  | nil => []
  | leaf _ rest => rest.preorder
  | gap _ rest => rest.preorder
  | node rule children rest => rule :: (children.preorder ++ rest.preorder)

/-- Two rows side by side. -/
def append : Sketch → Sketch → Sketch
  | nil, u => u
  | leaf symbol rest, u => leaf symbol (rest.append u)
  | gap symbol rest, u => gap symbol (rest.append u)
  | node rule children rest, u => node rule children (rest.append u)

/-- Leaves are terminals, gaps derive nothing, and the children of a node parse the right side of
its rule. -/
def Valid (rules : Rules) : Sketch → Prop
  | nil => True
  | leaf symbol rest => rules.defines symbol = false ∧ rest.Valid rules
  | gap symbol rest => rules.Derives [symbol] [] ∧ rest.Valid rules
  | node rule children rest =>
    rule ∈ rules ∧ children.roots = rule.rhs ∧ children.Valid rules ∧ rest.Valid rules

/-- Some tree of a row, or of a row below it, spells nothing. -/
def HasEmptyNode : Sketch → Prop
  | nil => False
  | leaf _ rest => rest.HasEmptyNode
  | gap _ rest => rest.HasEmptyNode
  | node _ children rest => children.yield = [] ∨ children.HasEmptyNode ∨ rest.HasEmptyNode

variable {rules : Rules} {t u : Sketch}

/-! ### Rows side by side -/

@[simp] theorem roots_append (t u : Sketch) : (t.append u).roots = t.roots ++ u.roots := by
  induction t with
  | nil => rfl
  | leaf symbol rest ih => simp [append, roots, ih]
  | gap symbol rest ih => simp [append, roots, ih]
  | node rule children rest _ ih => simp [append, roots, ih]

@[simp] theorem yield_append (t u : Sketch) : (t.append u).yield = t.yield ++ u.yield := by
  induction t with
  | nil => rfl
  | leaf symbol rest ih => simp [append, yield, ih]
  | gap symbol rest ih => simp [append, yield, ih]
  | node rule children rest _ ih => simp [append, yield, ih]

@[simp] theorem preorder_append (t u : Sketch) :
    (t.append u).preorder = t.preorder ++ u.preorder := by
  induction t with
  | nil => rfl
  | leaf symbol rest ih => simp [append, preorder, ih]
  | gap symbol rest ih => simp [append, preorder, ih]
  | node rule children rest _ ih => simp [append, preorder, ih]

@[simp] theorem gaps_append (t u : Sketch) : (t.append u).gaps = t.gaps ++ u.gaps := by
  induction t with
  | nil => rfl
  | leaf symbol rest ih => simp [append, gaps, ih]
  | gap symbol rest ih => simp [append, gaps, ih]
  | node rule children rest _ ih => simp [append, gaps, ih]

theorem Valid.append (ht : t.Valid rules) (hu : u.Valid rules) : (t.append u).Valid rules := by
  induction t with
  | nil => exact hu
  | leaf symbol rest ih => exact ⟨ht.1, ih ht.2⟩
  | gap symbol rest ih => exact ⟨ht.1, ih ht.2⟩
  | node rule children rest _ ih => exact ⟨ht.1, ht.2.1, ht.2.2.1, ih ht.2.2.2⟩

/-- A row over two rows of symbols is two rows side by side. -/
theorem exists_append {a b : Form} (ht : t.Valid rules) (hroots : t.roots = a ++ b) :
    ∃ u v : Sketch, t = u.append v ∧ u.Valid rules ∧ v.Valid rules ∧ u.roots = a ∧ v.roots = b := by
  induction a generalizing t with
  | nil => exact ⟨nil, t, rfl, trivial, ht, rfl, hroots⟩
  | cons symbol a ih =>
    cases t with
    | nil => simp [roots] at hroots
    | leaf symbol' rest =>
      obtain ⟨rfl, hrest⟩ := List.cons.inj hroots
      obtain ⟨u, v, rfl, hu, hv, rfl, hb⟩ := ih ht.2 hrest
      exact ⟨leaf symbol' u, v, rfl, ⟨ht.1, hu⟩, hv, rfl, hb⟩
    | gap symbol' rest =>
      obtain ⟨rfl, hrest⟩ := List.cons.inj hroots
      obtain ⟨u, v, rfl, hu, hv, rfl, hb⟩ := ih ht.2 hrest
      exact ⟨gap symbol' u, v, rfl, ⟨ht.1, hu⟩, hv, rfl, hb⟩
    | node rule children rest =>
      obtain ⟨rfl, hrest⟩ := List.cons.inj hroots
      obtain ⟨u, v, rfl, hu, hv, rfl, hb⟩ := ih ht.2.2.2 hrest
      exact ⟨node rule children u, v, rfl, ⟨ht.1, ht.2.1, ht.2.2.1, hu⟩, hv, rfl, hb⟩

/-! ### Rows without gaps -/

theorem eq_nil_of_roots (h : t.roots = []) : t = nil := by
  cases t with
  | nil => rfl
  | leaf symbol rest => exact absurd h (List.cons_ne_nil _ _)
  | gap symbol rest => exact absurd h (List.cons_ne_nil _ _)
  | node rule children rest => exact absurd h (List.cons_ne_nil _ _)

/-- Without gaps, the tree of a nonterminal is the tree of one of its rules. -/
theorem Valid.exists_node {symbol : String} {row : Form} (ht : t.Valid rules) (hgaps : t.gaps = [])
    (hroots : t.roots = symbol :: row) (hdefines : rules.defines symbol = true) :
    ∃ rule children rest, t = node rule children rest ∧ (rule ∈ rules ∧ rule.lhs = symbol) ∧
      (children.Valid rules ∧ children.roots = rule.rhs ∧ children.gaps = []) ∧
      rest.Valid rules ∧ rest.roots = row ∧ rest.gaps = [] := by
  cases t with
  | nil => exact absurd hroots.symm (List.cons_ne_nil _ _)
  | leaf symbol' rest =>
    obtain ⟨rfl, -⟩ := List.cons.inj hroots
    exact absurd (ht.1.symm.trans hdefines) Bool.false_ne_true
  | gap symbol' rest => exact absurd hgaps (List.cons_ne_nil _ _)
  | node rule children rest =>
    obtain ⟨hlhs, hrest⟩ := List.cons.inj hroots
    obtain ⟨hr, hchildren, hvalidc, hvalidr⟩ := ht
    obtain ⟨hgapsc, hgapsr⟩ := List.append_eq_nil_iff.mp hgaps
    exact ⟨rule, children, rest, rfl, ⟨hr, hlhs⟩, ⟨hvalidc, hchildren, hgapsc⟩,
      hvalidr, hrest, hgapsr⟩

/-! ### Sketches and derivability -/

/-- **A sketch is a derivation.** Its roots derive its yield. -/
theorem Valid.derives (ht : t.Valid rules) : rules.Derives t.roots t.yield := by
  induction t with
  | nil => exact .refl []
  | leaf symbol rest ih => exact (ih ht.2).append_left [symbol]
  | gap symbol rest ih => exact ht.1.append (ih ht.2)
  | node rule children rest ihc ih =>
    have hnode : rules.Derives [rule.lhs] children.yield :=
      (Rules.Derives.of_mem ht.1).trans (ht.2.1 ▸ ihc ht.2.2.1)
    exact hnode.append (ih ht.2.2.2)

theorem Valid.isTerminal_yield (ht : t.Valid rules) : rules.IsTerminal t.yield := by
  induction t with
  | nil => exact .nil rules
  | leaf symbol rest ih => exact (Rules.IsTerminal.singleton ht.1).append (ih ht.2)
  | gap symbol rest ih => exact ih ht.2
  | node rule children rest ihc ih => exact (ihc ht.2.2.1).append (ih ht.2.2.2)

/-- A row of terminals, each its own tree. -/
def leaves : List String → Sketch
  | [] => nil
  | symbol :: rest => leaf symbol (leaves rest)

theorem leaves_spec {w : List String} (hw : rules.IsTerminal w) :
    (leaves w).Valid rules ∧ (leaves w).roots = w ∧ (leaves w).yield = w ∧
      (leaves w).gaps = [] := by
  induction w with
  | nil => exact ⟨trivial, rfl, rfl, rfl⟩
  | cons symbol rest ih =>
    obtain ⟨hvalid, hroots, hyield, hgaps⟩ := ih fun a ha => hw a (List.mem_cons_of_mem _ ha)
    exact ⟨⟨hw symbol List.mem_cons_self, hvalid⟩, congrArg _ hroots, congrArg _ hyield, hgaps⟩

@[simp] theorem preorder_leaves (w : List String) : (leaves w).preorder = [] := by
  induction w with
  | nil => rfl
  | cons symbol rest ih => exact ih

/-- Without gaps, a row of terminals has no other trees than its leaves. -/
theorem Valid.eq_leaves (ht : t.Valid rules) (hgaps : t.gaps = [])
    (hroots : rules.IsTerminal t.roots) : t = leaves t.roots := by
  induction t with
  | nil => rfl
  | leaf symbol rest ih =>
    rw [roots, leaves, ← ih ht.2 hgaps fun a ha => hroots a (List.mem_cons_of_mem _ ha)]
  | gap symbol rest => exact absurd hgaps (List.cons_ne_nil _ _)
  | node rule children rest => exact absurd List.mem_cons_self (hroots.lhs_not_mem ht.1)

end Sketch

namespace Rules

variable {rules : Rules} {a b c : Form}

/-- Induction on a derivation from its first step on. -/
theorem Derives.head_induction {P : Form → Prop} (h : rules.Derives a c) (refl : P c)
    (head : ∀ (front back : Form) (r : Rule), r ∈ rules →
      rules.Derives (front ++ r.rhs ++ back) c → P (front ++ r.rhs ++ back) →
      P (front ++ r.lhs :: back)) : P a := by
  induction h with
  | refl => exact refl
  | @tail front back r _ hr ih =>
    refine ih (head front back r hr (.refl _) refl) fun front' back' r' hr' hd hP => ?_
    exact head front' back' r' hr' (hd.tail hr) hP

/-- **Every derivation of terminals has a parse.** -/
theorem Derives.exists_sketch (h : rules.Derives a c) (hc : rules.IsTerminal c) :
    ∃ t : Sketch, t.Valid rules ∧ t.roots = a ∧ t.yield = c ∧ t.gaps = [] := by
  refine h.head_induction
    (P := fun a => ∃ t : Sketch, t.Valid rules ∧ t.roots = a ∧ t.yield = c ∧ t.gaps = [])
    ⟨Sketch.leaves c, Sketch.leaves_spec hc⟩ fun front back r hr _ ih => ?_
  -- the trees over the right side become the children of one node
  obtain ⟨t, hvalid, hroots, rfl, hgaps⟩ := ih
  obtain ⟨u, back', rfl, hu, hback, hu_roots, rfl⟩ := Sketch.exists_append hvalid hroots
  obtain ⟨front', mid, rfl, hfront, hmid, rfl, hmid_roots⟩ := Sketch.exists_append hu hu_roots
  refine ⟨front'.append (.node r mid back'), hfront.append ⟨hr, hmid_roots, hmid, hback⟩,
    ?_, ?_, ?_⟩
  · simp [Sketch.roots]
  · simp [Sketch.yield]
  · simpa [Sketch.gaps] using hgaps

/-- A derivation of terminals from two rows side by side is one from each of them. -/
theorem Derives.exists_split (h : rules.Derives (a ++ b) c) (hc : rules.IsTerminal c) :
    ∃ c₁ c₂, c = c₁ ++ c₂ ∧ rules.Derives a c₁ ∧ rules.Derives b c₂ := by
  obtain ⟨t, hvalid, hroots, rfl, -⟩ := h.exists_sketch hc
  obtain ⟨u, v, rfl, hu, hv, rfl, rfl⟩ := Sketch.exists_append hvalid hroots
  exact ⟨u.yield, v.yield, Sketch.yield_append u v, hu.derives, hv.derives⟩

/-- A sketch of an input from a symbol. -/
structure IsSketch (rules : Rules) (symbol : String) (input : List String) (t : Sketch) : Prop where
  /-- Its trees are trees of the rules. -/
  valid : t.Valid rules
  /-- It stands for the symbol. -/
  roots : t.roots = [symbol]
  /-- It spells the input. -/
  yield : t.yield = input

/-- A parse tree of an input from a symbol: a sketch that leaves nothing open. -/
structure IsParse (rules : Rules) (symbol : String) (input : List String) (t : Sketch) : Prop
    extends IsSketch rules symbol input t where
  /-- No symbol is left open. -/
  gaps : t.gaps = []

theorem isSentence_iff_exists_isParse {symbol : String} {input : List String} :
    rules.IsSentence symbol input ↔ ∃ t, rules.IsParse symbol input t := by
  constructor
  · rintro ⟨hterminal, hderives⟩
    obtain ⟨t, hvalid, hroots, hyield, hgaps⟩ := hderives.exists_sketch hterminal
    exact ⟨t, ⟨⟨hvalid, hroots, hyield⟩, hgaps⟩⟩
  · rintro ⟨t, ⟨⟨hvalid, hroots, rfl⟩, -⟩⟩
    exact ⟨hvalid.isTerminal_yield, hroots ▸ hvalid.derives⟩

end Rules

end ContextFree

import ContextFree.Proofs.Nullable
import ContextFree.Proofs.Saturation

/-!
# Charts are exact

What an item of a chart says can be stated without a chart: the tokens up to its position are
terminals, the start symbol derives the tokens before its start followed by its left side, and the
symbols before its dot derive the tokens in between. A chart filled under the nullable symbols of
its rules has an item in a cell exactly when this is so, however many copies a cell keeps.

That items say nothing false is an induction on how they are made. That none is missing takes two
inductions. Once a rule is begun, a sketch of the symbols after its dot leads the dot over them: a
leaf is scanned, a gap is stepped over, and a node is predicted, followed to its end, and completed;
a node that spells nothing is stepped over instead, since it would be completed where it began. That
the rules are begun at all is an induction on the derivation from the start symbol.

A start symbol without rules begins nothing. As a terminal it derives itself in no step, so the row
of the start symbol alone is then a sentence, and the only one that no item spans.

## Main definitions

* `ContextFree.piece` - the tokens between two positions.
* `ContextFree.Rules.Recognizes` - what an item of a cell says about the input.

## Main results

* `ContextFree.Rules.Made.recognizes` - items say nothing false.
* `ContextFree.Rules.Recognizes.holds` - no item is missing.
* `ContextFree.Rules.chart_exact` - the items and the final items of a chart.
-/

namespace ContextFree

/-- The tokens of an input from one position to another. -/
def piece (input : List String) (i j : Nat) : List String := (input.take j).drop i

section

variable {input : List String} {i j k : Nat}

/-! ### Pieces of an input -/

@[simp] theorem piece_self (input : List String) (i : Nat) : piece input i i = [] :=
  List.drop_eq_nil_of_le (List.length_take_le i input)

@[simp] theorem piece_zero (input : List String) (j : Nat) : piece input 0 j = input.take j := rfl

theorem take_append_piece (h : i ≤ j) (input : List String) :
    input.take i ++ piece input i j = input.take j := by
  have htake : (input.take j).take i = input.take i := by rw [List.take_take, Nat.min_eq_left h]
  rw [piece, ← htake, List.take_append_drop]

theorem piece_append_piece (hij : i ≤ j) (hjk : j ≤ k) (input : List String) :
    piece input i j ++ piece input j k = piece input i k := by
  have hall : input.take i ++ (piece input i j ++ piece input j k) =
      input.take i ++ piece input i k := by
    rw [← List.append_assoc, take_append_piece hij, take_append_piece hjk,
      take_append_piece (by omega)]
  exact List.append_cancel_left hall

theorem take_succ_of_getElem? {token : String} (h : input[i]? = some token) :
    input.take (i + 1) = input.take i ++ [token] := by
  rw [List.take_add_one, h]
  rfl

theorem piece_succ_of_getElem? {token : String} (hij : i ≤ j) (h : input[j]? = some token) :
    piece input i (j + 1) = piece input i j ++ [token] := by
  have hj : j < input.length := (List.getElem?_eq_some_iff.mp h).1
  have hi : i ≤ (input.take j).length := by
    rw [List.length_take]
    omega
  rw [piece, take_succ_of_getElem? h, List.drop_append_of_le_length hi]
  rfl

theorem length_piece (hij : i ≤ j) (hj : j ≤ input.length) : i + (piece input i j).length = j := by
  rw [piece, List.length_drop, List.length_take]
  omega

/-- The rest of an input begins with what is read next. -/
theorem drop_eq_piece_append (hij : i ≤ j) (input : List String) :
    input.drop i = piece input i j ++ input.drop j := by
  have hall : input.take i ++ input.drop i = input.take i ++ (piece input i j ++ input.drop j) := by
    rw [← List.append_assoc, take_append_piece hij, List.take_append_drop, List.take_append_drop]
  exact List.append_cancel_left hall

/-- What is left of a row begins with the symbol at that place. -/
theorem drop_eq_cons_iff {row rest : List String} {symbol : String} :
    row.drop i = symbol :: rest ↔ row[i]? = some symbol ∧ row.drop (i + 1) = rest := by
  constructor
  · intro h
    have hget : (row.drop i)[0]? = row[i]? := List.getElem?_drop
    rw [← hget, ← List.drop_drop, h]
    exact ⟨rfl, rfl⟩
  · rintro ⟨h, rfl⟩
    obtain ⟨hi, rfl⟩ := List.getElem?_eq_some_iff.mp h
    exact List.drop_eq_getElem_cons hi

/-- What the children of a node spell is read before what the trees after it spell. -/
theorem drop_eq_node {row after : List String} {r : Rule} {t rest : Sketch}
    (h : row.drop i = (Sketch.node r t rest).yield ++ after) :
    row.drop i = t.yield ++ (rest.yield ++ after) ∧
      row.drop (i + t.yield.length) = rest.yield ++ after := by
  rw [Sketch.yield, List.append_assoc] at h
  exact ⟨h, by rw [← List.drop_drop, h, List.drop_left]⟩

end

theorem Item.spans_iff {x : Item} {symbol : String} :
    x.spans symbol = true ↔ x.rule.lhs = symbol ∧ x.start = 0 ∧ x.next? = none := by
  simp [Item.spans, Item.isComplete_iff, and_assoc]

namespace Rules

variable {rules : Rules} {retention : Retention} {start : String} {input : List String}

/-- What it means that an input, read up to a position, is recognized as far as a cell says. -/
structure Recognizes (rules : Rules) (start : String) (input : List String) (position : Nat)
    (cell : Cell) : Prop where
  /-- The rule is one of the list. -/
  rule_mem : cell.rule ∈ rules
  /-- The dot is in its right side. -/
  dot_le : cell.dot ≤ cell.rule.rhs.length
  /-- It began at or before the position. -/
  start_le : cell.start ≤ position
  /-- The position is one of the input. -/
  position_le : position ≤ input.length
  /-- The tokens up to the position are terminals. -/
  terminal : rules.IsTerminal (input.take position)
  /-- The start symbol leads to the left side, after the tokens before its start. -/
  reached : ∃ rest, rules.Derives [start] (input.take cell.start ++ cell.rule.lhs :: rest)
  /-- The symbols before the dot derive the tokens since the start. -/
  spans : rules.Derives (cell.rule.rhs.take cell.dot) (piece input cell.start position)

/-! ### Items say nothing false -/

namespace Recognizes

variable {position : Nat} {x : Item} {symbol : String}

/-- A completed item derives the tokens that it spans from its left side. -/
theorem derives_lhs (h : rules.Recognizes start input position x.cell) (hnone : x.next? = none) :
    rules.Derives [x.rule.lhs] (piece input x.start position) := by
  have hlength : x.rule.rhs.length ≤ x.dot := List.getElem?_eq_none_iff.mp hnone
  have hspans : rules.Derives (x.rule.rhs.take x.dot) (piece input x.start position) := h.spans
  rw [List.take_of_length_le hlength] at hspans
  exact (Derives.of_mem h.rule_mem).trans hspans

/-- The start symbol leads to the symbol that an item expects, after the tokens read so far. -/
theorem reaches_next (h : rules.Recognizes start input position x.cell)
    (hnext : x.next? = some symbol) :
    ∃ rest, rules.Derives [start] (input.take position ++ symbol :: rest) := by
  obtain ⟨rest, hreached⟩ := h.reached
  have hreached : rules.Derives [start] (input.take x.start ++ x.rule.lhs :: rest) := hreached
  have hspans : rules.Derives (x.rule.rhs.take x.dot) (piece input x.start position) := h.spans
  have hrhs : x.rule.rhs = x.rule.rhs.take x.dot ++ symbol :: x.rule.rhs.drop (x.dot + 1) := by
    rw [← drop_eq_cons_iff.mpr ⟨hnext, rfl⟩, List.take_append_drop]
  refine ⟨x.rule.rhs.drop (x.dot + 1) ++ rest, ?_⟩
  have hread : rules.Derives x.rule.rhs
      (piece input x.start position ++ symbol :: x.rule.rhs.drop (x.dot + 1)) := by
    conv_lhs => rw [hrhs]
    exact hspans.append_right _
  have hall := (hreached.tail h.rule_mem).trans
    ((hread.append_left (input.take x.start)).append_right rest)
  rw [← take_append_piece (show x.start ≤ position from h.start_le)]
  simpa only [List.append_assoc, List.cons_append] using hall

/-- The dot moves over a symbol that derives what is read next. -/
theorem advance {next : Nat} (h : rules.Recognizes start input position x.cell)
    (hnext : x.next? = some symbol) (hle : position ≤ next) (hinput : next ≤ input.length)
    (hterminal : rules.IsTerminal (input.take next))
    (hsymbol : rules.Derives [symbol] (piece input position next)) :
    rules.Recognizes start input next ⟨x.rule, x.dot + 1, x.start⟩ where
  rule_mem := h.rule_mem
  dot_le := Item.dot_lt_of_next? hnext
  start_le := by
    have hstart : x.start ≤ position := h.start_le
    show x.start ≤ next
    omega
  position_le := hinput
  terminal := hterminal
  reached := h.reached
  spans := by
    show rules.Derives (x.rule.rhs.take (x.dot + 1)) (piece input x.start next)
    have hstart : x.start ≤ position := h.start_le
    rw [Item.take_succ_of_next? hnext, ← piece_append_piece hstart hle]
    exact h.spans.append hsymbol

end Recognizes

/-- **Items say nothing false.** -/
theorem Made.recognizes {c : Chart} {l : Link} {x : Item}
    (h : rules.Made rules.nullable start input c l x) :
    rules.Recognizes start input l.position x.cell := by
  induction h with
  | @seeded _ r hr hlhs =>
    exact ⟨hr, Nat.zero_le _, Nat.le_refl 0, Nat.zero_le _, .nil rules, ⟨[], hlhs ▸ .refl _⟩,
      .refl []⟩
  | @predicted i _ _ x symbol r _ _ hnext hr hlhs ih =>
    refine ⟨hr, Nat.zero_le _, Nat.le_refl i, ih.position_le, ih.terminal, ?_, ?_⟩
    · exact hlhs ▸ ih.reaches_next hnext
    · show rules.Derives [] (piece input i i)
      rw [piece_self]
      exact .refl []
  | @skipped i _ _ _ symbol _ _ hnext hnullable ih =>
    refine ih.advance hnext (Nat.le_refl i) ih.position_le ih.terminal ?_
    rw [piece_self]
    exact Nullable.contains_nullable_iff.mp hnullable
  | @completed l i _ _ p x _ _ hwaits _ _ hnone hposition _ ihp ihx =>
    obtain ⟨o, m⟩ := l
    obtain rfl : o = x.start := hposition
    exact ihp.advance hwaits ihx.start_le ihx.position_le ihx.terminal (ihx.derives_lhs hnone)
  | @scanned i _ _ _ token _ hnext hread hterminal ih =>
    have hi : i < input.length := (List.getElem?_eq_some_iff.mp hread).1
    refine ih.advance hnext (Nat.le_succ i) hi ?_ ?_
    · rw [take_succ_of_getElem? hread]
      exact ih.terminal.append (.singleton hterminal)
    · rw [piece_succ_of_getElem? (Nat.le_refl i) hread, piece_self]
      exact .refl [token]

/-! ### No item is missing -/

section

variable {i : Nat} {r : Rule} {dot origin : Nat}

/-- A row of trees over the symbols after the dot leads the dot over them, as far as it spells what
is read next. -/
theorem holds_of_sketch {t : Sketch} {behind : Form} {after : List String}
    (h : (rules.chart rules.nullable retention start input).Holds i ⟨r, dot, origin⟩)
    (hvalid : t.Valid rules) (hroots : r.rhs.drop dot = t.roots ++ behind)
    (hread : input.drop i = t.yield ++ after) :
    (rules.chart rules.nullable retention start input).Holds (i + t.yield.length)
      ⟨r, dot + t.roots.length, origin⟩ := by
  induction t generalizing i r dot origin behind after with
  | nil => exact h
  | leaf symbol rest ih =>
    obtain ⟨hnext, hroots⟩ := drop_eq_cons_iff.mp hroots
    obtain ⟨htoken, hread⟩ := drop_eq_cons_iff.mp hread
    have hmoved := ih (holds_scanned h hnext htoken hvalid.1) hvalid.2 hroots hread
    rwa [Nat.add_right_comm, Nat.add_right_comm dot] at hmoved
  | gap symbol rest ih =>
    obtain ⟨hnext, hroots⟩ := drop_eq_cons_iff.mp hroots
    have hskipped := holds_skipped h hnext (Nullable.defines_of_derives_nil hvalid.1)
      (Nullable.contains_nullable_iff.mpr hvalid.1)
    have hmoved := ih hskipped hvalid.2 hroots hread
    rwa [Nat.add_right_comm dot] at hmoved
  | node rule children rest ihc ih =>
    obtain ⟨hr, hchildren, hvalidc, hvalidr⟩ := hvalid
    obtain ⟨hnext, hroots⟩ := drop_eq_cons_iff.mp hroots
    obtain ⟨hread, hdrop⟩ := drop_eq_node hread
    have hover : (rules.chart rules.nullable retention start input).Holds
        (i + children.yield.length) ⟨r, dot + 1, origin⟩ := by
      by_cases hempty : children.yield = []
      · -- completed where it began, the node would be too early for those that wait for it
        have hnil : rules.Derives [rule.lhs] [] := by
          have hderives := (Derives.of_mem hr).trans (hchildren ▸ hvalidc.derives)
          rwa [hempty] at hderives
        rw [hempty]
        exact holds_skipped h hnext (Nullable.defines_of_derives_nil hnil)
          (Nullable.contains_nullable_iff.mpr hnil)
      · have hbegun := holds_predicted h hnext hr rfl
        have hrow : rule.rhs.drop 0 = children.roots ++ [] := by simp [hchildren]
        have hended := ihc hbegun hvalidc hrow hread
        rw [Nat.zero_add, hchildren] at hended
        have hlength : 0 < children.yield.length := List.length_pos_of_ne_nil hempty
        exact holds_completed hended (by omega) h hnext
    have hmoved := ih hover hvalidr hroots hdrop
    simp only [Sketch.yield, Sketch.roots, List.length_append, List.length_cons]
    rwa [Nat.add_assoc, Nat.add_right_comm dot] at hmoved

/-- A row of symbols after the dot that derives what is read next has the dot moved over it. -/
theorem holds_of_derives {row behind : Form} {read after : List String}
    (h : (rules.chart rules.nullable retention start input).Holds i ⟨r, dot, origin⟩)
    (hrow : r.rhs.drop dot = row ++ behind) (hderives : rules.Derives row read)
    (hterminal : rules.IsTerminal read) (hread : input.drop i = read ++ after) :
    (rules.chart rules.nullable retention start input).Holds (i + read.length)
      ⟨r, dot + row.length, origin⟩ := by
  obtain ⟨t, hvalid, rfl, rfl, -⟩ := hderives.exists_sketch hterminal
  exact holds_of_sketch h hvalid hrow hread

end

/-- Nothing derives only nothing. -/
theorem Derives.eq_nil {a b : Form} (h : rules.Derives a b) (ha : a = []) : b = [] := by
  induction h with
  | refl => exact ha
  | tail _ _ ih => simp at ih

/-- A symbol of two rows side by side stands in the one or in the other. -/
theorem append_eq_append_cons {a b front back : Form} {symbol : String}
    (h : a ++ b = front ++ symbol :: back) :
    (∃ mid, a = front ++ symbol :: mid) ∨ ∃ mid, front = a ++ mid ∧ b = mid ++ symbol :: back := by
  rcases List.append_eq_append_iff.mp h with ⟨mid, hfront, hb⟩ | ⟨mid, ha, hback⟩
  · exact Or.inr ⟨mid, hfront, hb⟩
  · cases mid with
    | nil => exact Or.inr ⟨[], by simpa using ha.symm, hback.symm⟩
    | cons symbol' mid =>
      obtain ⟨rfl, -⟩ := List.cons.inj hback
      exact Or.inl ⟨mid, ha⟩

/-- What begins a part of an input is as much of the input, and what ends the part comes next. -/
theorem take_eq_append {i : Nat} {a b : List String} (h : input.take i = a ++ b)
    (hi : i ≤ input.length) :
    input.take a.length = a ∧ input.drop a.length = b ++ input.drop i ∧
      a.length + b.length = i := by
  have hinput : input = a ++ (b ++ input.drop i) := by
    rw [← List.append_assoc, ← h, List.take_append_drop]
  refine ⟨?_, ?_, ?_⟩
  · conv_lhs => rw [hinput, List.take_left]
  · conv_lhs => rw [hinput, List.drop_left]
  · rw [← List.length_append, ← h, List.length_take, Nat.min_eq_left hi]

/-- Whatever the start symbol leads to after the tokens read so far, its rules are begun there. -/
theorem holds_begun {form front back : Form} {symbol : String} {i : Nat} {r : Rule}
    (h : rules.Derives [start] form) (hform : form = front ++ symbol :: back)
    (hfront : rules.Derives front (input.take i)) (hi : i ≤ input.length)
    (hterminal : rules.IsTerminal (input.take i)) (hr : r ∈ rules) (hlhs : r.lhs = symbol) :
    (rules.chart rules.nullable retention start input).Holds i ⟨r, 0, i⟩ := by
  -- induction on the derivation: the symbol was there before the last step, or the step brought it
  induction h generalizing front symbol back i r with
  | refl =>
    obtain ⟨rfl, hsymbol⟩ : front = [] ∧ start = symbol := by
      cases front with
      | nil => exact ⟨rfl, (List.cons.inj hform).1⟩
      | cons _ rest => simp at hform
    have hzero : i = 0 := by
      have hnil : (input.take i).length = 0 := congrArg List.length (hfront.eq_nil rfl)
      rw [List.length_take] at hnil
      omega
    subst hzero
    exact holds_seeded hr (hlhs.trans hsymbol.symm)
  | @tail front' back' r' _ hr' ih =>
    rw [List.append_assoc] at hform
    rcases append_eq_append_cons hform with ⟨mid, rfl⟩ | ⟨mid, rfl, hrest⟩
    · exact ih (List.append_assoc _ _ _) hfront hi hterminal hr hlhs
    rcases append_eq_append_cons hrest with ⟨mid', hrhs⟩ | ⟨mid', rfl, rfl⟩
    · obtain ⟨read, last, hsplit, hread, hlast⟩ := hfront.exists_split hterminal
      obtain ⟨htake, hdrop, hlength⟩ := take_eq_append hsplit hi
      rw [hsplit] at hterminal
      have hbegun := ih rfl (htake.symm ▸ hread) (by omega) (htake.symm ▸ hterminal.of_append_left)
        hr' rfl
      have hmoved := holds_of_derives hbegun hrhs hlast hterminal.of_append_right hdrop
      rw [Nat.zero_add, hlength] at hmoved
      refine holds_predicted hmoved ?_ hr hlhs
      rw [hrhs, List.getElem?_append_right (Nat.le_refl _), Nat.sub_self]
      rfl
    · have hstep : rules.Derives (front' ++ r'.lhs :: mid') (front' ++ (r'.rhs ++ mid')) := by
        have hlast := (Derives.refl (front' ++ r'.lhs :: mid')).tail hr'
        rwa [List.append_assoc] at hlast
      have hform : front' ++ r'.lhs :: (mid' ++ symbol :: back) =
          (front' ++ r'.lhs :: mid') ++ symbol :: back := by
        rw [List.append_assoc, List.cons_append]
      exact ih hform (hstep.trans hfront) hi hterminal hr hlhs

/-- **No item is missing.** -/
theorem Recognizes.holds {position : Nat} {cell : Cell}
    (h : rules.Recognizes start input position cell) :
    (rules.chart rules.nullable retention start input).Holds position cell := by
  obtain ⟨rest, hreached⟩ := h.reached
  have hterminal : rules.IsTerminal (input.take cell.start ++ piece input cell.start position) := by
    rw [take_append_piece h.start_le]
    exact h.terminal
  have hstart : cell.start ≤ input.length := by
    have hstart_le := h.start_le
    have hposition_le := h.position_le
    omega
  have hbegun : (rules.chart rules.nullable retention start input).Holds cell.start
      ⟨cell.rule, 0, cell.start⟩ :=
    holds_begun hreached rfl (.refl _) hstart hterminal.of_append_left h.rule_mem rfl
  have hrow : cell.rule.rhs.drop 0 =
      cell.rule.rhs.take cell.dot ++ cell.rule.rhs.drop cell.dot := by
    rw [List.take_append_drop, List.drop_zero]
  have hmoved := holds_of_derives hbegun hrow h.spans hterminal.of_append_right
    (drop_eq_piece_append h.start_le input)
  rwa [length_piece h.start_le h.position_le, List.length_take, Nat.min_eq_left h.dot_le,
    Nat.zero_add] at hmoved

/-! ### The items of a chart -/

theorem holds_iff_recognizes {position : Nat} {cell : Cell} :
    (rules.chart rules.nullable retention start input).Holds position cell ↔
      rules.Recognizes start input position cell := by
  constructor
  · intro h
    obtain ⟨k, x, hx, rfl⟩ := Chart.holds_iff.mp h
    exact (made_of_item? hx).recognizes
  · exact Recognizes.holds

/-- A sentence of a symbol that has rules is derived from the right side of one of them. -/
theorem IsSentence.exists_rule (h : rules.IsSentence start input)
    (hstart : rules.defines start = true) :
    ∃ r ∈ rules, r.lhs = start ∧ rules.Derives r.rhs input := by
  obtain ⟨t, ⟨⟨hvalid, hroots, rfl⟩, hgaps⟩⟩ := isSentence_iff_exists_isParse.mp h
  obtain ⟨rule, children, rest, rfl, ⟨hr, hlhs⟩, ⟨hvalidc, hchildren, -⟩, -, hrest, -⟩ :=
    hvalid.exists_node hgaps hroots hstart
  obtain rfl := Sketch.eq_nil_of_roots hrest
  refine ⟨rule, hr, hlhs, ?_⟩
  rw [Sketch.yield, Sketch.yield, List.append_nil, ← hchildren]
  exact hvalidc.derives

/-- The last state has a completed item of the start symbol that spans the input exactly when the
start symbol has rules and the input is a sentence of it. -/
theorem exists_spans_iff :
    (∃ s, (rules.chart rules.nullable retention start input).state? input.length = some s ∧
      ∃ x ∈ s.items, x.spans start = true) ↔
      rules.defines start = true ∧ rules.IsSentence start input := by
  constructor
  · rintro ⟨s, hs, x, hx, hspans⟩
    obtain ⟨hlhs, hzero, hnone⟩ := Item.spans_iff.mp hspans
    have h := holds_iff_recognizes.mp ⟨s, hs, x, hx, rfl⟩
    have hderives := h.derives_lhs hnone
    rw [hlhs, hzero, piece_zero, List.take_length] at hderives
    have hterminal := h.terminal
    rw [List.take_length] at hterminal
    exact ⟨defines_iff.mpr ⟨x.rule, h.rule_mem, hlhs⟩, hterminal, hderives⟩
  · rintro ⟨hstart, h⟩
    obtain ⟨r, hr, hlhs, hderives⟩ := h.exists_rule hstart
    have hcell : rules.Recognizes start input input.length ⟨r, r.rhs.length, 0⟩ := by
      refine ⟨hr, Nat.le_refl _, Nat.zero_le _, Nat.le_refl _, ?_, ⟨[], hlhs ▸ .refl _⟩, ?_⟩
      · rw [List.take_length]
        exact h.terminal
      · rw [piece_zero, List.take_length, List.take_length]
        exact hderives
    have hholds : (rules.chart rules.nullable retention start input).Holds input.length
        ⟨r, r.rhs.length, 0⟩ := hcell.holds
    obtain ⟨s, hs, x, hx, hx_cell⟩ := hholds
    obtain ⟨rfl, hdot, hzero⟩ := Cell.mk.inj hx_cell
    have hnone : x.next? = none := Item.next?_eq_none hdot
    exact ⟨s, hs, x, hx, Item.spans_iff.mpr ⟨hlhs, hzero, hnone⟩⟩

/-- **Charts are exact.** A filled chart has an item in a cell at a position exactly when the input
is recognized so far, and a completed item of a start symbol with rules in its last state exactly
when the input is a sentence; the copies that a cell keeps make no difference. -/
theorem chart_exact (rules : Rules) (start : String) (input : List String) :
    (∀ (retention : Retention) (position : Nat) (cell : Cell),
      (rules.chart rules.nullable retention start input).Holds position cell ↔
        rules.Recognizes start input position cell) ∧
    (∀ (position : Nat) (cell : Cell),
      (rules.chart rules.nullable .strict start input).Holds position cell ↔
        (rules.chart rules.nullable .loose start input).Holds position cell) ∧
    (∀ retention : Retention,
      (∃ s, (rules.chart rules.nullable retention start input).state? input.length = some s ∧
        ∃ x ∈ s.items, x.spans start = true) ↔
        rules.defines start = true ∧ rules.IsSentence start input) := by
  refine ⟨fun _ _ _ => holds_iff_recognizes, fun _ _ => ?_, fun _ => exists_spans_iff⟩
  rw [holds_iff_recognizes, holds_iff_recognizes]

/-- A start symbol without rules is a sentence of itself, which no item spans. -/
theorem lone_start_not_spanned :
    Rules.IsSentence [] "a" ["a"] ∧
      ¬ ∃ s, (Rules.chart [] (Rules.nullable []) .strict "a" ["a"]).state? 1 = some s ∧
        ∃ x ∈ s.items, x.spans "a" = true := by
  refine ⟨⟨fun _ _ => rfl, .refl _⟩, ?_⟩
  rintro ⟨s, hs, -⟩
  have hnone : (Rules.chart [] (Rules.nullable []) .strict "a" ["a"]).state? 1 = none := rfl
  exact absurd (hnone.symm.trans hs) (Option.some_ne_none s).symm

end Rules

end ContextFree

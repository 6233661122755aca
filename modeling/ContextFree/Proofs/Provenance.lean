import ContextFree.Proofs.Unfolding
import Mathlib.Order.WellFounded

/-!
# What the links of an item account for

The links of an item say where the nonterminals before its dot were found, but not which link
belongs to which of them: a symbol that was stepped over has none. They can still be read back. From
the start of the item on, a terminal takes up the next token, and a nonterminal goes to where the
next link leads, if what is there was completed from here, or else stays where it is and derives
nothing. Read so, the symbols before the dot end where the item is, and no link is left over.

Links lead to items made before, so following them comes to an end.

## Main definitions

* `ContextFree.Rules.ReadsTo` - symbols and links read from one position to another.

## Main results

* `ContextFree.Rules.Made.readsTo` - the links of an item account for the symbols before its dot.
* `ContextFree.Rules.provenance_accounts` - this holds for every item, and following links ends.
-/

namespace ContextFree

/-- Places are left behind only finitely often when going back. -/
theorem Link.wellFounded_before : WellFounded Link.before := by
  refine Subrelation.wf (r := InvImage (Prod.Lex (· < ·) (· < ·)) fun l : Link =>
    (l.position, l.index)) (fun {a b} h => ?_) (InvImage.wf _ (WellFounded.prod_lex
      Nat.lt_wfRel.wf Nat.lt_wfRel.wf))
  obtain ⟨i, j⟩ := a
  obtain ⟨i', j'⟩ := b
  rcases h with hlt | ⟨heq, hlt⟩
  · exact Prod.Lex.left _ _ hlt
  · obtain rfl : i = i' := heq
    exact Prod.Lex.right _ hlt

namespace Rules

variable {rules : Rules} {c : Chart} {start : String} {input : List String} {l : Link} {x : Item}

/-- A row of symbols, read from one position of an input on, ends at another, and the links are used
up from left to right by the nonterminals that were not stepped over. -/
inductive ReadsTo (rules : Rules) (c : Chart) (input : List String) :
    Nat → Form → List Link → Nat → Prop where
  /-- No symbol and no link is left. -/
  | done (i : Nat) : ReadsTo rules c input i [] [] i
  /-- A terminal is the token at the position, and takes it up. -/
  | token {i j : Nat} {symbol : String} {row : Form} {links : List Link} :
      rules.defines symbol = false → input[i]? = some symbol →
        ReadsTo rules c input (i + 1) row links j → ReadsTo rules c input i (symbol :: row) links j
  /-- A nonterminal was completed from the position on, where the next link leads. -/
  | linked {i j : Nat} {symbol : String} {row : Form} {l : Link} {links : List Link} {x : Item} :
      rules.defines symbol = true → c.item? l = some x → x.isComplete = true →
        x.rule.lhs = symbol → x.start = i →
          ReadsTo rules c input l.position row links j →
            ReadsTo rules c input i (symbol :: row) (l :: links) j
  /-- A nonterminal was stepped over: it derives nothing. -/
  | stepped {i j : Nat} {symbol : String} {row : Form} {links : List Link} :
      rules.defines symbol = true → rules.Derives [symbol] [] →
        ReadsTo rules c input i row links j → ReadsTo rules c input i (symbol :: row) links j

/-- Rows are read one after the other. -/
theorem ReadsTo.append {i j k : Nat} {row row' : Form} {links links' : List Link}
    (h : rules.ReadsTo c input i row links j) (h' : rules.ReadsTo c input j row' links' k) :
    rules.ReadsTo c input i (row ++ row') (links ++ links') k := by
  induction h with
  | done => exact h'
  | token hterminal htoken _ ih => exact .token hterminal htoken (ih h')
  | linked hdefines hx hcomplete hlhs hstart _ ih =>
    exact .linked hdefines hx hcomplete hlhs hstart (ih h')
  | stepped hdefines hnullable _ ih => exact .stepped hdefines hnullable (ih h')

/-- **The links of an item account for the symbols before its dot**, from its start to where it
is. -/
theorem Made.readsTo (h : rules.Made rules.nullable start input c l x) :
    rules.ReadsTo c input x.start (x.rule.rhs.take x.dot) x.provenance l.position := by
  induction h with
  | seeded => exact .done 0
  | predicted => exact .done _
  | @skipped i _ _ x symbol _ _ hnext hnullable ih =>
    have hderives := Nullable.contains_nullable_iff.mp hnullable
    have hover : rules.ReadsTo c input i [symbol] [] i :=
      .stepped (Nullable.defines_of_derives_nil hderives) hderives (.done i)
    have hall := ih.append hover
    rwa [← Item.take_succ_of_next? hnext, List.append_nil] at hall
  | @completed _ i j _ p x _ _ hwaits hx _ hnone hposition hat ihp _ =>
    have hdefines : rules.defines x.rule.lhs = true :=
      defines_iff.mpr ⟨x.rule, hx.rule_mem, rfl⟩
    have hover : rules.ReadsTo c input x.start [x.rule.lhs] [⟨i, j⟩] i :=
      .linked hdefines hat (Item.isComplete_iff.mpr hnone) rfl rfl (.done i)
    have hall := ihp.append (hposition ▸ hover)
    rwa [← Item.take_succ_of_next? hwaits] at hall
  | @scanned i _ _ x token _ hnext hread hterminal ih =>
    have hover : rules.ReadsTo c input i [token] [] (i + 1) := .token hterminal hread (.done _)
    have hall := ih.append hover
    rwa [← Item.take_succ_of_next? hnext, List.append_nil] at hall

/-- **Provenance accounts for every item.** Read from its start on, the symbols before the dot of an
item end where the item is, with every link used by a nonterminal that was completed there; the
others are nullable. The links lead to places before the item's own, so following them ends. -/
theorem provenance_accounts (rules : Rules) (retention : Retention) (start : String)
    (input : List String) :
    (∀ l x, (rules.chart rules.nullable retention start input).item? l = some x →
      rules.ReadsTo (rules.chart rules.nullable retention start input) input x.start
          (x.rule.rhs.take x.dot) x.provenance l.position ∧
        ∀ l' ∈ x.provenance, l'.before l) ∧
    WellFounded fun l' l => ∃ x,
      (rules.chart rules.nullable retention start input).item? l = some x ∧ l' ∈ x.provenance := by
  have hbefore : ∀ l x, (rules.chart rules.nullable retention start input).item? l = some x →
      ∀ l' ∈ x.provenance, l'.before l :=
    fun _ _ hx l' hl' => ((made_of_item? hx).before_of_mem_provenance l' hl').1
  refine ⟨fun l x hx => ⟨(made_of_item? hx).readsTo, hbefore l x hx⟩, ?_⟩
  refine Subrelation.wf (r := Link.before) (fun {l' l} h => ?_) Link.wellFounded_before
  obtain ⟨x, hx, hl'⟩ := h
  exact hbefore l x hx l' hl'

end Rules

end ContextFree

import ContextFree.Proofs.Replaying
import Mathlib.Data.Set.Card

/-!
# Leftmost derivations

A leftmost derivation always rewrites the first nonterminal of the form. Its rules are those of a
parse tree in preorder, and the tree can be read off them again: going from left to right, the first
rule is that of the root, and its right side says how many trees come next. So the leftmost
derivations of an input and its parse trees are two forms of one thing.

A replay applies a rule at the first occurrence of its left side. Where no symbol is nullable,
nothing is stepped over, so whatever stands before that occurrence has been read: the replay of a
final item is the leftmost derivation of its tree, and it ends in the input.

## Main definitions

* `ContextFree.Rules.Leftmost` - rewritings of the first nonterminal.
* `ContextFree.Rules.IsLeftmost` - the leftmost derivations of an input.
* `ContextFree.Rules.NoneNullable` - no symbol derives nothing.
* `ContextFree.Form.trace` - the rules applied to a form, each with the form that it leads to.

## Main results

* `ContextFree.Sketch.Valid.leftmost` - the rules of a parse in preorder are a leftmost derivation.
* `ContextFree.Sketch.Valid.preorder_inj` - no other parse has the same rules in preorder.
* `ContextFree.Rules.encard_isLeftmost` - there are as many leftmost derivations as parses.
* `ContextFree.Rules.final_items_replay_leftmost` - where no symbol is nullable, no final item is
  discarded.
-/

namespace ContextFree

variable {rules : Rules} {t u : Sketch}

namespace Form

/-- The rules applied to a form one after the other, each with the form that it leads to. -/
def trace : Form → List Rule → List (Rule × Form)
  | _, [] => []
  | form, r :: rest => (r, form.apply r) :: (form.apply r).trace rest

theorem trace_append (form : Form) (a b : List Rule) :
    form.trace (a ++ b) = form.trace a ++ (form.applyAll a).trace b := by
  induction a generalizing form with
  | nil => rfl
  | cons r rest ih => simp [trace, ih]

/-- A trace names the rules that were applied. -/
theorem map_fst_trace (form : Form) (a : List Rule) : (form.trace a).map Prod.fst = a := by
  induction a generalizing form with
  | nil => rfl
  | cons r rest ih => simp [trace, ih]

/-- The steps that rules take from a form show their trace. -/
theorem stepsFrom_eq_map_trace (form : Form) (a : List Rule) :
    Replay.stepsFrom form a = (form.trace a).map Step.of := by
  induction a generalizing form with
  | nil => rfl
  | cons r rest ih =>
    rw [Replay.stepsFrom, ih]
    rfl

end Form

namespace Rules

/-- Rewritings from one form to another, each of the first nonterminal, with the rules and the forms
that they lead to. -/
inductive Leftmost (rules : Rules) : Form → List (Rule × Form) → Form → Prop where
  /-- No rewriting. -/
  | done (form : Form) : Leftmost rules form [] form
  /-- One rewriting behind terminals, and those after it. -/
  | step {front back last : Form} {r : Rule} {trace : List (Rule × Form)} :
      r ∈ rules → rules.IsTerminal front → Leftmost rules (front ++ r.rhs ++ back) trace last →
        Leftmost rules (front ++ r.lhs :: back) ((r, front ++ r.rhs ++ back) :: trace) last

/-- A leftmost derivation of an input from a symbol. -/
structure IsLeftmost (rules : Rules) (symbol : String) (input : List String)
    (trace : List (Rule × Form)) : Prop where
  /-- The input holds terminals only. -/
  terminal : rules.IsTerminal input
  /-- The first nonterminal is rewritten until the input is reached. -/
  leftmost : rules.Leftmost [symbol] trace input

namespace Leftmost

variable {a b c : Form} {p q : List (Rule × Form)}

theorem trans (hab : rules.Leftmost a p b) (hbc : rules.Leftmost b q c) :
    rules.Leftmost a (p ++ q) c := by
  induction hab with
  | done => exact hbc
  | step hr hfront _ ih => exact .step hr hfront (ih hbc)

/-- The rules of a leftmost derivation say which forms it runs through. -/
theorem eq_trace (h : rules.Leftmost a p b) : p = a.trace (p.map Prod.fst) := by
  induction h with
  | done => rfl
  | @step front back _ r _ hr hfront _ ih =>
    rw [List.map_cons, Form.trace, Form.apply_append_cons (hfront.lhs_not_mem hr), ← ih]

end Leftmost

end Rules

/-! ### Parses and leftmost derivations -/

namespace Sketch

/-- **The rules of a parse in preorder are a leftmost derivation.** They lead from the roots behind
a row of terminals to the yield in their place. -/
theorem Valid.leftmost {front back form : Form} (ht : t.Valid rules) (hgaps : t.gaps = [])
    (hfront : rules.IsTerminal front) (hform : form = front ++ (t.roots ++ back)) :
    form.applyAll t.preorder = front ++ (t.yield ++ back) ∧
      rules.Leftmost form (form.trace t.preorder) (form.applyAll t.preorder) := by
  induction t generalizing form front back with
  | nil => exact ⟨hform, .done form⟩
  | leaf symbol rest ih =>
    have hread : form = (front ++ [symbol]) ++ (rest.roots ++ back) := by simpa [roots] using hform
    obtain ⟨hlast, hleftmost⟩ := ih ht.2 hgaps (hfront.append (.singleton ht.1)) hread
    exact ⟨by simpa [yield, preorder] using hlast, hleftmost⟩
  | gap symbol rest => exact absurd hgaps (List.cons_ne_nil _ _)
  | node rule children rest ihc ih =>
    obtain ⟨hr, hchildren, hvalidc, hvalidr⟩ := ht
    obtain ⟨hgapsc, hgapsr⟩ := List.append_eq_nil_iff.mp hgaps
    obtain rfl : form = front ++ rule.lhs :: (rest.roots ++ back) := hform
    have hopened := Form.apply_append_cons (hfront.lhs_not_mem hr) (rest.roots ++ back)
    -- the children are read behind the same terminals, the rest behind what they spell
    have hbelow : front ++ rule.rhs ++ (rest.roots ++ back) =
        front ++ (children.roots ++ (rest.roots ++ back)) := by
      rw [hchildren, List.append_assoc]
    obtain ⟨hlastc, hleftmostc⟩ := ihc hvalidc hgapsc hfront hbelow
    have hbehind : Form.applyAll (front ++ rule.rhs ++ (rest.roots ++ back)) children.preorder =
        (front ++ children.yield) ++ (rest.roots ++ back) := by
      rw [hlastc, List.append_assoc]
    obtain ⟨hlast, hleftmost⟩ :=
      ih hvalidr hgapsr (hfront.append hvalidc.isTerminal_yield) hbehind
    rw [preorder, Form.trace, Form.trace_append, Form.applyAll_cons, Form.applyAll_append, hopened]
    refine ⟨hlast.trans ?_, .step hr hfront (hleftmostc.trans hleftmost)⟩
    simp [yield]

/-- Without gaps, the tree of a terminal is a leaf. -/
theorem Valid.exists_leaf {symbol : String} {row : Form} (ht : t.Valid rules) (hgaps : t.gaps = [])
    (hroots : t.roots = symbol :: row) (hdefines : rules.defines symbol = false) :
    ∃ rest, t = leaf symbol rest ∧ rest.Valid rules ∧ rest.roots = row ∧ rest.gaps = [] := by
  cases t with
  | nil => exact absurd hroots.symm (List.cons_ne_nil _ _)
  | leaf symbol' rest =>
    obtain ⟨rfl, hrest⟩ := List.cons.inj hroots
    exact ⟨rest, rfl, ht.2, hrest, hgaps⟩
  | gap symbol' rest => exact absurd hgaps (List.cons_ne_nil _ _)
  | node rule children rest =>
    obtain ⟨rfl, -⟩ := List.cons.inj hroots
    have hdefined : rules.defines rule.lhs = true := Rules.defines_iff.mpr ⟨rule, ht.1, rfl⟩
    exact absurd (hdefines.symm.trans hdefined) Bool.false_ne_true

/-- **The rules in preorder tell parses apart**, whatever rules come after them. -/
theorem Valid.preorder_inj {a b : List Rule} (ht : t.Valid rules) (htgaps : t.gaps = [])
    (hu : u.Valid rules) (hugaps : u.gaps = []) (hroots : t.roots = u.roots)
    (hpreorder : t.preorder ++ a = u.preorder ++ b) : t = u ∧ a = b := by
  induction t generalizing u a b with
  | nil =>
    obtain rfl := eq_nil_of_roots hroots.symm
    exact ⟨rfl, hpreorder⟩
  | leaf symbol rest ih =>
    obtain ⟨rest', rfl, hvalid, hrest, hgaps⟩ := hu.exists_leaf hugaps hroots.symm ht.1
    obtain ⟨rfl, rfl⟩ := ih ht.2 htgaps hvalid hgaps hrest.symm hpreorder
    exact ⟨rfl, rfl⟩
  | gap symbol rest => exact absurd htgaps (List.cons_ne_nil _ _)
  | node rule children rest ihc ih =>
    obtain ⟨hr, hchildren, hvalidc, hvalidr⟩ := ht
    obtain ⟨hgapsc, hgapsr⟩ := List.append_eq_nil_iff.mp htgaps
    have hdefines : rules.defines rule.lhs = true := Rules.defines_iff.mpr ⟨rule, hr, rfl⟩
    obtain ⟨rule', children', rest', rfl, -, ⟨hvalidc', hchildren', hgapsc'⟩, hvalidr', hrest',
      hgapsr'⟩ := hu.exists_node hugaps hroots.symm hdefines
    rw [preorder, preorder, List.cons_append, List.cons_append, List.append_assoc,
      List.append_assoc] at hpreorder
    obtain ⟨rfl, hbelow⟩ := List.cons.inj hpreorder
    -- the children come first, and both rows of them stand over one right side
    obtain ⟨rfl, hafter⟩ :=
      ihc hvalidc hgapsc hvalidc' hgapsc' (hchildren.trans hchildren'.symm) hbelow
    obtain ⟨rfl, rfl⟩ := ih hvalidr hgapsr hvalidr' hgapsr' hrest'.symm hafter
    exact ⟨rfl, rfl⟩

end Sketch

namespace Rules

variable {start : String} {input : List String}

/-- **Every leftmost derivation of terminals is that of a parse.** -/
theorem Leftmost.exists_sketch {form last : Form} {trace : List (Rule × Form)}
    (h : rules.Leftmost form trace last) (hlast : rules.IsTerminal last) :
    ∃ t : Sketch, t.Valid rules ∧ t.roots = form ∧ t.yield = last ∧ t.gaps = [] ∧
      t.preorder = trace.map Prod.fst := by
  induction h with
  | done form =>
    obtain ⟨hvalid, hroots, hyield, hgaps⟩ := Sketch.leaves_spec hlast
    exact ⟨Sketch.leaves form, hvalid, hroots, hyield, hgaps, Sketch.preorder_leaves form⟩
  | @step front back _ r _ hr hfront _ ih =>
    -- the trees over the right side become the children of one node
    obtain ⟨t, hvalid, hroots, hyield, hgaps, hpreorder⟩ := ih hlast
    obtain ⟨v, back', rfl, hv, hback, hv_roots, rfl⟩ := Sketch.exists_append hvalid hroots
    obtain ⟨front', mid, rfl, hfront', hmid, rfl, hmid_roots⟩ := Sketch.exists_append hv hv_roots
    simp only [Sketch.gaps_append, List.append_eq_nil_iff] at hgaps
    have hfront_preorder : front'.preorder = [] := by
      rw [hfront'.eq_leaves hgaps.1.1 hfront, Sketch.preorder_leaves]
    rw [Sketch.preorder_append, Sketch.preorder_append, hfront_preorder, List.nil_append]
      at hpreorder
    refine ⟨front'.append (.node r mid back'), hfront'.append ⟨hr, hmid_roots, hmid, hback⟩,
      ?_, ?_, ?_, ?_⟩
    · rw [Sketch.roots_append, Sketch.roots]
    · simpa [Sketch.yield] using hyield
    · simp [Sketch.gaps, hgaps]
    · rw [Sketch.preorder_append, hfront_preorder, Sketch.preorder, hpreorder]
      rfl

/-- The rules of a parse tree in preorder are a leftmost derivation of the input. -/
theorem IsParse.isLeftmost (h : rules.IsParse start input t) :
    rules.IsLeftmost start input (Form.trace [start] t.preorder) := by
  have hform : [start] = [] ++ (t.roots ++ []) := by rw [h.roots]; rfl
  obtain ⟨hlast, hleftmost⟩ := h.valid.leftmost h.gaps (.nil rules) hform
  rw [List.append_nil, List.nil_append, h.yield] at hlast
  exact ⟨h.yield ▸ h.valid.isTerminal_yield, hlast ▸ hleftmost⟩

/-- Parse trees of an input with the same rules in preorder are the same. -/
theorem IsParse.preorder_injOn (rules : Rules) (start : String) (input : List String) :
    Set.InjOn Sketch.preorder {t | rules.IsParse start input t} := by
  intro t ht u hu hpreorder
  have hroots : t.roots = u.roots := ht.roots.trans hu.roots.symm
  have hafter : t.preorder ++ [] = u.preorder ++ [] := congrArg (· ++ []) hpreorder
  exact (ht.valid.preorder_inj ht.gaps hu.valid hu.gaps hroots hafter).1

/-- **There are as many leftmost derivations of an input as parse trees.** -/
theorem encard_isLeftmost (rules : Rules) (start : String) (input : List String) :
    {trace | rules.IsLeftmost start input trace}.encard =
      {t | rules.IsParse start input t}.encard := by
  have hinj : Set.InjOn (fun t : Sketch => Form.trace [start] t.preorder)
      {t | rules.IsParse start input t} := by
    intro t ht u hu htrace
    have hpreorder := congrArg (List.map Prod.fst) htrace
    rw [Form.map_fst_trace, Form.map_fst_trace] at hpreorder
    exact IsParse.preorder_injOn rules start input ht hu hpreorder
  have himage : (fun t : Sketch => Form.trace [start] t.preorder) ''
      {t | rules.IsParse start input t} = {trace | rules.IsLeftmost start input trace} := by
    ext trace
    constructor
    · rintro ⟨t, ht, rfl⟩
      exact ht.isLeftmost
    · rintro ⟨hterminal, hleftmost⟩
      obtain ⟨t, hvalid, hroots, hyield, hgaps, hpreorder⟩ := hleftmost.exists_sketch hterminal
      refine ⟨t, ⟨⟨hvalid, hroots, hyield⟩, hgaps⟩, ?_⟩
      show Form.trace [start] t.preorder = trace
      rw [hpreorder, ← hleftmost.eq_trace]
  rw [← himage, hinj.encard_image]

/-! ### Rules without nullable symbols -/

/-- No symbol derives nothing. -/
def NoneNullable (rules : Rules) : Prop := ∀ symbol, ¬ rules.Derives [symbol] []

namespace NoneNullable

/-- The analysis tells whether there are nullable symbols. -/
theorem iff_erasers_eq_nil : rules.NoneNullable ↔ rules.nullable.erasers = [] := by
  constructor
  · intro h
    rw [List.eq_nil_iff_forall_not_mem]
    intro r hr
    exact h r.lhs (Nullable.contains_nullable_iff.mp (Nullable.contains_iff.mpr ⟨r, hr, rfl⟩))
  · intro h symbol hsymbol
    obtain ⟨r, hr, -⟩ := Nullable.contains_iff.mp (Nullable.contains_nullable_iff.mpr hsymbol)
    rw [h] at hr
    exact absurd hr List.not_mem_nil

/-- Nothing can be left open. -/
theorem gaps_eq_nil (h : rules.NoneNullable) (ht : t.Valid rules) : t.gaps = [] := by
  rw [List.eq_nil_iff_forall_not_mem]
  intro symbol hsymbol
  exact h symbol (Nullable.contains_nullable_iff.mp (ht.contains_of_mem_gaps symbol hsymbol))

theorem isParse (h : rules.NoneNullable) (ht : rules.IsSketch start input t) :
    rules.IsParse start input t :=
  ⟨ht, h.gaps_eq_nil ht.valid⟩

/-- A node spells something. -/
theorem length_yield_pos {r : Rule} (h : rules.NoneNullable) (hr : r ∈ rules)
    (hchildren : t.roots = r.rhs) (ht : t.Valid rules) : 0 < t.yield.length := by
  refine List.length_pos_of_ne_nil fun hyield => ?_
  have hderives := (Derives.of_mem hr).trans (hchildren ▸ ht.derives)
  exact h r.lhs (hyield ▸ hderives)

/-- A replay applies the rules of its tree and no others. -/
theorem replay_eq (h : rules.NoneNullable) (t : Sketch) (root : String) :
    t.replay rules.nullable root = ⟨root, t.preorder⟩ := by
  have herasure : ∀ symbol, rules.nullable.erasure symbol = [] := by
    intro symbol
    rw [Nullable.erasure, iff_erasers_eq_nil.mp h]
    rfl
  simp [Sketch.replay, herasure]

/-- The replay of a parse tree shows its leftmost derivation. -/
theorem derivation_replay (h : rules.NoneNullable) (t : Sketch) (root : String) :
    (t.replay rules.nullable root).derivation =
      ⟨⟨"Start → " ++ root, root⟩ :: (Form.trace [root] t.preorder).map Step.of⟩ := by
  rw [h.replay_eq, Replay.derivation, Form.stepsFrom_eq_map_trace]

/-- The replay of a parse tree ends in the input. -/
theorem form_replay (h : rules.NoneNullable) (ht : rules.IsParse start input t) :
    (t.replay rules.nullable start).form = input := by
  have hform : [start] = [] ++ (t.roots ++ []) := by rw [ht.roots]; rfl
  rw [h.replay_eq, Replay.form, (ht.valid.leftmost ht.gaps (.nil rules) hform).1, ht.yield]
  simp

end NoneNullable

/-! ### Final items -/

section

variable {retention : Retention} {l : Link}

/-- Where no symbol is nullable, the replay of a final item is that of a parse tree. -/
theorem NoneNullable.exists_isParse_of_mem_finals (hnone : rules.NoneNullable)
    (hl : l ∈ (rules.chart rules.nullable retention start input).finals start)
    (hlength : (rules.chart rules.nullable retention start input).length = input.length + 1) :
    ∃ t, rules.IsParse start input t ∧
      rules.replay rules.nullable (rules.chart rules.nullable retention start input) l =
        t.replay rules.nullable start := by
  obtain ⟨t, ht, hreplay⟩ := exists_replay_eq_of_mem_finals hl (Nat.le_of_eq hlength.symm)
  exact ⟨t, hnone.isParse ht, hreplay⟩

end

/-- **Where no symbol is nullable, no final item is discarded.** Under either retention, a final
item at the end of the input replays to a derivation that rewrites the first nonterminal in every
step and ends in the input, and one such item is enough for the input to be accepted. -/
theorem final_items_replay_leftmost (rules : Rules) (start : String) (input : List String)
    (hnone : rules.NoneNullable) :
    (∀ retention : Retention,
      (rules.chart rules.nullable retention start input).length = input.length + 1 →
        (∀ l ∈ (rules.chart rules.nullable retention start input).finals start,
          (rules.replay rules.nullable (rules.chart rules.nullable retention start input) l).form =
              input ∧
            ∃ trace, rules.Leftmost [start] trace input ∧
              rules.derivation? rules.nullable (rules.chart rules.nullable retention start input)
                input l = some ⟨⟨"Start → " ++ start, start⟩ :: trace.map Step.of⟩) ∧
        ((rules.chart rules.nullable retention start input).finals start ≠ [] →
          (rules.outcome rules.nullable (rules.chart rules.nullable retention start input) start
            input).accepted = true)) ∧
    ((rules.parse start input).1.length = input.length + 1 →
      (rules.parse start input).1.finals start ≠ [] →
        (rules.recognize start input).accepted = true) := by
  have haccepted : ∀ retention : Retention,
      (rules.chart rules.nullable retention start input).length = input.length + 1 →
        (rules.chart rules.nullable retention start input).finals start ≠ [] →
          (rules.outcome rules.nullable (rules.chart rules.nullable retention start input) start
            input).accepted = true := by
    intro retention hlength hne
    obtain ⟨l, hl⟩ := List.exists_mem_of_ne_nil _ hne
    obtain ⟨t, ht, hreplay⟩ := hnone.exists_isParse_of_mem_finals hl hlength
    exact accepted_outcome_iff.mpr
      ⟨Nat.le_of_eq hlength.symm, l, hl, hreplay ▸ hnone.form_replay ht⟩
  refine ⟨fun retention hlength => ⟨fun l hl => ?_, haccepted retention hlength⟩,
    haccepted (rules.retention rules.nullable)⟩
  obtain ⟨t, ht, hreplay⟩ := hnone.exists_isParse_of_mem_finals hl hlength
  have hform : (rules.replay rules.nullable
      (rules.chart rules.nullable retention start input) l).form = input :=
    hreplay ▸ hnone.form_replay ht
  refine ⟨hform, Form.trace [start] t.preorder, ht.isLeftmost.leftmost,
    derivation?_eq_some_iff.mpr ⟨hform, ?_⟩⟩
  rw [hreplay, hnone.derivation_replay]

/-- Left-recursive rules without nullable symbols, under which three letters are ambiguous. -/
def rowsOfLetters : Rules := [⟨"S", ["S", "S"]⟩, ⟨"S", ["a"]⟩]

/-- Three letters have a final item, and its replay is not discarded. -/
theorem three_letters_accepted :
    rowsOfLetters.NoneNullable ∧
      (rowsOfLetters.parse "S" ["a", "a", "a"]).1.length = 4 ∧
      (rowsOfLetters.parse "S" ["a", "a", "a"]).1.finals "S" ≠ [] ∧
      (rowsOfLetters.recognize "S" ["a", "a", "a"]).accepted = true := by
  have hnone : rowsOfLetters.NoneNullable := NoneNullable.iff_erasers_eq_nil.mpr (by decide)
  have hlength : (rowsOfLetters.parse "S" ["a", "a", "a"]).1.length = 4 := by decide +kernel
  have hfinals : (rowsOfLetters.parse "S" ["a", "a", "a"]).1.finals "S" ≠ [] := by decide +kernel
  exact ⟨hnone, hlength, hfinals,
    (final_items_replay_leftmost rowsOfLetters "S" ["a", "a", "a"] hnone).2 hlength hfinals⟩

end Rules

end ContextFree

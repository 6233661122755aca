import ContextFree.Grammar
import ContextFree.Proofs.Renaming
import Mathlib.InformationTheory.Coding.UniquelyDecodable
import Mathlib.Logic.Equiv.Basic

/-!
# How symbols are spelled

Recognition compares symbols, and its replays are renamed along with them. But a derivation is what
is shown of a replay: texts of rules and of forms, in which the symbols are run together. Of
replays that read the same only one is reported. So whether an input is accepted does not depend on
how symbols are spelled, and the number of its derivations depends on it in one way: symbols may be
run together into the same text in two ways.

Where rows of symbols are read back from their texts, a derivation tells its replay. The forms are
read back one after the other; and two rules that have the same text and lead from one form to the
same form are the same, for the lengths of the forms tell where the left side ends in the text.

## Main definitions

* `ContextFree.Rules.UniquelySpelled` - rows of the symbols of the rules are read back from their
  texts.

## Main results

* `ContextFree.Rule.eq_of_text_eq` - when two rules with one text are the same.
* `ContextFree.Rules.UniquelySpelled.derivation_injOn` - different replays are shown differently.
* `ContextFree.Rules.recognize_rename` - what a renaming does to an outcome.
* `ContextFree.Rules.overlapping_symbols_read_alike` - derivations that are told apart after a
  renaming only.
-/

namespace ContextFree

variable {rules : Rules} {start : String} {input : List String}

/-! ### Rules with the same text -/

namespace Form

variable {form : Form} {r : Rule}

theorem length_apply (h : r.lhs ∈ form) :
    (form.apply r).length + 1 = form.length + r.rhs.length := by
  obtain ⟨front, back, rfl, hfront⟩ := List.eq_append_cons_of_mem h
  rw [apply_append_cons hfront]
  simp only [List.length_append, List.length_cons]
  omega

theorem length_text_apply (h : r.lhs ∈ form) :
    (form.apply r).text.length + r.lhs.length = form.text.length + (String.join r.rhs).length := by
  obtain ⟨front, back, rfl, hfront⟩ := List.eq_append_cons_of_mem h
  rw [apply_append_cons hfront]
  simp only [text, String.join_append, String.join_cons, String.length_append]
  omega

theorem mem_of_mem_apply {symbol : String} (h : symbol ∈ form.apply r) :
    symbol ∈ form ∨ symbol ∈ r.rhs := by
  induction form with
  | nil => exact absurd h List.not_mem_nil
  | cons a rest ih =>
    rw [apply] at h
    split at h
    · rcases List.mem_append.mp h with h | h
      · exact Or.inr h
      · exact Or.inl (List.mem_cons_of_mem a h)
    · rcases List.mem_cons.mp h with rfl | h
      · exact Or.inl List.mem_cons_self
      · exact (ih h).imp_left (List.mem_cons_of_mem a)

end Form

/-- **When two rules with one text are the same.** They lead from one form to the same form. -/
theorem Rule.eq_of_text_eq {form : Form} {r s : Rule} (hr : r.lhs ∈ form) (hs : s.lhs ∈ form)
    (htext : r.text = s.text) (hstep : form.apply r = form.apply s) : r = s := by
  -- the right sides have as many symbols, so both are shown as they are or both as empty
  have hcount : r.rhs.length = s.rhs.length := by
    have hlength := congrArg List.length hstep
    have hlengthr := Form.length_apply hr
    have hlengths := Form.length_apply hs
    omega
  have hempty : r.isEmpty = s.isEmpty := by
    rw [Bool.eq_iff_iff, isEmpty_iff, isEmpty_iff, ← List.length_eq_zero_iff, hcount,
      List.length_eq_zero_iff]
  -- the left sides are equally long, for what one loses to the form the other loses to the text
  have hlength : r.lhs.length = s.lhs.length := by
    have hforms := congrArg (fun form : Form => form.text.length) hstep
    have hlengthr := Form.length_text_apply hr
    have hlengths := Form.length_text_apply hs
    have htexts := congrArg String.length htext
    simp only [Rule.text, String.length_append, hempty] at htexts hforms
    split at htexts
    · next hs_empty =>
      rw [isEmpty_iff.mp hs_empty, isEmpty_iff.mp (hempty.trans hs_empty)] at *
      omega
    · omega
  have hlhs : r.lhs = s.lhs := by
    have hlists := congrArg String.toList htext
    simp only [Rule.text, String.toList_append, List.append_assoc] at hlists
    have hlength' : r.lhs.toList.length = s.lhs.toList.length := by
      rw [String.length_toList, String.length_toList, hlength]
    exact String.toList_inj.mp (List.append_inj_left hlists hlength')
  have hrhs : r.rhs = s.rhs := by
    obtain ⟨front, back, rfl, hfront⟩ := List.eq_append_cons_of_mem hr
    rw [Form.apply_append_cons hfront, hlhs, Form.apply_append_cons (hlhs ▸ hfront)] at hstep
    exact List.append_cancel_left (List.append_cancel_right hstep)
  cases r
  cases s
  rw [Rule.mk.injEq]
  exact ⟨hlhs, hrhs⟩

namespace Rules

/-! ### Rows that are read back -/

/-- The symbols of a rule list, once for each occurrence. -/
def symbols (rules : Rules) : List String := rules.flatMap fun r => r.lhs :: r.rhs

theorem lhs_mem_symbols {r : Rule} (h : r ∈ rules) : r.lhs ∈ rules.symbols :=
  List.mem_flatMap.mpr ⟨r, h, List.mem_cons_self⟩

theorem mem_symbols_of_mem_rhs {r : Rule} {symbol : String} (h : r ∈ rules)
    (hsymbol : symbol ∈ r.rhs) : symbol ∈ rules.symbols :=
  List.mem_flatMap.mpr ⟨r, h, List.mem_cons_of_mem _ hsymbol⟩

/-- No two rows of the symbols of the rules are run together into the same text. -/
def UniquelySpelled (rules : Rules) : Prop :=
  InformationTheory.UniquelyDecodable {word | ∃ symbol ∈ rules.symbols, symbol.toList = word}

/-- It is enough that every symbol is one character long. -/
theorem uniquelySpelled_of_length_eq_one (h : ∀ symbol ∈ rules.symbols, symbol.length = 1) :
    rules.UniquelySpelled := by
  have hread : ∀ words : List (List Char),
      (∀ w ∈ words, w ∈ {word | ∃ symbol ∈ rules.symbols, symbol.toList = word}) →
        words.flatten.map (fun c => [c]) = words := by
    intro words hwords
    induction words with
    | nil => rfl
    | cons word rest ih =>
      obtain ⟨symbol, hsymbol, rfl⟩ := hwords word List.mem_cons_self
      obtain ⟨c, hc⟩ := List.length_eq_one_iff.mp (String.length_toList.trans (h symbol hsymbol))
      rw [List.flatten_cons, List.map_append,
        ih fun w hw => hwords w (List.mem_cons_of_mem _ hw), hc]
      rfl
  intro a b ha hb hflatten
  rw [← hread a ha, ← hread b hb, hflatten]

namespace UniquelySpelled

theorem text_inj (h : rules.UniquelySpelled) {a b : Form}
    (ha : ∀ symbol ∈ a, symbol ∈ rules.symbols) (hb : ∀ symbol ∈ b, symbol ∈ rules.symbols)
    (htext : a.text = b.text) : a = b := by
  have hwords : ∀ form : Form, (∀ symbol ∈ form, symbol ∈ rules.symbols) →
      ∀ w ∈ form.map String.toList,
        w ∈ {word | ∃ symbol ∈ rules.symbols, symbol.toList = word} := by
    intro form hform w hw
    obtain ⟨symbol, hsymbol, rfl⟩ := List.mem_map.mp hw
    exact ⟨symbol, hform symbol hsymbol, rfl⟩
  have hflatten : (a.map String.toList).flatten = (b.map String.toList).flatten := by
    have hlists := congrArg String.toList htext
    simpa [Form.text, String.toList_join, List.flatMap_def] using hlists
  exact List.map_injective_iff.mpr (fun _ _ => String.toList_injective)
    (h _ _ (hwords a ha) (hwords b hb) hflatten)

/-- Steps tell the rules that are applied. -/
theorem stepsFrom_inj (h : rules.UniquelySpelled) {form : Form} {a b : List Rule}
    (hform : ∀ symbol ∈ form, symbol ∈ rules.symbols) (ha : ∀ r ∈ a, r ∈ rules)
    (hb : ∀ r ∈ b, r ∈ rules) (hfounda : form.Applicable a) (hfoundb : form.Applicable b)
    (hsteps : Replay.stepsFrom form a = Replay.stepsFrom form b) : a = b := by
  induction a generalizing form b with
  | nil =>
    cases b with
    | nil => rfl
    | cons => exact absurd hsteps.symm (List.cons_ne_nil _ _)
  | cons r a ih =>
    cases b with
    | nil => exact absurd hsteps (List.cons_ne_nil _ _)
    | cons s b =>
      obtain ⟨hstep, hrest⟩ := List.cons.inj hsteps
      obtain ⟨hrule, hresult⟩ := Step.mk.inj hstep
      have hkept : ∀ q ∈ rules, ∀ symbol ∈ form.apply q, symbol ∈ rules.symbols := by
        intro q hq symbol hsymbol
        rcases Form.mem_of_mem_apply hsymbol with hsymbol | hsymbol
        · exact hform symbol hsymbol
        · exact mem_symbols_of_mem_rhs hq hsymbol
      have hr := ha r List.mem_cons_self
      have hs := hb s List.mem_cons_self
      have hnext : form.apply r = form.apply s := h.text_inj (hkept r hr) (hkept s hs) hresult
      obtain rfl := Rule.eq_of_text_eq hfounda.1 hfoundb.1 hrule hnext
      rw [ih (hkept r hr) (fun q hq => ha q (List.mem_cons_of_mem _ hq))
        (fun q hq => hb q (List.mem_cons_of_mem _ hq)) hfounda.2 hfoundb.2 hrest]

end UniquelySpelled

/-- A replay of an input applies rules of the list from the start symbol on, and each of them finds
its left side. -/
theorem of_mem_replays {r : Replay} (h : r ∈ rules.replays start input) :
    r.root = start ∧ start ∈ rules.symbols ∧ Form.Applicable [start] r.rules ∧
      ∀ q ∈ r.rules, q ∈ rules := by
  rw [replays] at h
  split at h
  · exact absurd h List.not_mem_nil
  · next hlength =>
    obtain ⟨l, hl, rfl⟩ := List.mem_map.mp (List.mem_filter.mp h).1
    obtain ⟨x, t, hx, hspans, ht, hunfolds⟩ :=
      exists_unfolds_of_mem_finals hl (Nat.le_of_not_lt hlength)
    have hlhs : x.rule.lhs = start := (Item.spans_iff.mp hspans).1
    have hreplay : rules.replay rules.nullable (rules.parse start input).1 l =
        (Sketch.node x.rule t .nil).replay rules.nullable start := hlhs ▸ hunfolds.replay_eq hx
    rw [hreplay]
    exact ⟨rfl, hlhs ▸ lhs_mem_symbols ht.valid.1, ht.applicable, ht.rule_mem⟩

/-- **Different replays are shown differently**, where symbols are uniquely spelled. -/
theorem UniquelySpelled.derivation_injOn (h : rules.UniquelySpelled) (start : String)
    (input : List String) : Set.InjOn Replay.derivation {r | r ∈ rules.replays start input} := by
  intro r hr s hs hderivation
  obtain ⟨hroot, hstart, hfound, hmem⟩ := of_mem_replays hr
  obtain ⟨hroot', -, hfound', hmem'⟩ := of_mem_replays hs
  obtain ⟨-, hsteps⟩ := List.cons.inj (congrArg Derivation.steps hderivation)
  rw [hroot, hroot'] at hsteps
  have hform : ∀ symbol ∈ [start], symbol ∈ rules.symbols := fun symbol hsymbol =>
    List.mem_singleton.mp hsymbol ▸ hstart
  have hrules : r.rules = s.rules := h.stepsFrom_inj hform hmem hmem' hfound hfound' hsteps
  cases r
  cases s
  rw [Replay.mk.injEq]
  exact ⟨hroot.trans hroot'.symm, hrules⟩

/-! ### Outcomes -/

theorem accepted_iff_replays_ne_nil :
    (rules.recognize start input).accepted = true ↔ rules.replays start input ≠ [] := by
  rw [Outcome.accepted_iff, derivations_eq]
  cases rules.replays start input with
  | nil => simp
  | cons r rest => simp [List.eraseDups_cons, derivationLimit]

/-- Where symbols are uniquely spelled, different replays are counted. -/
theorem UniquelySpelled.length_derivations (h : rules.UniquelySpelled) (start : String)
    (input : List String) : (rules.recognize start input).derivations.length =
      min derivationLimit (rules.replays start input).eraseDups.length := by
  rw [derivations_eq, eraseDups_map (h.derivation_injOn start input), List.length_take,
    List.length_map]

/-- **What a renaming does to an outcome.** The derivations are those of the same replays, renamed.
So whether the input is accepted does not depend on how symbols are spelled; and the number of
derivations does not, as long as they are uniquely spelled before and after. -/
theorem recognize_rename (rules : Rules) (start : String) (input : List String)
    {f : String → String} (hf : Function.Injective f) :
    ((rules.rename f).recognize (f start) (input.map f)).accepted =
        (rules.recognize start input).accepted ∧
      ((rules.rename f).recognize (f start) (input.map f)).derivations =
        ((rules.replays start input).map fun r => (r.rename f).derivation).eraseDups.take
          derivationLimit ∧
      (rules.UniquelySpelled → (rules.rename f).UniquelySpelled →
        ((rules.rename f).recognize (f start) (input.map f)).length =
          (rules.recognize start input).length) := by
  have haccepted : ((rules.rename f).recognize (f start) (input.map f)).accepted =
      (rules.recognize start input).accepted := by
    rw [Bool.eq_iff_iff, accepted_iff_replays_ne_nil, accepted_iff_replays_ne_nil,
      replays_rename hf, Ne, List.map_eq_nil_iff]
  refine ⟨haccepted, ?_, fun hspelled hspelled' => ?_⟩
  · rw [derivations_eq, replays_rename hf, List.map_map]
    rfl
  · have hcount : ((rules.rename f).recognize (f start) (input.map f)).derivations.length =
        (rules.recognize start input).derivations.length := by
      rw [hspelled.length_derivations, hspelled'.length_derivations, replays_rename hf,
        eraseDups_map (Replay.rename_injective hf).injOn, List.length_map]
    rw [Outcome.length, Outcome.length, haccepted, hcount]

/-- Rules under which two letters are read in two ways. -/
def lettersInTwoWays : Rules :=
  [⟨"S", ["a", "B"]⟩, ⟨"S", ["A", "b"]⟩, ⟨"A", ["a"]⟩, ⟨"B", ["b"]⟩]

/-- With another letter for one of the two, they are still read in two ways. -/
theorem letters_renamed :
    Function.Injective (Equiv.swap "a" "c") ∧ lettersInTwoWays.UniquelySpelled ∧
      (lettersInTwoWays.rename (Equiv.swap "a" "c")).UniquelySpelled ∧
      (lettersInTwoWays.recognize "S" ["a", "b"]).length = 2 ∧
      ((lettersInTwoWays.rename (Equiv.swap "a" "c")).recognize (Equiv.swap "a" "c" "S")
        (["a", "b"].map (Equiv.swap "a" "c"))).length = 2 := by
  have hinj : Function.Injective (Equiv.swap "a" "c") := Equiv.injective _
  have hspelled : lettersInTwoWays.UniquelySpelled :=
    uniquelySpelled_of_length_eq_one (by decide)
  have hspelled' : (lettersInTwoWays.rename (Equiv.swap "a" "c")).UniquelySpelled :=
    uniquelySpelled_of_length_eq_one (by decide +kernel)
  have hlength : (lettersInTwoWays.recognize "S" ["a", "b"]).length = 2 := by decide +kernel
  exact ⟨hinj, hspelled, hspelled', hlength,
    ((recognize_rename lettersInTwoWays "S" ["a", "b"] hinj).2.2 hspelled hspelled').trans hlength⟩

/-- Rules over a symbol and another that is spelled like two of it. -/
def overlappingSymbols : Rules := [⟨"S", ["N", "NN"]⟩, ⟨"S", ["NN", "N"]⟩, ⟨"N", ["NN"]⟩]

/-- Two derivations of different rules read alike and are reported as one, until the second symbol
is spelled with a letter of its own. -/
theorem overlapping_symbols_read_alike :
    Function.Injective (Equiv.swap "NN" "a") ∧
      (overlappingSymbols.recognize "S" ["NN", "NN"]).length = 1 ∧
      ((overlappingSymbols.rename (Equiv.swap "NN" "a")).recognize (Equiv.swap "NN" "a" "S")
        (["NN", "NN"].map (Equiv.swap "NN" "a"))).length = 2 := by
  refine ⟨Equiv.injective _, ?_, ?_⟩
  · decide +kernel
  · decide +kernel

end Rules

end ContextFree

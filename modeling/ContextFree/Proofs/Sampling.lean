import ContextFree.CommandLine
import ContextFree.Proofs.Acceptance
import ContextFree.Proofs.Choosing
import ContextFree.Proofs.Leftmost
import ContextFree.Proofs.Lowering

/-!
# Sampled sentences and recognition

A sampled sentence is spelled by a derivation tree of the name it was sampled from: whatever choices
are made, every name that is expanded stands over one of its alternatives. So the name derives the
sentence under the rules over atomic symbols. That is not enough for the sentence to be accepted. A
character that is also a name is rewritten there, and a sentence may be rejected for the order in
which its symbols are erased.

## Main results

* `ContextFree.Grammar.yields_of_sample` - what a sampled sentence is.
* `ContextFree.Grammar.sampled_accepted_iff` - when a sampled sentence is accepted.
* `ContextFree.Grammar.sampled_rejected` - sampled sentences that are rejected.
-/

namespace ContextFree

variable {g : Grammar} {start name : String} {w : Words} {sentence : List String}

namespace Grammar

/-! ### Sampled sentences have trees -/

/-- The alternative that is selected is one of those of the definition. -/
theorem mem_of_select {h : Heights} {random : Bool} {d : Definition} {x : Alternative × Nat}
    (hx : (select h random d w).1 = some x) : x.1 ∈ d.alternatives := by
  rw [select] at hx
  split at hx
  · exact (Definition.mem_productive.mp (Words.mem_of_pick hx)).1
  · exact (Definition.mem_productive.mp (mem_of_lowest? hx)).1

/-- If names are expanded to what their trees spell, so is a row of symbols. -/
theorem exists_phrase_of_expandAll {expandName : String → Words → Sampled} {a : Alternative}
    (hname : ∀ name w sentence, (expandName name w).1 = .ok sentence → g.Yields name sentence)
    (h : (expandAll expandName a w).1 = .ok sentence) :
    ∃ p : Phrase, p.Valid g ∧ p.symbols = a ∧ p.yield = sentence := by
  induction a generalizing w sentence with
  | nil =>
    obtain rfl := Except.ok.inj h
    exact ⟨.nil, trivial, rfl, rfl⟩
  | cons symbol rest ih =>
    cases symbol with
    | terminal text =>
      rw [expandAll] at h
      split at h
      · next after w' heq =>
        obtain rfl := Except.ok.inj h
        obtain ⟨p, hvalid, rfl, rfl⟩ := ih (congrArg Prod.fst heq)
        exact ⟨.leaf text p, hvalid, rfl, rfl⟩
      · cases h
    | nonterminal name =>
      rw [expandAll] at h
      split at h
      · cases h
      · next front w' hfront =>
        obtain ⟨c, hoffers, hc, rfl⟩ := hname name w front (congrArg Prod.fst hfront)
        split at h
        · next after w'' heq =>
          obtain rfl := Except.ok.inj h
          obtain ⟨p, hvalid, rfl, rfl⟩ := ih (congrArg Prod.fst heq)
          exact ⟨.node name c p, ⟨hoffers, hc, hvalid⟩, rfl, rfl⟩
        · cases h

/-- **What a name is expanded to is spelled by one of its trees.** -/
theorem yields_of_expand {h : Heights} {limit levels depth : Nat}
    (hok : (g.expand h limit levels depth name w).1 = .ok sentence) : g.Yields name sentence := by
  induction levels generalizing depth name w sentence with
  | zero => cases hok
  | succ levels ih =>
    rw [expand] at hok
    split at hok
    · cases hok
    · next d hd =>
      split at hok
      · cases hok
      · next a height w' hselect =>
        obtain ⟨p, hvalid, rfl, rfl⟩ := exists_phrase_of_expandAll (fun _ _ _ => ih) hok
        have ha := mem_of_select (congrArg Prod.fst hselect)
        exact ⟨p, offers_of_find? hd ha, hvalid, rfl⟩

theorem yields_of_sample {limit : Nat} (h : (g.sample start limit w).1 = .ok sentence) :
    g.Yields start sentence := yields_of_expand h

/-- The sentences that are sampled in turn are each sampled from some supply of words. -/
theorem exists_sample_of_mem_samples {limit amount : Nat}
    (h : sentence ∈ (g.samples start limit amount w).1) :
    ∃ w', (g.sample start limit w').1 = .ok sentence := by
  induction amount generalizing w with
  | zero => exact absurd h List.not_mem_nil
  | succ amount ih =>
    rw [samples] at h
    split at h
    · exact absurd h List.not_mem_nil
    · next first w' heq =>
      rcases List.mem_cons.mp h with rfl | h
      · exact ⟨w, congrArg Prod.fst heq⟩
      · exact ih h

end Grammar

/-- The command ends with exit code zero for the inputs that are accepted. -/
theorem Outcome.exit_printed_iff {o : Outcome} : o.printed.exit = 0 ↔ o.accepted = true := by
  rw [Outcome.accepted_iff, Outcome.printed]
  split
  · next hnil => simp [hnil, Printed.rejectedExit]
  · next d hone => simp [hone]
  · next hnil _ => simpa using hnil

namespace Rules

variable {rules : Rules} {input : List String}

theorem NoneNullable.nullablesVanish (h : rules.NoneNullable) : rules.NullablesVanish :=
  fun symbol _ hnil _ => absurd hnil (h symbol)

/-- When an input that is derived from the start symbol is accepted. -/
theorem accepted_iff_of_derives (hstart : rules.defines start = true)
    (hderives : rules.Derives [start] input) :
    (rules.recognize start input).accepted = true ↔ rules.IsTerminal input ∧
      ∃ l ∈ (rules.parse start input).1.finals start, rules.spelled start input l = input := by
  rw [accepted_iff_exists_replay]
  constructor
  · rintro ⟨hlength, l, hl, hform⟩
    obtain ⟨t, ht, -⟩ := exists_replay_eq hl hlength
    exact ⟨ht.yield ▸ ht.valid.isTerminal_yield, l, hl, form_eq_spelled hl ▸ hform⟩
  · rintro ⟨hterminal, l, hl, hspelled⟩
    have hsentence : rules.IsSentence start input := ⟨hterminal, hderives⟩
    exact ⟨Nat.le_of_eq (hsentence.finals_ne_nil hstart).1.symm, l, hl,
      (form_eq_spelled hl).trans hspelled⟩

end Rules

namespace Grammar

theorem Yields.defines (h : g.Yields name sentence) : g.rules.defines name = true := by
  obtain ⟨p, hoffers, -⟩ := h
  exact defines_rules_iff.mpr ⟨p.symbols, hoffers⟩

/-- What a tree spells is read back from its text. -/
theorem Yields.characters_join (h : g.Yields name sentence) :
    characters (String.join sentence) = sentence := by
  obtain ⟨p, -, -, rfl⟩ := h
  exact ContextFree.characters_join Phrase.length_of_mem_yield

/-- **When a sampled sentence is accepted.** None of its characters may be a name, and the tree of a
final item has to spell it in order. Where no character of a terminal text is a name, and nullable
names derive nothing else, each line of sampled sentences is accepted when it is read back. -/
theorem sampled_accepted_iff (g : Grammar) (start : String) (limit : Nat) :
    (∀ w sentence, (g.sample start limit w).1 = .ok sentence →
      ((g.rules.recognize start sentence).accepted = true ↔ g.rules.IsTerminal sentence ∧
        ∃ l ∈ (g.rules.parse start sentence).1.finals start,
          g.rules.spelled start sentence l = sentence) ∧
      (g.Unconfused → g.rules.NullablesVanish →
        (g.rules.recognize start sentence).accepted = true)) ∧
    ∀ amount w, ∀ sentence ∈ (g.samples start limit amount w).1,
      ((g.rules.recognize start (characters (String.join sentence))).printed.exit = 0 ↔
        (g.rules.recognize start sentence).accepted = true) ∧
      (g.Unconfused → g.rules.NullablesVanish →
        (g.rules.recognize start (characters (String.join sentence))).printed.exit = 0) := by
  have haccepted : g.Unconfused → g.rules.NullablesVanish → ∀ sentence, g.Yields start sentence →
      (g.rules.recognize start sentence).accepted = true := by
    intro hclear hvanish sentence h
    exact (hclear.isSentence h).accepted h.defines fun t ht => hvanish.form_eq ht
  refine ⟨fun w sentence h => ?_, fun amount w sentence h => ?_⟩
  · have hyields := yields_of_sample h
    exact ⟨Rules.accepted_iff_of_derives hyields.defines hyields.derives,
      fun hclear hvanish => haccepted hclear hvanish sentence hyields⟩
  · obtain ⟨w', hsample⟩ := exists_sample_of_mem_samples h
    have hyields := yields_of_sample hsample
    rw [hyields.characters_join, Outcome.exit_printed_iff]
    exact ⟨Iff.rfl, fun hclear hvanish => haccepted hclear hvanish sentence hyields⟩

/-- Nested letters that are sampled are accepted. -/
theorem sampled_letters_accepted :
    nestedLetters.Unconfused ∧ nestedLetters.rules.NullablesVanish ∧
      (nestedLetters.sample "S" 2 (.ofList [0, 0x80000000])).1 = .ok ["a", "a", "b", "b"] ∧
      (nestedLetters.rules.recognize "S" ["a", "a", "b", "b"]).accepted = true := by
  have hclear : nestedLetters.Unconfused := unconfused_of_forall (by decide)
  have hvanish : nestedLetters.rules.NullablesVanish :=
    (Rules.NoneNullable.iff_erasers_eq_nil.mpr (by decide)).nullablesVanish
  have hsample : (nestedLetters.sample "S" 2 (.ofList [0, 0x80000000])).1 =
      .ok ["a", "a", "b", "b"] := by decide +kernel
  exact ⟨hclear, hvanish, hsample,
    ((sampled_accepted_iff nestedLetters "S" 2).1 _ _ hsample).2 hclear hvanish⟩

/-- A grammar under which two symbols have to vanish before an equal one is read. -/
def optionalLetters : Grammar :=
  ⟨"S", [⟨"S", [[.nonterminal "A", .nonterminal "A", .terminal "b", .nonterminal "A"]]⟩,
    ⟨"A", [[.terminal ""], [.terminal "a"]]⟩]⟩

/-- A result that is known not to be an error is the one it is known to be. -/
theorem eq_ok_of_toOption {ε α : Type} {e : Except ε α} {a : α} (h : e.toOption = some a) :
    e = .ok a := by
  cases e with
  | error => cases h
  | ok => exact congrArg Except.ok (Option.some.inj h)

/-- Sampled sentences that are rejected, one for a character that is a name and one for the order in
which its symbols are erased. Both grammars are read from a text. -/
theorem sampled_rejected :
    (ofText (.ofFile "") "S = \"T\"\nT = \"x\"\n" = .ok quotedName ∧
      (quotedName.sample "S" 8 (.ofList [])).1 = .ok ["T"] ∧
      (quotedName.rules.recognize "S" ["T"]).accepted = false) ∧
    (ofText (.ofFile "") "S = A A \"b\" A\nA = \"\" | \"a\"\n" = .ok optionalLetters ∧
      (optionalLetters.sample "S" 2 (.ofList [0, 0, 0, 0x80000000])).1 = .ok ["b", "a"] ∧
      (optionalLetters.rules.recognize "S" ["b", "a"]).accepted = false) := by
  refine ⟨⟨eq_ok_of_toOption ?_, ?_, ?_⟩, eq_ok_of_toOption ?_, ?_, ?_⟩
  · decide +kernel
  · decide +kernel
  · decide +kernel
  · decide +kernel
  · decide +kernel
  · decide +kernel

end Grammar

end ContextFree

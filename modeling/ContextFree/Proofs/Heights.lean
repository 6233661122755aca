import ContextFree.Height
import ContextFree.Proofs.Loop
import ContextFree.Proofs.Phrase
import Mathlib.Data.Nat.Find
import Mathlib.Order.Bounds.Basic

/-!
# Heights are exact

The height of a nonterminal is the least height of its derivation trees. A table is that of the
heights if it holds two things together: every entry is the height of some tree of its name, and no
tree is lower than the entry of its name. The first is kept by whatever is put in for an alternative
whose names all have entries. The second is reached by degrees: a table that covers the trees of
fewer than so many levels has entries for all names below one level more.

Rounds put in an entry once and for all, since what is found in a round is found for a tree of just
so many levels. In passes over the definitions an entry may come too high at first, from entries
that are themselves not final or were written earlier in the same pass, and be lowered later. But a
pass never raises an entry, and it covers one level more than was covered before it, so as many
passes as there are definitions cover all there is to cover. Both ways end with the same heights.

## Main definitions

* `ContextFree.Phrase.height` - the height of a row of trees.
* `ContextFree.Grammar.treeHeights` - the heights of the trees of a name.
* `ContextFree.Heights.Exact` - the entries are the least heights.
* `ContextFree.Grammar.pass?` - the loop over passes that lower entries in place.

## Main results

* `ContextFree.Grammar.exact_heights` - the heights of a grammar are the least ones.
* `ContextFree.Grammar.ends_passes` - so are those that the loop over passes ends with.
-/

namespace ContextFree

/-! ### Heights of trees -/

/-- The height of the tallest tree of a row. -/
def Phrase.height : Phrase → Nat
  | nil => 0
  | leaf _ rest => rest.height
  | node _ children rest => max (children.height + 1) rest.height

/-- The row is that of the trees below a name. -/
structure Phrase.IsTreeOf (g : Grammar) (name : String) (p : Phrase) : Prop where
  /-- The name stands over one of its alternatives. -/
  offers : g.Offers name p.symbols
  /-- So does every name of the row. -/
  valid : p.Valid g

/-- The heights of the derivation trees of a name. -/
def Grammar.treeHeights (g : Grammar) (name : String) : Set Nat :=
  {height | ∃ p : Phrase, p.IsTreeOf g name ∧ p.height + 1 = height}

variable {g : Grammar} {h h' : Heights} {name : String} {a : Alternative} {d : Definition}
  {p : Phrase} {n k : Nat}

/-- A name that has trees has a least height. -/
theorem Phrase.IsTreeOf.exists_isLeast (hp : p.IsTreeOf g name) :
    ∃ k ≤ p.height + 1, IsLeast (g.treeHeights name) k := by
  classical
  have hmem : p.height + 1 ∈ g.treeHeights name := ⟨p, hp, rfl⟩
  exact ⟨Nat.find ⟨_, hmem⟩, Nat.find_min' _ hmem, Nat.find_spec ⟨_, hmem⟩,
    fun _ hheight => Nat.find_min' _ hheight⟩

/-! ### Tables of heights -/

namespace Heights

/-- Every entry is the height of some tree of its name. -/
def Realised (g : Grammar) (h : Heights) : Prop :=
  ∀ name k, h.get? name = some k → k ∈ g.treeHeights name

/-- No tree of fewer than so many levels is lower than the entry of its name. -/
def Covers (g : Grammar) (h : Heights) (n : Nat) : Prop :=
  ∀ name (p : Phrase), p.IsTreeOf g name → p.height < n → ∃ k ≤ p.height + 1, h.get? name = some k

theorem covers_zero (g : Grammar) (h : Heights) : Covers g h 0 :=
  fun _ p _ hp => absurd hp (Nat.not_lt_zero p.height)

/-- The names that have trees are those with entries, and their entries are the least heights. -/
def Exact (g : Grammar) (h : Heights) : Prop :=
  ∀ name k, h.get? name = some k ↔ IsLeast (g.treeHeights name) k

theorem Covers.le_of_get? (hcovers : Covers g h n) (hp : p.IsTreeOf g name) (hlt : p.height < n)
    (hk : h.get? name = some k) : k ≤ p.height + 1 := by
  obtain ⟨k', hle, hk'⟩ := hcovers name p hp hlt
  exact Option.some.inj (hk.symm.trans hk') ▸ hle

theorem Covers.le_of_get?_none (hcovers : Covers g h n) (hp : p.IsTreeOf g name)
    (hnone : h.get? name = none) : n ≤ p.height := by
  refine Nat.le_of_not_lt fun hlt => ?_
  obtain ⟨k, -, hk⟩ := hcovers name p hp hlt
  exact absurd (hnone.symm.trans hk) (Option.some_ne_none k).symm

theorem exact_iff : Exact g h ↔ Realised g h ∧ ∀ n, Covers g h n := by
  constructor
  · intro hexact
    refine ⟨fun name k hk => ((hexact name k).mp hk).1, fun n name p hp _ => ?_⟩
    obtain ⟨k, hle, hleast⟩ := hp.exists_isLeast
    exact ⟨k, hle, (hexact name k).mpr hleast⟩
  · rintro ⟨hrealised, hcovers⟩ name k
    constructor
    · intro hk
      refine ⟨hrealised name k hk, ?_⟩
      rintro _ ⟨p, hp, rfl⟩
      exact (hcovers (p.height + 1)).le_of_get? hp (Nat.lt_succ_self _) hk
    · rintro ⟨⟨p, hp, rfl⟩, hleast⟩
      obtain ⟨k', hle, hk'⟩ := hcovers (p.height + 1) name p hp (Nat.lt_succ_self _)
      rw [hk', Nat.le_antisymm hle (hleast (hrealised name k' hk'))]

theorem Exact.realised (hexact : Exact g h) : Realised g h := (exact_iff.mp hexact).1

theorem Exact.covers (hexact : Exact g h) (n : Nat) : Covers g h n := (exact_iff.mp hexact).2 n

/-- There is only one table of heights. -/
theorem Exact.get?_eq (hexact : Exact g h) (hexact' : Exact g h') (name : String) :
    h.get? name = h'.get? name :=
  Option.ext fun k => (hexact name k).trans (hexact' name k).symm

/-- The names with entries are those that have trees. -/
theorem Exact.isSome_iff (hexact : Exact g h) :
    (h.get? name).isSome = true ↔ ∃ p : Phrase, p.IsTreeOf g name := by
  rw [Option.isSome_iff_exists]
  constructor
  · rintro ⟨k, hk⟩
    obtain ⟨p, hp, -⟩ := hexact.realised name k hk
    exact ⟨p, hp⟩
  · rintro ⟨p, hp⟩
    obtain ⟨k, -, hk⟩ := hexact.covers (p.height + 1) name p hp (Nat.lt_succ_self _)
    exact ⟨k, hk⟩

/-- An alternative that is given a height has trees of that height over it. -/
theorem Realised.exists_phrase (hrealised : Realised g h) (ha : a.height? h = some n) :
    ∃ p : Phrase, p.Valid g ∧ p.symbols = a ∧ p.height + 1 = n := by
  induction a generalizing n with
  | nil => exact ⟨.nil, trivial, rfl, Option.some.inj ha⟩
  | cons symbol rest ih =>
    cases symbol with
    | terminal text =>
      obtain ⟨p, hvalid, rfl, rfl⟩ := ih ha
      exact ⟨.leaf text p, hvalid, rfl, rfl⟩
    | nonterminal name =>
      rw [Alternative.height?] at ha
      split at ha
      · next below height hbelow hheight =>
        obtain ⟨c, hc, rfl⟩ := hrealised name below hbelow
        obtain ⟨p, hvalid, rfl, rfl⟩ := ih hheight
        refine ⟨.node name c p, ⟨hc.offers, hc.valid, hvalid⟩, rfl, ?_⟩
        rw [← Option.some.inj ha, Phrase.height, Nat.max_comm, Nat.add_max_add_right]
      · exact absurd ha (Option.some_ne_none n).symm

/-- The height that the alternative below a row is given is no more than that of the row. -/
theorem Covers.exists_height (hcovers : Covers g h n) (hvalid : p.Valid g) (hp : p.height ≤ n) :
    ∃ k ≤ p.height + 1, Alternative.height? h p.symbols = some k := by
  induction p with
  | nil => exact ⟨1, Nat.le_refl 1, rfl⟩
  | leaf text rest ih => exact ih hvalid hp
  | node name c rest _ ih =>
    obtain ⟨hc, hrest⟩ := Nat.max_le.mp hp
    obtain ⟨below, hbelow, hget⟩ := hcovers name c ⟨hvalid.1, hvalid.2.1⟩ hc
    obtain ⟨height, hheight, hsome⟩ := ih hvalid.2.2 hrest
    refine ⟨max height (below + 1), ?_, ?_⟩
    · rw [Phrase.height]
      omega
    · rw [Phrase.symbols, Alternative.height?, hget, hsome]

/-- A tree under an exact table has its alternative, and with a height. -/
theorem Exact.exists_height (hexact : Exact g h) (hvalid : p.Valid g) :
    ∃ k ≤ p.height + 1, Alternative.height? h p.symbols = some k :=
  (hexact.covers p.height).exists_height hvalid (Nat.le_refl _)

end Heights

/-- The height of an alternative is found from the entries of the table alone. -/
theorem Alternative.height?_congr (hget : ∀ name, h.get? name = h'.get? name) (a : Alternative) :
    a.height? h = a.height? h' := by
  induction a with
  | nil => rfl
  | cons symbol rest ih =>
    cases symbol with
    | terminal text => exact ih
    | nonterminal name => rw [height?, height?, hget, ih]

/-- Entries that are bounded bound the heights of alternatives. -/
theorem Alternative.height?_le (hbound : ∀ name k, h.get? name = some k → k ≤ n)
    (ha : a.height? h = some k) : k ≤ n + 1 := by
  induction a generalizing k with
  | nil => exact Option.some.inj ha ▸ Nat.le_add_left 1 n
  | cons symbol rest ih =>
    cases symbol with
    | terminal text => exact ih ha
    | nonterminal name =>
      rw [height?] at ha
      split at ha
      · next below height hbelow hheight =>
        rw [← Option.some.inj ha]
        exact Nat.max_le.mpr ⟨ih hheight, Nat.succ_le_succ (hbound name below hbelow)⟩
      · exact absurd ha (Option.some_ne_none k).symm

/-! ### Rounds -/

namespace Heights

/-- The table covers the trees of fewer than so many levels, and its entries come from there. -/
structure Through (g : Grammar) (n : Nat) (h : Heights) : Prop where
  /-- Every entry is the height of a tree. -/
  realised : h.Realised g
  /-- Lower trees have entries. -/
  covers : h.Covers g n
  /-- There is no greater entry. -/
  bound : ∀ name k, h.get? name = some k → k ≤ n

theorem Through.empty : Through g 0 [] where
  realised := fun _ k hk => absurd hk (Option.some_ne_none k).symm
  covers := covers_zero g []
  bound := fun _ k hk => absurd hk (Option.some_ne_none k).symm

end Heights

namespace Grammar

open Heights

/-- The table after a round. -/
def round (g : Grammar) (n : Nat) (h : Heights) : Heights :=
  h ++ (g.found h).map fun d => (d.name, n)

/-- The entries after a round are those from before it and new ones with its number. -/
theorem get?_round :
    (g.round n h).get? name = some k ↔
      h.get? name = some k ∨ h.get? name = none ∧ k = n ∧ ∃ d ∈ g.found h, d.name = name := by
  have hlookup (ds : List Definition) : (ds.map fun d => (d.name, n)).lookup name = some k ↔
      k = n ∧ ∃ d ∈ ds, d.name = name := by
    induction ds with
    | nil => simp
    | cons d rest ih =>
      rw [List.map_cons, List.lookup_cons]
      by_cases hname : name = d.name
      · simp [hname, eq_comm]
      · rw [beq_eq_false_iff_ne.mpr hname, ih]
        simp [Ne.symm hname]
  rw [round, get?, List.lookup_append, Option.or_eq_some_iff, hlookup, get?]

theorem mem_found : d ∈ g.found h ↔
    d ∈ g.definitions ∧ h.get? d.name = none ∧ ∃ a ∈ d.alternatives, (a.height? h).isSome := by
  simp [found]

/-- A name without an entry that has a tree of no more levels than are covered is found. -/
theorem exists_found (hcovers : h.Covers g n) (hp : p.IsTreeOf g name) (hle : p.height ≤ n)
    (hnone : h.get? name = none) : ∃ d ∈ g.found h, d.name = name := by
  obtain ⟨d, hd, rfl, ha⟩ := hp.offers
  obtain ⟨k, -, hk⟩ := hcovers.exists_height hp.valid hle
  exact ⟨d, mem_found.mpr ⟨hd, hnone, _, ha, Option.isSome_of_eq_some hk⟩, rfl⟩

/-- **What a round finds is found for trees of just so many levels.** -/
theorem through_round (hthrough : Through g n h) :
    Through g (n + 1) (g.round (n + 1) h) where
  realised := by
    intro name k hk
    rcases get?_round.mp hk with hk | ⟨hnone, rfl, d, hd, rfl⟩
    · exact hthrough.realised name k hk
    · obtain ⟨hmem, -, a, ha, hsome⟩ := mem_found.mp hd
      obtain ⟨height, hheight⟩ := Option.isSome_iff_exists.mp hsome
      have hupper : height ≤ n + 1 := a.height?_le hthrough.bound hheight
      obtain ⟨p, hvalid, rfl, rfl⟩ := hthrough.realised.exists_phrase hheight
      have hp : p.IsTreeOf g d.name := ⟨⟨d, hmem, rfl, ha⟩, hvalid⟩
      -- a lower tree would have been found before
      have hlower : n ≤ p.height := hthrough.covers.le_of_get?_none hp hnone
      exact ⟨p, hp, by omega⟩
  covers := by
    intro name p hp hlt
    cases hget : h.get? name with
    | some k =>
      refine ⟨k, ?_, get?_round.mpr (.inl hget)⟩
      rcases Nat.lt_succ_iff_lt_or_eq.mp hlt with hlt | rfl
      · exact hthrough.covers.le_of_get? hp hlt hget
      · exact Nat.le_succ_of_le (hthrough.bound name k hget)
    | none =>
      refine ⟨n + 1, ?_, get?_round.mpr (.inr ⟨hget, rfl, ?_⟩)⟩
      · exact Nat.succ_le_succ (hthrough.covers.le_of_get?_none hp hget)
      · exact exists_found hthrough.covers hp (Nat.le_of_lt_succ hlt) hget
  bound := by
    intro name k hk
    rcases get?_round.mp hk with hk | ⟨-, rfl, -⟩
    · exact Nat.le_succ_of_le (hthrough.bound name k hk)
    · exact Nat.le_refl _

/-- A round that finds nothing is the last. -/
theorem exact_of_found_eq_nil (hthrough : Through g n h) (hnil : g.found h = []) : h.Exact g := by
  have hlast : ∀ more, h.Covers g (n + more) := by
    intro more
    induction more with
    | zero => exact hthrough.covers
    | succ more ih =>
      intro name p hp hlt
      cases hget : h.get? name with
      | none =>
        obtain ⟨d, hd, -⟩ := exists_found ih hp (Nat.le_of_lt_succ hlt) hget
        exact absurd (hnil ▸ hd) List.not_mem_nil
      | some k =>
        refine ⟨k, ?_, rfl⟩
        by_cases hlow : p.height < n
        · exact hthrough.covers.le_of_get? hp hlow hget
        · have := hthrough.bound name k hget
          omega
  refine exact_iff.mpr ⟨hthrough.realised, fun m name p hp hlt => ?_⟩
  exact hlast m name p hp (Nat.lt_of_lt_of_le hlt (Nat.le_add_left m n))

/-- The definitions of names without an entry. -/
def missing (g : Grammar) (h : Heights) : List Definition :=
  g.definitions.filter fun d => (h.get? d.name).isNone

/-- What is found is no longer missing after the round, and nothing is missing anew. -/
theorem length_missing_lt (hd : d ∈ g.found h) :
    (g.missing (g.round n h)).length < (g.missing h).length := by
  obtain ⟨hmem, hnone, -⟩ := mem_found.mp hd
  have hnew : (g.round n h).get? d.name = some n := get?_round.mpr (.inr ⟨hnone, rfl, d, hd, rfl⟩)
  have hfilter : g.missing (g.round n h) =
      (g.missing h).filter fun d => ((g.round n h).get? d.name).isNone := by
    rw [missing, missing, List.filter_filter]
    refine List.filter_congr fun e _ => ?_
    cases hget : h.get? e.name with
    | none => simp
    | some k => simp [get?_round.mpr (.inl hget)]
  rw [hfilter, List.length_filter_lt_length_iff_exists]
  exact ⟨d, List.mem_filter.mpr ⟨hmem, by rw [hnone]; rfl⟩, by rw [hnew]; exact Bool.false_ne_true⟩

theorem heightsFrom_succ (g : Grammar) (rounds n : Nat) (h : Heights) :
    g.heightsFrom (rounds + 1) n h =
      if g.found h = [] then h else g.heightsFrom rounds (n + 1) (g.round n h) := by
  rw [heightsFrom, round]
  split
  · next hnil => rw [if_pos hnil]
  · next hne => rw [if_neg hne]

/-- **Rounds end with the heights**, if there are as many left as definitions of names without an
entry. -/
theorem exact_heightsFrom {rounds : Nat} (hthrough : Through g n h)
    (hmissing : (g.missing h).length ≤ rounds) :
    Heights.Exact g (g.heightsFrom rounds (n + 1) h) ∧
      ∀ name k, (g.heightsFrom rounds (n + 1) h).get? name = some k → k ≤ n + rounds := by
  induction rounds generalizing n h with
  | zero =>
    have hnil : g.found h = [] := by
      refine List.eq_nil_iff_forall_not_mem.mpr fun d hd => ?_
      exact absurd (length_missing_lt (n := 0) hd) (by omega)
    exact ⟨exact_of_found_eq_nil hthrough hnil, hthrough.bound⟩
  | succ rounds ih =>
    rw [heightsFrom_succ]
    split
    · next hnil =>
      refine ⟨exact_of_found_eq_nil hthrough hnil, fun name k hk => ?_⟩
      exact Nat.le_trans (hthrough.bound name k hk) (Nat.le_add_right n _)
    · next hne =>
      obtain ⟨d, hd⟩ := List.exists_mem_of_ne_nil _ hne
      have hlt := length_missing_lt (n := n + 1) hd
      rw [Nat.add_comm rounds 1, ← Nat.add_assoc]
      exact ih (through_round hthrough) (by omega)

/-- **The heights of a grammar are the least heights of the trees of its names.** -/
theorem exact_heights (g : Grammar) : g.heights.Exact g :=
  (exact_heightsFrom .empty (List.length_filter_le _ _)).1

/-- No height is greater than the number of definitions. -/
theorem heights_le (hk : g.heights.get? name = some k) : k ≤ g.definitions.length :=
  Nat.zero_add g.definitions.length ▸
    (exact_heightsFrom .empty (List.length_filter_le _ _)).2 name k hk

end Grammar

/-! ### Passes in place -/

/-- The least of the heights of the alternatives of a definition. -/
def Definition.best? (d : Definition) (h : Heights) : Option Nat :=
  (d.alternatives.filterMap fun a => a.height? h).min?

/-- The table after a look at a definition. Its least height is put in if there is no entry yet, or
a greater one. -/
def Heights.lower (h : Heights) (d : Definition) : Heights :=
  match d.best? h with
  | none => h
  | some best => if (h.get? d.name).all (best < ·) then (d.name, best) :: h else h

namespace Grammar

/-- A look at every definition, each at the table that the one before has left. -/
def pass (g : Grammar) (h : Heights) : Heights := g.definitions.foldl Heights.lower h

/-- One more pass over the definitions, unless it changes nothing: then the loop ends. -/
def pass? (g : Grammar) (h : Heights) : Option Heights :=
  if g.pass h = h then none else some (g.pass h)

end Grammar

namespace Heights

theorem mem_heights_of_best? {best : Nat} (hbest : d.best? h = some best) :
    ∃ a ∈ d.alternatives, a.height? h = some best := by
  obtain ⟨a, ha, hheight⟩ := List.mem_filterMap.mp (List.min?_mem hbest)
  exact ⟨a, ha, hheight⟩

theorem exists_best? (ha : a ∈ d.alternatives) (hk : a.height? h = some k) :
    ∃ best ≤ k, d.best? h = some best := by
  have hmem : k ∈ d.alternatives.filterMap fun a => a.height? h :=
    List.mem_filterMap.mpr ⟨a, ha, hk⟩
  obtain ⟨best, hbest⟩ := Option.isSome_iff_exists.mp (List.isSome_min?_of_mem hmem)
  exact ⟨best, (List.min?_eq_some_iff.mp hbest).2 k hmem, hbest⟩

/-- What an entry is after a look at a definition: what it was, or something less. -/
theorem get?_lower (h : Heights) (d : Definition) (name : String) :
    (h.lower d).get? name = h.get? name ∨
      d.name = name ∧ ∃ best, d.best? h = some best ∧ (h.lower d).get? name = some best ∧
        ∀ k, h.get? name = some k → best < k := by
  rw [lower]
  split
  · exact .inl rfl
  · next best hbest =>
    split
    · next hall =>
      by_cases hname : name = d.name
      · subst hname
        refine .inr ⟨rfl, best, hbest, List.lookup_cons_self, fun k hk => ?_⟩
        simpa [hk] using hall
      · rw [get?, List.lookup_cons, beq_eq_false_iff_ne.mpr hname]
        exact .inl rfl
    · exact .inl rfl

/-- A definition that has a height has an entry after a look at it, and no greater one. -/
theorem exists_get?_lower {best : Nat} (hbest : d.best? h = some best) :
    ∃ k ≤ best, (h.lower d).get? d.name = some k := by
  rw [lower, hbest]
  dsimp only
  split
  · exact ⟨best, Nat.le_refl best, List.lookup_cons_self⟩
  · next hall =>
    cases hk : h.get? d.name with
    | none => simp [hk] at hall
    | some k => exact ⟨k, by simpa [hk] using hall, rfl⟩

/-- The second table has an entry where the first has one, and no greater one. -/
def Lowers (h h' : Heights) : Prop :=
  ∀ name k, h.get? name = some k → ∃ k' ≤ k, h'.get? name = some k'

theorem Lowers.refl (h : Heights) : Lowers h h := fun _ k hk => ⟨k, Nat.le_refl k, hk⟩

theorem Lowers.trans {h'' : Heights} (hfirst : Lowers h h') (hsecond : Lowers h' h'') :
    Lowers h h'' := by
  intro name k hk
  obtain ⟨k', hle, hk'⟩ := hfirst name k hk
  obtain ⟨k'', hle', hk''⟩ := hsecond name k' hk'
  exact ⟨k'', Nat.le_trans hle' hle, hk''⟩

theorem Covers.lowers (hcovers : Covers g h n) (hlowers : Lowers h h') : Covers g h' n := by
  intro name p hp hlt
  obtain ⟨k, hle, hk⟩ := hcovers name p hp hlt
  obtain ⟨k', hle', hk'⟩ := hlowers name k hk
  exact ⟨k', Nat.le_trans hle' hle, hk'⟩

theorem lowers_lower (h : Heights) (d : Definition) : Lowers h (h.lower d) := by
  intro name k hk
  rcases get?_lower h d name with heq | ⟨-, best, -, hbest, hlt⟩
  · exact ⟨k, Nat.le_refl k, heq.trans hk⟩
  · exact ⟨best, Nat.le_of_lt (hlt k hk), hbest⟩

theorem Realised.lower (hrealised : Realised g h) (hd : d ∈ g.definitions) :
    Realised g (h.lower d) := by
  intro name k hk
  rcases get?_lower h d name with heq | ⟨rfl, best, hbest, hget, -⟩
  · exact hrealised name k (heq.symm.trans hk)
  · obtain rfl := Option.some.inj (hget.symm.trans hk)
    obtain ⟨a, ha, hheight⟩ := mem_heights_of_best? hbest
    obtain ⟨p, hvalid, rfl, rfl⟩ := hrealised.exists_phrase hheight
    exact ⟨p, ⟨⟨d, hd, rfl, ha⟩, hvalid⟩, rfl⟩

/-- A look at a definition covers its trees of one level more. -/
theorem Covers.exists_lower (hcovers : Covers g h n) (ha : p.symbols ∈ d.alternatives)
    (hvalid : p.Valid g) (hle : p.height ≤ n) :
    ∃ k ≤ p.height + 1, (h.lower d).get? d.name = some k := by
  obtain ⟨height, hheight, hsome⟩ := hcovers.exists_height hvalid hle
  obtain ⟨best, hbest, hsome⟩ := exists_best? ha hsome
  obtain ⟨k, hk, hget⟩ := exists_get?_lower hsome
  exact ⟨k, Nat.le_trans hk (Nat.le_trans hbest hheight), hget⟩

/-- Looks at some definitions keep what holds of the entries, and cover the trees of those
definitions of one level more. -/
theorem lowers_foldl {ds : List Definition} (hds : ∀ d ∈ ds, d ∈ g.definitions)
    (hrealised : Realised g h) (hcovers : Covers g h n) :
    Realised g (ds.foldl lower h) ∧ Lowers h (ds.foldl lower h) ∧
      ∀ d ∈ ds, ∀ p : Phrase, p.symbols ∈ d.alternatives → p.Valid g → p.height ≤ n →
        ∃ k ≤ p.height + 1, (ds.foldl lower h).get? d.name = some k := by
  induction ds generalizing h with
  | nil => exact ⟨hrealised, .refl h, fun d hd => absurd hd List.not_mem_nil⟩
  | cons d rest ih =>
    obtain ⟨hd, hrest⟩ := List.forall_mem_cons.mp hds
    have hlowers := lowers_lower h d
    obtain ⟨hrealised', hlowers', hcovers'⟩ :=
      ih hrest (hrealised.lower hd) (hcovers.lowers hlowers)
    refine ⟨hrealised', hlowers.trans hlowers', List.forall_mem_cons.mpr ⟨?_, hcovers'⟩⟩
    intro p ha hvalid hle
    obtain ⟨k, hk, hget⟩ := hcovers.exists_lower ha hvalid hle
    obtain ⟨k', hk', hget'⟩ := hlowers' d.name k hget
    exact ⟨k', Nat.le_trans hk' hk, hget'⟩

end Heights

namespace Grammar

open Heights

theorem realised_pass (hrealised : h.Realised g) : (g.pass h).Realised g :=
  (lowers_foldl (fun _ hd => hd) hrealised (covers_zero g h)).1

/-- **A pass covers one level more.** -/
theorem covers_pass (hrealised : h.Realised g) (hcovers : h.Covers g n) :
    (g.pass h).Covers g (n + 1) := by
  rintro name p ⟨⟨d, hd, rfl, ha⟩, hvalid⟩ hlt
  exact (lowers_foldl (fun _ hd => hd) hrealised hcovers).2.2 d hd p ha hvalid (Nat.le_of_lt_succ hlt)

/-- A pass over exact heights changes nothing. -/
theorem pass_eq_self (hexact : h.Exact g) : g.pass h = h := by
  have hlower : ∀ d ∈ g.definitions, h.lower d = h := by
    intro d hd
    rw [Heights.lower]
    split
    · rfl
    · next best hbest =>
      obtain ⟨a, ha, hheight⟩ := mem_heights_of_best? hbest
      obtain ⟨p, hvalid, rfl, rfl⟩ := hexact.realised.exists_phrase hheight
      obtain ⟨k, hk, hget⟩ := hexact.covers (p.height + 1) d.name p ⟨⟨d, hd, rfl, ha⟩, hvalid⟩
        (Nat.lt_succ_self _)
      rw [if_neg]
      simpa [hget] using hk
  rw [pass]
  generalize g.definitions = ds at hlower
  induction ds with
  | nil => rfl
  | cons d rest ih =>
    obtain ⟨hd, hrest⟩ := List.forall_mem_cons.mp hlower
    rw [List.foldl_cons, hd]
    exact ih hrest

/-- A table is exact that covers as many levels as there are definitions. -/
theorem exact_of_covers (hrealised : h.Realised g) (hcovers : h.Covers g n)
    (hlength : g.definitions.length ≤ n) : h.Exact g := by
  refine exact_iff.mpr ⟨hrealised, fun _ name p hp _ => ?_⟩
  obtain ⟨least, hle, hleast⟩ := hp.exists_isLeast
  obtain ⟨q, hq, rfl⟩ := hleast.1
  have hbound : q.height + 1 ≤ g.definitions.length := heights_le ((exact_heights g _ _).mpr hleast)
  obtain ⟨k, hk, hget⟩ := hcovers name q hq (Nat.le_trans hbound hlength)
  exact ⟨k, Nat.le_trans hk hle, hget⟩

/-- A table that a pass does not change is exact. -/
theorem exact_of_pass_eq_self (hrealised : h.Realised g) (hsame : g.pass h = h) : h.Exact g := by
  refine exact_iff.mpr ⟨hrealised, fun n => ?_⟩
  induction n with
  | zero => exact covers_zero g h
  | succ n ih => exact hsame ▸ covers_pass hrealised ih

theorem exists_ends_passes {left : Nat} (hleft : g.definitions.length ≤ n + left)
    (hrealised : h.Realised g) (hcovers : h.Covers g n) :
    ∃ count ≤ left, ∃ h' : Heights, Ends g.pass? count h h' ∧ h'.Exact g := by
  induction left generalizing n h with
  | zero =>
    have hexact : h.Exact g := exact_of_covers hrealised hcovers hleft
    exact ⟨0, Nat.le_refl 0, h, .here (if_pos (pass_eq_self hexact)), hexact⟩
  | succ left ih =>
    by_cases hsame : g.pass h = h
    · exact ⟨0, Nat.zero_le _, h, .here (if_pos hsame), exact_of_pass_eq_self hrealised hsame⟩
    · obtain ⟨count, hcount, h', hends, hexact⟩ :=
        ih (by omega) (realised_pass hrealised) (covers_pass hrealised hcovers)
      exact ⟨count + 1, Nat.succ_le_succ hcount, h', .step (if_neg hsame) hends, hexact⟩

/-- **The loop over passes ends with exact heights**, after no more passes than there are
definitions and one that changes nothing. -/
theorem ends_passes (g : Grammar) :
    ∃ count ≤ g.definitions.length, ∃ h : Heights, Ends g.pass? count [] h ∧ h.Exact g :=
  exists_ends_passes (Nat.le_of_eq (Nat.zero_add _).symm) Through.empty.realised (covers_zero g [])

end Grammar

end ContextFree

import ContextFree.Proofs.Choosing
import ContextFree.Proofs.Heights
import Mathlib.Data.List.Nodup

/-!
# Drafting sentences

A sentence is drafted from a name by a loop that holds the symbols still to be expanded, each with
the number of names above it. Terminal texts are written down as they come, and a name gives way to
an alternative of its definition. Nothing in the loop bounds its steps. Above the depth limit any
alternative with a height may be picked, so that it is the depth that runs out there; from the limit
on the lowest alternative is taken, and the names of it have lesser heights.

That an alternative with a height is never without one to follow is due to the heights being exact:
every name of it has an entry, so it has trees, and so its definition has an alternative with a
height again. A name without trees has no such alternative, and none is picked for it. Hence a fault
is met with the first name or not at all.

The definitions have to have different names. Of several with one name the first is expanded, and
the heights are those of all of them.

## Main definitions

* `ContextFree.Phrase.LowFrom` - trees that are as low as can be from a depth limit on.
* `ContextFree.Grammar.choose` - the alternative that a name is expanded by.
* `ContextFree.Grammar.fault?` - the fault that a name is met with.
* `ContextFree.Draft.step?` - the loop that expands one symbol after the other.

## Main results

* `ContextFree.Grammar.exists_grows_expand` - a name that has trees is expanded to one of them.
* `ContextFree.Grammar.runs_expand` - the loop follows the expansion of a name.
* `ContextFree.Grammar.draft_ends_low` - the loop ends with the yield of a tree of limited height.
-/

namespace ContextFree

variable {g : Grammar} {h h' : Heights} {start name : String} {a : Alternative} {d : Definition}
  {p c : Phrase} {limit depth bound n k : Nat} {w w' : Words} {sentence : List String}

/-! ### Trees of limited height -/

/-- From a depth limit on, names stand over trees of the least height that there is for them. The
names of the row are met at a depth. -/
def Phrase.LowFrom (g : Grammar) (limit : Nat) : Nat → Phrase → Prop
  | _, nil => True
  | depth, leaf _ rest => rest.LowFrom g limit depth
  | depth, node name children rest =>
    (limit ≤ depth → IsLeast (g.treeHeights name) (children.height + 1)) ∧
      children.LowFrom g limit (depth + 1) ∧ rest.LowFrom g limit depth

/-- No tree goes deeper than from the limit on by the greatest of the least heights. -/
theorem Phrase.LowFrom.height_le (hlow : p.LowFrom g limit depth)
    (hbound : ∀ name k, IsLeast (g.treeHeights name) k → k ≤ bound) :
    p.height ≤ limit - depth + bound := by
  induction p generalizing depth with
  | nil => exact Nat.zero_le _
  | leaf text rest ih => exact ih hlow
  | node name c rest ihc ih =>
    obtain ⟨hleast, hc, hrest⟩ := hlow
    refine Nat.max_le.mpr ⟨?_, ih hrest⟩
    by_cases hdepth : limit ≤ depth
    · exact Nat.le_trans (hbound name _ (hleast hdepth)) (Nat.le_add_left bound _)
    · have := ihc hc
      omega

/-- Below the limit the height of a row is that of its alternative. -/
theorem Phrase.LowFrom.height?_symbols (hlow : p.LowFrom g limit depth) (hdepth : limit ≤ depth)
    (hexact : h.Exact g) : Alternative.height? h p.symbols = some (p.height + 1) := by
  induction p with
  | nil => rfl
  | leaf text rest ih => exact ih hlow
  | node name c rest _ ih =>
    have hget : h.get? name = some (c.height + 1) := (hexact name _).mpr (hlow.1 hdepth)
    rw [symbols, Alternative.height?, hget, ih hlow.2.2, height, Nat.max_comm,
      ← Nat.add_max_add_right]

/-! ### Definitions of different names -/

/-- A name in an alternative that has a height has an entry, and a lesser height. -/
theorem Alternative.exists_get?_of_height? (ha : a.height? h = some n)
    (hname : .nonterminal name ∈ a) : ∃ k < n, h.get? name = some k := by
  induction a generalizing n with
  | nil => exact absurd hname List.not_mem_nil
  | cons symbol rest ih =>
    cases symbol with
    | terminal text =>
      rcases List.mem_cons.mp hname with heq | hname
      · exact absurd heq Symbol.noConfusion
      · exact ih ha hname
    | nonterminal first =>
      rw [height?] at ha
      split at ha
      · next below height hbelow hheight =>
        have hn : max height (below + 1) = n := Option.some.inj ha
        rcases List.mem_cons.mp hname with heq | hname
        · cases heq
          exact ⟨below, by omega, hbelow⟩
        · obtain ⟨k, hlt, hk⟩ := ih hheight hname
          exact ⟨k, by omega, hk⟩
      · exact absurd ha (Option.some_ne_none n).symm

theorem Definition.productive_congr (hget : ∀ name, h.get? name = h'.get? name) (d : Definition) :
    d.productive h = d.productive h' := by
  simp only [productive, Alternative.height?_congr hget]

namespace Grammar

/-- A name that is offered an alternative is found with it, if no other definition has the name. -/
theorem Offers.exists_find? (hnodup : (g.definitions.map Definition.name).Nodup)
    (ha : g.Offers name a) : ∃ d, g.find? name = some d ∧ a ∈ d.alternatives := by
  obtain ⟨d, hd, rfl, ha⟩ := ha
  obtain ⟨e, he⟩ : ∃ e, g.find? d.name = some e :=
    Option.isSome_iff_exists.mp (defines_iff.mpr ⟨d, hd, rfl⟩)
  have hname := List.find?_some he
  have heq : e = d := List.inj_on_of_nodup_map hnodup (List.mem_of_find?_eq_some he) hd
    (beq_iff_eq.mp hname)
  exact ⟨e, he, heq ▸ ha⟩

/-- The alternatives with a height are those over which there are trees. -/
theorem exists_isTreeOf_of_productive (hexact : h.Exact g) (hd : g.find? name = some d)
    (ha : (a, n) ∈ d.productive h) :
    ∃ p : Phrase, p.IsTreeOf g name ∧ p.symbols = a ∧ p.height + 1 = n := by
  obtain ⟨hmem, hheight⟩ := Definition.mem_productive.mp ha
  obtain ⟨p, hvalid, rfl, hn⟩ := hexact.realised.exists_phrase hheight
  exact ⟨p, ⟨offers_of_find? hd hmem, hvalid⟩, rfl, hn⟩

/-- A tree of a name has its alternative among those with a height. -/
theorem exists_mem_productive (hnodup : (g.definitions.map Definition.name).Nodup)
    (hexact : h.Exact g) (hp : p.IsTreeOf g name) :
    ∃ d, g.find? name = some d ∧ ∃ k ≤ p.height + 1, (p.symbols, k) ∈ d.productive h := by
  obtain ⟨d, hd, ha⟩ := hp.offers.exists_find? hnodup
  obtain ⟨k, hle, hk⟩ := hexact.exists_height hp.valid
  exact ⟨d, hd, k, hle, Definition.mem_productive.mpr ⟨ha, hk⟩⟩

/-! ### The alternative for a name -/

/-- If there is an alternative with a height one is selected, and the lowest if none is to be
picked. -/
theorem exists_select (hne : d.productive h ≠ []) (random : Bool) (w : Words) :
    ∃ a n, (a, n) ∈ d.productive h ∧ (select h random d w).1 = some (a, n) ∧
      (random = false → (select h random d w).2 = w ∧ ∀ x ∈ d.productive h, n ≤ x.2) := by
  cases random with
  | true =>
    obtain ⟨⟨a, n⟩, hmem, hpick⟩ := w.exists_pick hne
    exact ⟨a, n, hmem, hpick, fun hfalse => absurd hfalse.symm Bool.false_ne_true⟩
  | false =>
    obtain ⟨⟨a, n⟩, hmem, hlowest, hleast⟩ := exists_lowest hne
    exact ⟨a, n, hmem, hlowest, fun _ => ⟨rfl, hleast⟩⟩

/-- The alternative that a name is expanded by, or the fault that it is met with. -/
def choose (g : Grammar) (h : Heights) (random : Bool) (name : String) (w : Words) :
    Except SampleFault Alternative × Words :=
  match g.find? name with
  | none => (.error (.undefinedNonterminal name), w)
  | some d =>
    match select h random d w with
    | (none, w) => (.error (.unproductive name), w)
    | (some (a, _), w) => (.ok a, w)

theorem choose_of_select {random : Bool} (hd : g.find? name = some d)
    (hselect : (select h random d w).1 = some (a, n)) :
    g.choose h random name w = (.ok a, (select h random d w).2) := by
  rw [choose, hd]
  dsimp only
  rw [show select h random d w = (some (a, n), _) from Prod.ext hselect rfl]

theorem choose_congr (hget : ∀ name, h.get? name = h'.get? name) : g.choose h = g.choose h' := by
  funext random name w
  simp only [choose, select, Definition.productive_congr hget]

theorem expand_succ (g : Grammar) (h : Heights) (limit levels depth : Nat) (name : String)
    (w : Words) :
    g.expand h limit (levels + 1) depth name w =
      match g.choose h (decide (depth < limit)) name w with
      | (.error fault, w) => (.error fault, w)
      | (.ok a, w) => expandAll (g.expand h limit levels (depth + 1)) a w := by
  rw [expand, choose]
  cases g.find? name with
  | none => rfl
  | some d =>
    dsimp only
    rcases select h (decide (depth < limit)) d w with ⟨_ | ⟨a, n⟩, w'⟩
    · rfl
    · rfl

/-- **A name that has trees is given an alternative over which there are trees.** If it is not picked
it is no higher than the name itself, and no word is taken. -/
theorem exists_choose (hnodup : (g.definitions.map Definition.name).Nodup) (hexact : h.Exact g)
    (hk : h.get? name = some k) (random : Bool) (w : Words) :
    ∃ a n, g.Offers name a ∧ a.height? h = some n ∧ (g.choose h random name w).1 = .ok a ∧
      (random = false → (g.choose h random name w).2 = w ∧ n = k) := by
  obtain ⟨p, hp, hpk⟩ := hexact.realised name k hk
  obtain ⟨d, hd, m, hm, hmem⟩ := exists_mem_productive hnodup hexact hp
  obtain ⟨a, n, ha, hselect, hlowest⟩ := exists_select (List.ne_nil_of_mem hmem) random w
  obtain ⟨q, hq, rfl, hn⟩ := exists_isTreeOf_of_productive hexact hd ha
  rw [choose_of_select hd hselect]
  refine ⟨q.symbols, n, hq.offers, (Definition.mem_productive.mp ha).2, rfl, fun hrandom => ?_⟩
  obtain ⟨hsame, hleast⟩ := hlowest hrandom
  have hle : n ≤ m := hleast _ hmem
  have hge : k ≤ n := ((hexact name k).mp hk).2 ⟨q, hq, hn⟩
  exact ⟨hsame, by omega⟩

/-! ### Expanding a name that has trees -/

/-- What a row that is met at a depth is expanded to: the yield of trees of limited height, and no
word is taken from the limit on. -/
structure Grows (g : Grammar) (limit depth : Nat) (w : Words) (p : Phrase) (s : Sampled) :
    Prop where
  /-- Every name stands over one of its alternatives. -/
  valid : p.Valid g
  /-- From the limit on the trees are as low as can be. -/
  low : p.LowFrom g limit depth
  /-- The sentence is what the trees spell. -/
  spelled : s.1 = .ok p.yield
  /-- From the limit on the words are left as they are. -/
  still : limit ≤ depth → s.2 = w

theorem Grows.eq {s : Sampled} (hgrows : g.Grows limit depth w p s) : s = (.ok p.yield, s.2) :=
  Prod.ext hgrows.spelled rfl

/-- If the names of a row are expanded to what their trees spell, so is the row. -/
theorem exists_grows_expandAll {expandName : String → Words → Sampled}
    (hname : ∀ name, .nonterminal name ∈ a → ∀ w, ∃ c : Phrase,
      g.Grows limit depth w (.node name c .nil) (expandName name w)) (w : Words) :
    ∃ p : Phrase, p.symbols = a ∧ g.Grows limit depth w p (expandAll expandName a w) := by
  induction a generalizing w with
  | nil => exact ⟨.nil, rfl, trivial, trivial, rfl, fun _ => rfl⟩
  | cons symbol rest ih =>
    have hrest := ih fun name hmem => hname name (List.mem_cons_of_mem _ hmem)
    cases symbol with
    | terminal text =>
      obtain ⟨p, rfl, hp⟩ := hrest w
      refine ⟨.leaf text p, rfl, ?_⟩
      rw [expandAll, hp.eq]
      exact ⟨hp.valid, hp.low, rfl, hp.still⟩
    | nonterminal name =>
      obtain ⟨c, hc⟩ := hname name List.mem_cons_self w
      obtain ⟨p, rfl, hp⟩ := hrest (expandName name w).2
      refine ⟨.node name c p, rfl, ?_⟩
      rw [expandAll, hc.eq]
      dsimp only
      rw [hp.eq]
      refine ⟨⟨hc.valid.1, hc.valid.2.1, hp.valid⟩, ⟨hc.low.1, hc.low.2.1, hp.low⟩, ?_, ?_⟩
      · rw [Phrase.yield, Phrase.yield, Phrase.yield, List.append_nil]
      · exact fun hdepth => (hp.still hdepth).trans (hc.still hdepth)

/-- **A name that has trees is expanded to one of them.** There have to be levels enough: above the
limit as many as there are to the limit and below it together, from the limit on as many as the name
has in its lowest tree. -/
theorem exists_grows_expand (hnodup : (g.definitions.map Definition.name).Nodup)
    (hexact : h.Exact g) (hbound : ∀ name k, h.get? name = some k → k ≤ bound) {levels : Nat}
    (hk : h.get? name = some k) (habove : depth < limit → limit - depth + bound ≤ levels)
    (hbelow : limit ≤ depth → k ≤ levels) (w : Words) :
    ∃ c : Phrase, g.Grows limit depth w (.node name c .nil)
      (g.expand h limit levels depth name w) := by
  induction levels generalizing depth name k w with
  | zero =>
    obtain ⟨p, -, rfl⟩ := hexact.realised name k hk
    exact absurd hbelow (by omega)
  | succ levels ih =>
    obtain ⟨a, n, hoffers, hheight, hchoose, hlowest⟩ :=
      exists_choose hnodup hexact hk (decide (depth < limit)) w
    have hleast (hdepth : limit ≤ depth) := hlowest (decide_eq_false (Nat.not_lt.mpr hdepth))
    have hnames : ∀ name, .nonterminal name ∈ a → ∀ w, ∃ c : Phrase,
        g.Grows limit (depth + 1) w (.node name c .nil)
          (g.expand h limit levels (depth + 1) name w) := by
      intro name hname w
      obtain ⟨below, hlt, hget⟩ := Alternative.exists_get?_of_height? hheight hname
      have hle : below ≤ bound := hbound name below hget
      refine ih hget (by omega) (fun hdepth => ?_) w
      by_cases habove' : depth < limit
      · omega
      · have := (hleast (Nat.not_lt.mp habove')).2
        omega
    rw [expand_succ, show g.choose h (decide (depth < limit)) name w = (.ok a, _) from
      Prod.ext hchoose rfl]
    obtain ⟨c, rfl, hc⟩ := exists_grows_expandAll hnames (g.choose h (depth < limit) name w).2
    refine ⟨c, ⟨hoffers, hc.valid, trivial⟩, ⟨fun hdepth => ?_, hc.low, trivial⟩, ?_,
      fun hdepth => ?_⟩
    · have hsame := hc.low.height?_symbols (Nat.le_succ_of_le hdepth) hexact
      rw [← Option.some.inj (hheight.symm.trans hsame), (hleast hdepth).2]
      exact (hexact name k).mp hk
    · rw [Phrase.yield, Phrase.yield, List.append_nil]
      exact hc.spelled
    · exact (hc.still (Nat.le_succ_of_le hdepth)).trans (hleast hdepth).1

/-! ### Names with faults -/

/-- The fault that a name is met with, if it has one. -/
def fault? (g : Grammar) (name : String) : Option SampleFault :=
  if g.defines name then
    if (g.heights.get? name).isSome then none else some (.unproductive name)
  else some (.undefinedNonterminal name)

theorem fault?_eq_none_iff : g.fault? name = none ↔ ∃ p : Phrase, p.IsTreeOf g name := by
  have hdefines : (∃ p : Phrase, p.IsTreeOf g name) → g.defines name = true := by
    rintro ⟨p, ⟨d, hd, hname, -⟩, -⟩
    exact defines_iff.mpr ⟨d, hd, hname⟩
  rw [← (exact_heights g).isSome_iff] at hdefines ⊢
  rw [fault?]
  split
  · split
    · next hsome => exact ⟨fun _ => hsome, fun _ => rfl⟩
    · next hnone => exact ⟨fun h => absurd h (Option.some_ne_none _), fun h => absurd h hnone⟩
  · next hundefined =>
    exact ⟨fun h => absurd h (Option.some_ne_none _), fun h => absurd (hdefines h) hundefined⟩

theorem fault?_eq_undefined_iff {other : String} :
    g.fault? name = some (.undefinedNonterminal other) ↔
      other = name ∧ g.defines name = false := by
  grind [fault?]

theorem fault?_eq_unproductive_iff {other : String} :
    g.fault? name = some (.unproductive other) ↔
      other = name ∧ g.defines name = true ∧ ¬ ∃ p : Phrase, p.IsTreeOf g name := by
  rw [← (exact_heights g).isSome_iff]
  grind [fault?]

/-- A name with a fault has no alternative to be picked. -/
theorem productive_eq_nil_of_fault? {fault : SampleFault} (hexact : h.Exact g)
    (hfault : g.fault? name = some fault) (hd : g.find? name = some d) : d.productive h = [] := by
  have hnone : ¬ ∃ p : Phrase, p.IsTreeOf g name := by
    rw [← fault?_eq_none_iff, hfault]
    exact Option.some_ne_none fault
  refine List.eq_nil_iff_forall_not_mem.mpr fun x hx => hnone ?_
  obtain ⟨p, hp, -⟩ := exists_isTreeOf_of_productive hexact hd hx
  exact ⟨p, hp⟩

/-- A name with a fault is met with it, and no word is taken. -/
theorem choose_of_fault? {fault : SampleFault} (hexact : h.Exact g)
    (hfault : g.fault? name = some fault) (random : Bool) (w : Words) :
    g.choose h random name w = (.error fault, w) := by
  rw [choose]
  cases hd : g.find? name with
  | none =>
    have hundefined : g.defines name = false := by rw [defines, hd]; rfl
    rw [fault?_eq_undefined_iff.mpr ⟨rfl, hundefined⟩] at hfault
    cases hfault
    rfl
  | some d =>
    have hnil := productive_eq_nil_of_fault? hexact hfault hd
    have hdefined : g.defines name = true := by rw [defines, hd]; rfl
    rw [fault?, if_pos hdefined] at hfault
    split at hfault
    · cases hfault
    · cases hfault
      dsimp only
      rw [select, hnil]
      cases random with
      | true => rfl
      | false => rfl

theorem sample_of_fault? {fault : SampleFault} (hfault : g.fault? start = some fault) (limit : Nat)
    (w : Words) : g.sample start limit w = (.error fault, w) := by
  rw [sample, expand_succ, choose_of_fault? (exact_heights g) hfault]

/-- **A name without a fault is sampled from its trees.** -/
theorem exists_grows_sample (hnodup : (g.definitions.map Definition.name).Nodup)
    (hfault : g.fault? start = none) (limit : Nat) (w : Words) :
    ∃ c : Phrase, g.Grows limit 0 w (.node start c .nil) (g.sample start limit w) := by
  obtain ⟨k, hk⟩ := Option.isSome_iff_exists.mp
    ((exact_heights g).isSome_iff.mpr (fault?_eq_none_iff.mp hfault))
  have hle := heights_le hk
  exact exists_grows_expand hnodup (exact_heights g) (fun _ _ => heights_le) hk (by omega)
    (by omega) w

end Grammar

/-! ### The loop over symbols -/

/-- A sentence in the making. -/
structure Draft where
  /-- The symbols still to be expanded, each with the number of names above it. -/
  pending : List (Symbol × Nat)
  /-- The tokens so far. -/
  sentence : List String
  /-- The words that are left. -/
  words : Words
  /-- The fault that was met. -/
  fault : Option SampleFault

namespace Draft

/-- Nothing made yet from a name. -/
def begin (start : String) (w : Words) : Draft := ⟨[(.nonterminal start, 0)], [], w, none⟩

/-- What the draft comes to. -/
def result (s : Draft) : Sampled :=
  match s.fault with
  | none => (.ok s.sentence, s.words)
  | some fault => (.error fault, s.words)

/-- Expand the symbol in front, unless there is none or a fault was met: then the loop ends. -/
def step? (g : Grammar) (h : Heights) (limit : Nat) (s : Draft) : Option Draft :=
  match s.fault, s.pending with
  | none, (.terminal text, _) :: rest =>
    some { s with pending := rest, sentence := s.sentence ++ characters text }
  | none, (.nonterminal name, depth) :: rest =>
    match g.choose h (decide (depth < limit)) name s.words with
    | (.error fault, w) => some { s with words := w, fault := some fault }
    | (.ok a, w) => some { s with pending := a.map (·, depth + 1) ++ rest, words := w }
  | none, [] => none
  | some _, _ => none

end Draft

namespace Grammar

/-- The loop follows the expansion of a row if it follows that of names. -/
theorem runs_expandAll {expandName : String → Words → Sampled}
    (hname : ∀ name w sentence w', expandName name w = (.ok sentence, w') →
      ∀ rest before, ∃ count, Runs (Draft.step? g h limit) count
        ⟨(.nonterminal name, depth) :: rest, before, w, none⟩
        ⟨rest, before ++ sentence, w', none⟩)
    (hok : expandAll expandName a w = (.ok sentence, w')) (rest : List (Symbol × Nat))
    (before : List String) :
    ∃ count, Runs (Draft.step? g h limit) count
      ⟨a.map (·, depth) ++ rest, before, w, none⟩ ⟨rest, before ++ sentence, w', none⟩ := by
  induction a generalizing w sentence before with
  | nil =>
    cases hok
    exact ⟨0, (List.append_nil before).symm ▸ .done _⟩
  | cons symbol row ih =>
    cases symbol with
    | terminal text =>
      rw [expandAll] at hok
      split at hok
      · next after last heq =>
        cases hok
        obtain ⟨count, hruns⟩ := ih heq (before ++ characters text)
        exact ⟨count + 1, .step rfl (List.append_assoc before _ _ ▸ hruns)⟩
      · cases hok
    | nonterminal name =>
      rw [expandAll] at hok
      split at hok
      · cases hok
      · next front w'' hfront =>
        split at hok
        · next after last heq =>
          cases hok
          obtain ⟨count, hruns⟩ := hname name w front w'' hfront (row.map (·, depth) ++ rest) before
          obtain ⟨more, hruns'⟩ := ih heq (before ++ front)
          exact ⟨count + more, hruns.trans (List.append_assoc before _ _ ▸ hruns')⟩
        · cases hok

/-- **The loop follows the expansion of a name.** -/
theorem runs_expand {levels : Nat}
    (hok : g.expand h limit levels depth name w = (.ok sentence, w'))
    (rest : List (Symbol × Nat)) (before : List String) :
    ∃ count, Runs (Draft.step? g h limit) count
      ⟨(.nonterminal name, depth) :: rest, before, w, none⟩
      ⟨rest, before ++ sentence, w', none⟩ := by
  induction levels generalizing depth name w sentence w' rest before with
  | zero => cases hok
  | succ levels ih =>
    rw [expand_succ] at hok
    split at hok
    · cases hok
    · next a w'' hchoose =>
      obtain ⟨count, hruns⟩ := runs_expandAll (fun _ _ _ _ hok => ih hok) hok rest before
      refine ⟨count + 1, .step ?_ hruns⟩
      rw [Draft.step?]
      simp only [hchoose]

/-- The loop is led by the entries of the table alone. -/
theorem step?_congr (hget : ∀ name, h.get? name = h'.get? name) (limit : Nat) :
    Draft.step? g h limit = Draft.step? g h' limit := by
  funext s
  simp only [Draft.step?, choose_congr hget]

/-- A name with a fault is the last that is met. -/
theorem step?_begin_of_fault? {fault : SampleFault} (hexact : h.Exact g)
    (hfault : g.fault? start = some fault) (limit : Nat) (w : Words) :
    Draft.step? g h limit (.begin start w) =
      some { Draft.begin start w with fault := some fault } := by
  simp only [Draft.step?, Draft.begin, choose_of_fault? hexact hfault]

/-- **The loop ends with what is sampled.** -/
theorem exists_ends_draft (hnodup : (g.definitions.map Definition.name).Nodup)
    (hexact : h.Exact g) (start : String) (limit : Nat) (w : Words) :
    ∃ count s, Ends (Draft.step? g h limit) count (.begin start w) s ∧
      s.result = g.sample start limit w ∧ s.fault = g.fault? start := by
  cases hfault : g.fault? start with
  | some fault =>
    refine ⟨1, { Draft.begin start w with fault := some fault },
      .step (step?_begin_of_fault? hexact hfault limit w) (.here rfl), ?_, rfl⟩
    rw [sample_of_fault? hfault]
    rfl
  | none =>
    obtain ⟨c, hc⟩ := exists_grows_sample hnodup hfault limit w
    obtain ⟨count, hruns⟩ := runs_expand hc.eq [] []
    rw [step?_congr (hexact.get?_eq (exact_heights g)) limit]
    refine ⟨count, _, ⟨hruns, rfl⟩, ?_, rfl⟩
    rw [hc.eq]
    rfl

/-- No word is taken for an alternative that is not picked. -/
theorem snd_choose_false (name : String) (w : Words) : (g.choose h false name w).2 = w := by
  rw [choose]
  split
  · rfl
  · split
    · next heq => exact (congrArg Prod.snd heq).symm
    · next heq => exact (congrArg Prod.snd heq).symm

/-- A step that takes a word expands a name above the limit. -/
theorem lt_of_step?_words {s s' : Draft} (hstep : Draft.step? g h limit s = some s')
    (hwords : s'.words ≠ s.words) :
    ∃ name depth rest, s.pending = (.nonterminal name, depth) :: rest ∧ depth < limit := by
  rw [Draft.step?] at hstep
  split at hstep
  · cases hstep
    exact absurd rfl hwords
  · next name depth rest _ hpending =>
    refine ⟨name, depth, rest, hpending, Decidable.byContradiction fun hdepth => hwords ?_⟩
    rw [decide_eq_false hdepth] at hstep
    have hstill := snd_choose_false (g := g) (h := h) name s.words
    split at hstep
    · next heq =>
      cases hstep
      exact (congrArg Prod.snd heq).symm.trans hstill
    · next heq =>
      cases hstep
      exact (congrArg Prod.snd heq).symm.trans hstill
  · cases hstep
  · cases hstep

/-- **Drafting ends, and with the yield of a tree of limited height.** Let the definitions have
different names. The loop over passes ends with the heights of the grammar; under these the loop
over symbols ends with what is sampled; and a word is only ever taken to expand a name above the
limit. A sentence is the yield of a tree of the start symbol in which every name from the limit on
stands over a tree of the least height, so that the tree is no taller than the limit and the
greatest of the least heights together. -/
theorem draft_ends_low (g : Grammar) (hnodup : (g.definitions.map Definition.name).Nodup)
    (start : String) (limit : Nat) (w : Words) :
    (∃ passes ≤ g.definitions.length, ∃ h : Heights, Ends g.pass? passes [] h ∧
      (∀ name, h.get? name = g.heights.get? name) ∧
      (∃ count s, Ends (Draft.step? g h limit) count (.begin start w) s ∧
        s.result = g.sample start limit w) ∧
      ∀ s s', Draft.step? g h limit s = some s' → s'.words ≠ s.words →
        ∃ name depth rest, s.pending = (.nonterminal name, depth) :: rest ∧ depth < limit) ∧
    ∀ sentence, (g.sample start limit w).1 = .ok sentence →
      ∃ p : Phrase, p.IsTreeOf g start ∧ p.yield = sentence ∧
        (Phrase.node start p .nil).LowFrom g limit 0 ∧
        ∀ bound, (∀ name k, IsLeast (g.treeHeights name) k → k ≤ bound) →
          (Phrase.node start p .nil).height ≤ limit + bound := by
  refine ⟨?_, fun sentence hok => ?_⟩
  · obtain ⟨passes, hle, h, hends, hexact⟩ := g.ends_passes
    obtain ⟨count, s, hends', hresult, -⟩ := exists_ends_draft hnodup hexact start limit w
    exact ⟨passes, hle, h, hends, hexact.get?_eq (exact_heights g), ⟨count, s, hends', hresult⟩,
      fun _ _ => lt_of_step?_words⟩
  · cases hfault : g.fault? start with
    | some fault =>
      rw [sample_of_fault? hfault] at hok
      cases hok
    | none =>
      obtain ⟨c, hc⟩ := exists_grows_sample hnodup hfault limit w
      have hyield : (Phrase.node start c .nil).yield = sentence :=
        Except.ok.inj (hc.spelled.symm.trans hok)
      rw [Phrase.yield, Phrase.yield, List.append_nil] at hyield
      exact ⟨c, ⟨hc.valid.1, hc.valid.2.1⟩, hyield, hc.low, fun bound hbound =>
        hc.low.height_le hbound⟩

/-- Sums of letters and of sums in brackets. -/
def bracketedSums : Grammar :=
  ⟨"E", [⟨"E", [[.nonterminal "E", .terminal "+", .nonterminal "T"], [.nonterminal "T"]]⟩,
    ⟨"T", [[.terminal "(", .nonterminal "E", .terminal ")"], [.terminal "x"]]⟩]⟩

/-- Where only the root is above the limit, a sum is the yield of a tree of height three. -/
theorem sum_drafted :
    (bracketedSums.definitions.map Definition.name).Nodup ∧
      (bracketedSums.sample "E" 1 (.ofList [0])).1 = .ok ["x", "+", "x"] ∧
      ∃ p : Phrase, p.IsTreeOf bracketedSums "E" ∧ p.yield = ["x", "+", "x"] ∧
        (Phrase.node "E" p .nil).height ≤ 3 := by
  have hnodup : (bracketedSums.definitions.map Definition.name).Nodup := by decide
  have hsample : (bracketedSums.sample "E" 1 (.ofList [0])).1 = .ok ["x", "+", "x"] := by
    decide +kernel
  obtain ⟨p, hp, hyield, -, hheight⟩ :=
    (draft_ends_low bracketedSums hnodup "E" 1 (.ofList [0])).2 _ hsample
  have hbound : ∀ name k, IsLeast (bracketedSums.treeHeights name) k → k ≤ 2 :=
    fun name k hk => heights_le ((exact_heights bracketedSums name k).mpr hk)
  exact ⟨hnodup, hsample, p, hp, hyield, hheight 2 hbound⟩

end Grammar

end ContextFree

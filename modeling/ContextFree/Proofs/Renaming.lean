import ContextFree.Proofs.Replaying
import Mathlib.Data.Set.Function

/-!
# Renamed symbols

Symbols are compared with each other and with nothing else, so under an injective renaming of the
symbols every part of recognition is renamed along: the analyses of the rules, each state and with
it the chart, and the replays of the final items. Links and positions stay as they are.

Two places do not commute with a renaming and have to be passed by. The leaf below an empty rule has
the empty text as its value, whatever the renaming does to that text; and a tree is unfolded from
leaf to leaf by symbols, but only its rules are replayed. So trees are compared by their rules. And
texts, which run symbols together, are not compared at all: what is renamed is a replay, before it
is shown.

## Main definitions

* `ContextFree.Rules.rename` - a rule list under a renaming; likewise for rules, items, states,
  charts and replays.
* `ContextFree.Rules.replays` - the replays of an input that end in it.

## Main results

* `ContextFree.Rules.chart_rename` - the chart of a renamed input is the chart, renamed.
* `ContextFree.Rules.rules_tree_rename` - so are the rules of its trees.
* `ContextFree.Rules.replays_rename` - so are the replays that end in the input.
-/

namespace ContextFree

/-! ### What is renamed -/

/-- The rule with its symbols renamed. -/
def Rule.rename (f : String → String) (r : Rule) : Rule := ⟨f r.lhs, r.rhs.map f⟩

/-- The rule list with its symbols renamed. -/
def Rules.rename (f : String → String) (rules : Rules) : Rules := rules.map (Rule.rename f)

/-- The analysis with its symbols renamed. -/
def Nullable.rename (f : String → String) (n : Nullable) : Nullable := ⟨n.erasers.rename f⟩

/-- The item of the renamed rule. -/
def Item.rename (f : String → String) (x : Item) : Item := { x with rule := x.rule.rename f }

/-- The state of the renamed items. -/
def State.rename (f : String → String) (s : State) : State :=
  ⟨s.retention, s.items.map (Item.rename f), s.record.map (Item.rename f)⟩

/-- The chart of the renamed states. -/
def Chart.rename (f : String → String) (c : Chart) : Chart :=
  ⟨c.retention, c.states.map (State.rename f)⟩

/-- The replay of the renamed rules from the renamed root. -/
def Replay.rename (f : String → String) (r : Replay) : Replay :=
  ⟨f r.root, r.rules.map (Rule.rename f)⟩

/-! ### Lists -/

section

variable {α β : Type}

private theorem filter_map_eq (g : α → β) {p : β → Bool} {q : α → Bool}
    (h : ∀ a, p (g a) = q a) (l : List α) : (l.map g).filter p = (l.filter q).map g := by
  rw [List.filter_map]
  exact congrArg (List.map g) (List.filter_congr fun a _ => h a)

/-- A map that keeps the entries of a list apart keeps their first occurrences. -/
theorem eraseDups_map [DecidableEq α] [DecidableEq β] {g : α → β} {l : List α}
    (hg : Set.InjOn g {a | a ∈ l}) : (l.map g).eraseDups = l.eraseDups.map g := by
  induction l using eraseDups_induction with
  | nil => rfl
  | cons a rest ih =>
    have hrest : (rest.map g).filter (fun b => !b == g a) =
        (rest.filter fun b => !b == a).map g := by
      rw [List.filter_map]
      refine congrArg (List.map g) (List.filter_congr fun b hb => ?_)
      have hiff : g b = g a ↔ b = a :=
        ⟨fun h => hg (List.mem_cons_of_mem a hb) List.mem_cons_self h, congrArg g⟩
      simp [hiff]
    have hinj : Set.InjOn g {b | b ∈ rest.filter fun b => !b == a} :=
      hg.mono fun b hb => List.mem_cons_of_mem a (List.mem_filter.mp hb).1
    rw [List.map_cons, List.eraseDups_cons, List.eraseDups_cons, hrest, ih hinj, List.map_cons]

/-- Exploration commutes with an embedding of graphs. -/
theorem explore_map [DecidableEq α] [DecidableEq β] {g : α → β} {next : α → List α}
    {next' : β → List β} (hg : Function.Injective g) (hnext : ∀ a, next' (g a) = (next a).map g)
    (rounds : Nat) (seen frontier : List α) :
    explore next' rounds (seen.map g) (frontier.map g) =
      (explore next rounds seen frontier).map g := by
  induction rounds generalizing seen frontier with
  | zero => rfl
  | succ rounds ih =>
    rw [explore, explore, List.isEmpty_map]
    split
    · rfl
    · have hflat : (frontier.map g).flatMap next' = (frontier.flatMap next).map g := by
        simp only [List.flatMap_map, List.map_flatMap, hnext]
      have hknown : ∀ a, (!((seen ++ frontier).map g).contains (g a)) =
          !(seen ++ frontier).contains a := by
        intro a
        simp [hg.eq_iff]
      have hfresh : ((frontier.flatMap next).eraseDups.map g).filter
            (fun b => !((seen ++ frontier).map g).contains b) =
          ((frontier.flatMap next).eraseDups.filter
            fun a => !(seen ++ frontier).contains a).map g :=
        filter_map_eq g hknown _
      rw [hflat, eraseDups_map hg.injOn, ← List.map_append]
      dsimp only
      rw [hfresh, ih]

end

variable {f : String → String} {rules : Rules} {n : Nullable}

/-! ### Rules and their analyses -/

section

variable (hf : Function.Injective f)

include hf

theorem Rule.rename_injective : Function.Injective (Rule.rename f) := by
  rintro ⟨lhs, rhs⟩ ⟨lhs', rhs'⟩ h
  obtain ⟨hlhs, hrhs⟩ := Rule.mk.inj h
  rw [Rule.mk.injEq]
  exact ⟨hf hlhs, List.map_injective_iff.mpr hf hrhs⟩

theorem Replay.rename_injective : Function.Injective (Replay.rename f) := by
  rintro ⟨root, applied⟩ ⟨root', applied'⟩ h
  obtain ⟨hroot, happlied⟩ := Replay.mk.inj h
  rw [Replay.mk.injEq]
  exact ⟨hf hroot, List.map_injective_iff.mpr (Rule.rename_injective hf) happlied⟩

namespace Rules

theorem defines_rename (symbol : String) :
    (rules.rename f).defines (f symbol) = rules.defines symbol := by
  rw [defines, rename, List.any_map]
  exact congrArg rules.any (funext fun r => hf.beq_eq)

theorem of_rename (symbol : String) :
    (rules.rename f).of (f symbol) = (rules.of symbol).rename f :=
  filter_map_eq (Rule.rename f) (fun _ => hf.beq_eq) rules

end Rules

namespace Nullable

theorem contains_rename (symbol : String) :
    (n.rename f).contains (f symbol) = n.contains symbol :=
  Rules.defines_rename hf symbol

theorem all_contains_rename (row : Form) :
    (row.map f).all (n.rename f).contains = row.all n.contains := by
  rw [List.all_map]
  exact congrArg row.all (funext (contains_rename hf))

theorem add_rename (r : Rule) : (n.rename f).add (r.rename f) = (n.add r).rename f := by
  have hlhs : (n.rename f).contains (r.rename f).lhs = n.contains r.lhs := contains_rename hf r.lhs
  have hrhs : (r.rename f).rhs.all (n.rename f).contains = r.rhs.all n.contains :=
    all_contains_rename hf r.rhs
  rw [add, add, hlhs, hrhs]
  split <;> rfl

theorem pass_rename (rules : Rules) (n : Nullable) :
    (n.rename f).pass (rules.rename f) = (n.pass rules).rename f := by
  induction rules generalizing n with
  | nil => rfl
  | cons r rest ih =>
    have hstep : (n.rename f).pass (r.rename f :: Rules.rename f rest) =
        ((n.rename f).add (r.rename f)).pass (Rules.rename f rest) := rfl
    exact hstep.trans (by rw [add_rename hf, ih]; rfl)

theorem saturate_rename (rules : Rules) (passes : Nat) (n : Nullable) :
    saturate (rules.rename f) passes (n.rename f) = (saturate rules passes n).rename f := by
  induction passes generalizing n with
  | zero => rfl
  | succ passes ih =>
    have hsize : ∀ m : Nullable, (m.rename f).size = m.size := fun m => List.length_map _
    simp only [saturate, pass_rename hf, hsize]
    split
    · rfl
    · exact ih _

theorem erasureIn_rename (record : Rules) (symbol : String) :
    erasureIn (record.rename f) (f symbol) = (erasureIn record symbol).map (Rule.rename f) := by
  induction record generalizing symbol with
  | nil => rfl
  | cons e older ih =>
    have hlhs : ((e.rename f).lhs = f symbol) ↔ e.lhs = symbol := hf.eq_iff
    show erasureIn (e.rename f :: Rules.rename f older) (f symbol) = _
    rw [erasureIn, erasureIn]
    simp only [hlhs]
    split
    · simp only [Rule.rename, List.flatMap_map, ih, List.map_cons, List.map_flatMap]
    · exact ih symbol

theorem erasure_rename (symbol : String) :
    (n.rename f).erasure (f symbol) = (n.erasure symbol).map (Rule.rename f) :=
  erasureIn_rename hf n.erasers symbol

theorem leading_rename (row : Form) :
    (n.rename f).leading (row.map f) = (n.leading row).map f := by
  induction row with
  | nil => rfl
  | cons symbol rest ih =>
    rw [List.map_cons, leading, leading, contains_rename hf, ih]
    split <;> rfl

end Nullable

namespace Rules

/-- The nullable symbols of renamed rules are the nullable symbols, renamed. -/
theorem nullable_rename (rules : Rules) : (rules.rename f).nullable = rules.nullable.rename f := by
  have hempty : (rules.rename f).filter Rule.isEmpty =
      Rules.rename f (rules.filter Rule.isEmpty) :=
    filter_map_eq (Rule.rename f) (fun _ => List.isEmpty_map) rules
  have hlength : (rules.rename f).length = rules.length := List.length_map _
  have hnone : (⟨[]⟩ : Nullable) = Nullable.rename f ⟨[]⟩ := rfl
  rw [nullable, hempty, hlength, hnone, Nullable.pass_rename hf, Nullable.saturate_rename hf]
  rfl

theorem corners_rename (symbol : String) :
    (rules.rename f).corners (n.rename f) (f symbol) = (rules.corners n symbol).map f := by
  rw [corners, corners, of_rename hf]
  have hleading : ((rules.of symbol).rename f).flatMap (fun r => (n.rename f).leading r.rhs) =
      ((rules.of symbol).flatMap fun r => n.leading r.rhs).map f := by
    simp only [rename, List.flatMap_map, Rule.rename, Nullable.leading_rename hf, List.map_flatMap]
  rw [hleading, filter_map_eq f (defines_rename hf)]

theorem leftRecursive_rename (rules : Rules) (n : Nullable) :
    (rules.rename f).leftRecursive (n.rename f) = rules.leftRecursive n := by
  have hdefined : (rules.rename f).defined = rules.defined.map f := by
    simp only [defined, rename, List.map_map]
    rfl
  have hlength : (rules.rename f).length = rules.length := List.length_map _
  have hreached : ∀ symbol, reached ((rules.rename f).corners (n.rename f)) rules.length
      (f symbol) = (reached (rules.corners n) rules.length symbol).map f := by
    intro symbol
    rw [reached, reached, corners_rename hf, eraseDups_map hf.injOn]
    exact explore_map hf (corners_rename hf) rules.length [] _
  rw [leftRecursive, leftRecursive, hdefined, hlength, eraseDups_map hf.injOn, List.any_map]
  refine congrArg rules.defined.eraseDups.any (funext fun symbol => ?_)
  rw [Function.comp, hreached]
  simp [hf.eq_iff]

/-- The copies that are kept do not depend on the names of symbols. -/
theorem retention_rename (rules : Rules) (n : Nullable) :
    (rules.rename f).retention (n.rename f) = rules.retention n :=
  congrArg Retention.ofLeftRecursive (leftRecursive_rename hf rules n)

end Rules

end

/-! ### Items and states -/

namespace Item

theorem next?_rename (f : String → String) (x : Item) : (x.rename f).next? = x.next?.map f :=
  List.getElem?_map

theorem isComplete_rename (f : String → String) (x : Item) :
    (x.rename f).isComplete = x.isComplete := by
  rw [isComplete, isComplete, rename, Rule.rename, List.length_map]

variable (hf : Function.Injective f)

include hf

theorem next?_rename_beq (x : Item) (symbol : String) :
    ((x.rename f).next? == some (f symbol)) = (x.next? == some symbol) := by
  rw [next?_rename]
  cases x.next? with
  | none => rfl
  | some next => exact hf.beq_eq

theorem sameCell_rename (x y : Item) : (x.rename f).sameCell (y.rename f) = x.sameCell y := by
  rw [sameCell, sameCell, rename, rename, (Rule.rename_injective hf).beq_eq]

theorem sameCopy_rename (x y : Item) : (x.rename f).sameCopy (y.rename f) = x.sameCopy y := by
  rw [sameCopy, sameCopy, sameCell_rename hf]
  rfl

theorem spans_rename (x : Item) (symbol : String) :
    (x.rename f).spans (f symbol) = x.spans symbol := by
  rw [spans, spans, isComplete_rename]
  exact congrArg (fun b => b && x.start == 0 && x.isComplete) hf.beq_eq

end Item

namespace State

theorem get?_rename (f : String → String) (s : State) (index : Nat) :
    (s.rename f).get? index = (s.get? index).map (Item.rename f) :=
  List.getElem?_map

variable (hf : Function.Injective f)

include hf

theorem admits_rename (retention : Retention) (record : List Item) (x : Item) :
    admits retention (record.map (Item.rename f)) (x.rename f) = admits retention record x := by
  have hcell : (record.map (Item.rename f)).filter (x.rename f).sameCell =
      (record.filter x.sameCell).map (Item.rename f) :=
    filter_map_eq (Item.rename f) (Item.sameCell_rename hf x) record
  rw [admits, admits, hcell, List.length_map, List.any_map]
  exact congrArg (fun b => _ && !b)
    (congrArg record.any (funext fun y => Item.sameCopy_rename hf x y))

theorem insert_rename (s : State) (x : Item) :
    (s.rename f).insert (x.rename f) = (s.insert x).rename f := by
  have hadmits : admits (s.rename f).retention (s.rename f).record (x.rename f) =
      admits s.retention s.record x := admits_rename hf s.retention s.record x
  rw [insert, insert, hadmits]
  split
  · simp [rename]
  · rfl

theorem insertAll_rename (s : State) (items : List Item) :
    (s.rename f).insertAll (items.map (Item.rename f)) = (s.insertAll items).rename f := by
  induction items generalizing s with
  | nil => rfl
  | cons x rest ih => rw [List.map_cons, insertAll_cons, insert_rename hf, ih, insertAll_cons]

end State

namespace Chart

theorem item?_rename (f : String → String) (c : Chart) (l : Link) :
    (c.rename f).item? l = (c.item? l).map (Item.rename f) := by
  rw [item?, item?, state?, state?, rename, List.getElem?_map]
  cases c.states[l.position]? with
  | none => rfl
  | some s => exact State.get?_rename f s l.index

theorem length_rename (f : String → String) (c : Chart) : (c.rename f).length = c.length :=
  List.length_map _

theorem size_rename (f : String → String) (c : Chart) : (c.rename f).size = c.size := by
  have htotal : ∀ states : List State,
      State.total (states.map (State.rename f)) = State.total states := by
    intro states
    induction states with
    | nil => rfl
    | cons s rest ih =>
      rw [List.map_cons, State.total, State.total, ih, State.size, State.rename, List.length_map]
      rfl
  exact htotal c.states

theorem finals_rename (hf : Function.Injective f) (c : Chart) (symbol : String) :
    (c.rename f).finals (f symbol) = c.finals symbol := by
  rw [finals, finals, rename, List.getLast?_map]
  cases c.states.getLast? with
  | none => rfl
  | some last =>
    have hentries : (last.items.map (Item.rename f)).zipIdx.filter
          (fun entry => entry.1.spans (f symbol)) =
        (last.items.zipIdx.filter fun entry => entry.1.spans symbol).map
          (Prod.map (Item.rename f) id) := by
      rw [List.zipIdx_map]
      exact filter_map_eq _ (fun entry => Item.spans_rename hf entry.1 symbol) _
    simp only [Option.map_some, State.rename, hentries, List.map_map, length, List.length_map]
    rfl

end Chart

namespace Rules

/-! ### Filling a chart -/

theorem dots_rename (f : String → String) (rules : Rules) : (rules.rename f).dots = rules.dots := by
  induction rules with
  | nil => rfl
  | cons r rest ih =>
    show (r.rename f).rhs.length + 1 + dots (rename f rest) = _
    rw [ih, Rule.rename, List.length_map, dots]

section

variable (hf : Function.Injective f)

include hf

theorem completions_rename (waiting : List Item) (symbol : String) (l : Link) :
    completions (waiting.map (Item.rename f)) (f symbol) l =
      (completions waiting symbol l).map (Item.rename f) := by
  have hwaiting : (waiting.map (Item.rename f)).filter (fun p => p.next? == some (f symbol)) =
      (waiting.filter fun p => p.next? == some symbol).map (Item.rename f) :=
    filter_map_eq (Item.rename f) (fun p => Item.next?_rename_beq hf p symbol) waiting
  rw [completions, completions, hwaiting, List.map_map, List.map_map]
  rfl

theorem predictions_rename (x : Item) (symbol : String) (position : Nat) :
    (rules.rename f).predictions (n.rename f) (x.rename f) (f symbol) position =
      (rules.predictions n x symbol position).map (Item.rename f) := by
  rw [predictions, predictions, of_rename hf, Nullable.contains_rename hf, List.map_append]
  congr 1
  · simp only [rename, List.map_map]
    rfl
  · split <;> rfl

theorem offers_rename (earlier : List State) (here : State) (index : Nat) (x : Item) :
    (rules.rename f).offers (n.rename f) (earlier.map (State.rename f)) (here.rename f) index
      (x.rename f) = (rules.offers n earlier here index x).map (Item.rename f) := by
  rw [offers, offers, Item.next?_rename]
  cases x.next? with
  | none =>
    have horigin : ((earlier.map (State.rename f))[x.start]?.getD (here.rename f)) =
        (earlier[x.start]?.getD here).rename f := by
      rw [List.getElem?_map, Option.getD_map]
    have hcompleted := completions_rename hf (earlier[x.start]?.getD here).items x.rule.lhs
      ⟨earlier.length, index⟩
    simp only [Option.map_none, List.length_map]
    exact (congrArg (fun s : State => completions s.items _ _) horigin).trans hcompleted
  | some symbol =>
    simp only [Option.map_some, defines_rename hf, List.length_map]
    split
    · exact predictions_rename hf x symbol earlier.length
    · rfl

theorem walk_rename (earlier : List State) (bound index : Nat) (here : State) :
    (rules.rename f).walk (n.rename f) (earlier.map (State.rename f)) bound index (here.rename f) =
      (rules.walk n earlier bound index here).rename f := by
  induction bound generalizing index here with
  | zero => rfl
  | succ bound ih =>
    rw [walk, walk, State.get?_rename]
    cases here.get? index with
    | none => rfl
    | some x =>
      simp only [Option.map_some]
      rw [offers_rename hf, State.insertAll_rename hf, ih]

theorem close_rename (earlier : List State) (here : State) :
    (rules.rename f).close (n.rename f) (earlier.map (State.rename f)) (here.rename f) =
      (rules.close n earlier here).rename f := by
  have hroom : (rules.rename f).room (here.rename f).retention
        (earlier.map (State.rename f)).length =
      rules.room here.retention earlier.length := by
    rw [room, room, dots_rename, List.length_map]
    rfl
  rw [close, hroom, walk_rename hf]
  rfl

theorem scanned_rename (here : State) (token : String) :
    (rules.rename f).scanned (here.rename f) (f token) =
      (rules.scanned here token).map (Item.rename f) := by
  have hmoves : (here.rename f).items.filter (fun x => x.next? == some (f token)) =
      (here.items.filter fun x => x.next? == some token).map (Item.rename f) :=
    filter_map_eq (Item.rename f) (fun x => Item.next?_rename_beq hf x token) here.items
  rw [scanned, scanned, defines_rename hf, hmoves]
  split
  · rfl
  · rw [List.map_map, List.map_map]
    rfl

theorem fillFrom_rename (earlier : List State) (kernel : State) (input : List String) :
    (rules.rename f).fillFrom (n.rename f) (earlier.map (State.rename f)) (kernel.rename f)
      (input.map f) = (rules.fillFrom n earlier kernel input).map (State.rename f) := by
  induction input generalizing earlier kernel with
  | nil =>
    rw [List.map_nil, fillFrom, fillFrom, close_rename hf, List.map_append]
    rfl
  | cons token rest ih =>
    rw [List.map_cons, fillFrom, fillFrom, close_rename hf, scanned_rename hf]
    cases hmoved : rules.scanned (rules.close n earlier kernel) token with
    | nil => simp
    | cons x more =>
      have hnext : (State.empty (kernel.rename f).retention).insertAll
            ((x :: more).map (Item.rename f)) =
          ((State.empty kernel.retention).insertAll (x :: more)).rename f :=
        State.insertAll_rename hf (State.empty kernel.retention) (x :: more)
      have hearlier : earlier.map (State.rename f) ++ [(rules.close n earlier kernel).rename f] =
          (earlier ++ [rules.close n earlier kernel]).map (State.rename f) := by
        rw [List.map_append]
        rfl
      rw [List.map_cons] at hnext ⊢
      simp only [hnext, hearlier, ih]

theorem seed_rename (rules : Rules) (retention : Retention) (start : String) :
    (rules.rename f).seed retention (f start) = (rules.seed retention start).rename f := by
  have hbegun : ((rules.rename f).of (f start)).map (Item.predicted · 0) =
      ((rules.of start).map (Item.predicted · 0)).map (Item.rename f) := by
    rw [of_rename hf, rename, List.map_map, List.map_map]
    rfl
  rw [seed, hbegun]
  exact State.insertAll_rename hf (State.empty retention) _

/-- **The chart of a renamed input is the chart, renamed.** -/
theorem chart_rename (rules : Rules) (n : Nullable) (retention : Retention) (start : String)
    (input : List String) :
    (rules.rename f).chart (n.rename f) retention (f start) (input.map f) =
      (rules.chart n retention start input).rename f := by
  rw [chart, chart, seed_rename hf]
  exact congrArg (Chart.mk retention) (fillFrom_rename hf [] _ input)

end

/-! ### Trees and replays -/

/-- The rules of a row of trees are renamed if those of each tree are. -/
theorem rules_branches_rename (hf : Function.Injective f)
    {grow grow' : String → Link → Forest → Forest}
    (hgrow : ∀ value value' l rest rest', rest'.rules = rest.rules.map (Rule.rename f) →
      (grow' value' l rest').rules = (grow value l rest).rules.map (Rule.rename f))
    (row : Form) (links : List Link) :
    ((rules.rename f).branches grow' (row.map f) links).rules =
      (rules.branches grow row links).rules.map (Rule.rename f) := by
  induction row generalizing links with
  | nil => rfl
  | cons symbol rest ih =>
    rw [List.map_cons, branches.eq_def, branches.eq_def rules]
    simp only [defines_rename hf]
    split
    · cases links with
      | nil => exact ih []
      | cons l links => exact hgrow _ _ _ _ _ (ih links)
    · exact ih links

theorem rules_unfold_rename (hf : Function.Injective f) (c : Chart) (depth : Nat)
    (value value' : String) (l : Link) (rest rest' : Forest)
    (hrest : rest'.rules = rest.rules.map (Rule.rename f)) :
    ((rules.rename f).unfold (c.rename f) depth value' l rest').rules =
      (rules.unfold c depth value l rest).rules.map (Rule.rename f) := by
  induction depth generalizing value value' l rest rest' with
  | zero => exact hrest
  | succ depth ih =>
    rw [unfold, unfold, Chart.item?_rename]
    cases c.item? l with
    | none => exact hrest
    | some x =>
      have hempty : (x.rename f).rule.isEmpty = x.rule.isEmpty := List.isEmpty_map
      simp only [Option.map_some, hempty, Forest.rules, List.map_cons, List.map_append, hrest]
      congr 2
      split
      · rfl
      · exact rules_branches_rename hf ih x.rule.rhs x.provenance

/-- **The rules of a tree of the renamed chart are those of the tree, renamed.** -/
theorem rules_tree_rename (hf : Function.Injective f) (rules : Rules) (c : Chart) (l : Link) :
    ((rules.rename f).tree (c.rename f) l).rules =
      (rules.tree c l).rules.map (Rule.rename f) := by
  rw [tree, tree, Chart.size_rename]
  exact rules_unfold_rename hf c c.size _ _ l .nil .nil rfl

end Rules

namespace Form

variable (hf : Function.Injective f)

include hf

theorem apply_rename (form : Form) (r : Rule) :
    Form.apply (form.map f) (r.rename f) = (form.apply r).map f := by
  induction form with
  | nil => rfl
  | cons symbol rest ih =>
    have hlhs : f symbol = (r.rename f).lhs ↔ symbol = r.lhs := hf.eq_iff
    rw [List.map_cons, apply, apply, ih]
    simp only [hlhs]
    split
    · rw [List.map_append]
      rfl
    · rfl

theorem applyAll_rename (form : Form) (applied : List Rule) :
    Form.applyAll (form.map f) (applied.map (Rule.rename f)) = (form.applyAll applied).map f := by
  induction applied generalizing form with
  | nil => rfl
  | cons r rest ih => rw [List.map_cons, applyAll_cons, apply_rename hf, ih, applyAll_cons]

end Form

namespace Rules

/-- The replays of an input: those of its final items that end in it. -/
def replays (rules : Rules) (start : String) (input : List String) : List Replay :=
  if (rules.parse start input).1.length < input.length + 1 then []
  else (((rules.parse start input).1.finals start).map
    (rules.replay rules.nullable (rules.parse start input).1)).filter fun r => r.form = input

/-- The derivations that are reported show the replays that end in the input. -/
theorem derivations_eq (rules : Rules) (start : String) (input : List String) :
    (rules.recognize start input).derivations =
      ((rules.replays start input).map Replay.derivation).eraseDups.take derivationLimit := by
  have hshown : ∀ links : List Link,
      links.filterMap (rules.derivation? rules.nullable (rules.parse start input).1 input) =
        ((links.map (rules.replay rules.nullable (rules.parse start input).1)).filter
          fun r => r.form = input).map Replay.derivation := by
    intro links
    induction links with
    | nil => rfl
    | cons l rest ih =>
      rw [List.filterMap_cons, List.map_cons, List.filter_cons, derivation?]
      by_cases hform : (rules.replay rules.nullable (rules.parse start input).1 l).form = input
      · simp [hform, ih]
      · simp [hform, ih]
  rw [derivations_recognize, replays, hshown]
  split <;> rfl

variable (hf : Function.Injective f)

include hf

theorem form_rename (r : Replay) : (r.rename f).form = r.form.map f :=
  Form.applyAll_rename hf [r.root] r.rules

theorem replay_rename {c : Chart} {l : Link} {x : Item} (hx : c.item? l = some x) :
    (rules.rename f).replay (n.rename f) (c.rename f) l = (rules.replay n c l).rename f := by
  have hroot : rootSymbol (c.rename f) l = f (rootSymbol c l) := by
    rw [rootSymbol, rootSymbol, Chart.item?_rename, hx]
    rfl
  have herased : ∀ form : Form, (form.map f).flatMap (n.rename f).erasure =
      (form.flatMap n.erasure).map (Rule.rename f) := by
    intro form
    simp only [List.flatMap_map, Nullable.erasure_rename hf, List.map_flatMap]
  have hform : Form.applyAll [f (rootSymbol c l)] ((rules.tree c l).rules.map (Rule.rename f)) =
      (Form.applyAll [rootSymbol c l] (rules.tree c l).rules).map f :=
    Form.applyAll_rename hf [rootSymbol c l] _
  rw [replay, replay, Forest.replay, Forest.replay, hroot, rules_tree_rename hf, hform, herased,
    ← List.map_append]
  rfl

theorem parse_rename (rules : Rules) (start : String) (input : List String) :
    ((rules.rename f).parse (f start) (input.map f)).1 = (rules.parse start input).1.rename f := by
  show (rules.rename f).chart (rules.rename f).nullable
    ((rules.rename f).retention (rules.rename f).nullable) (f start) (input.map f) = _
  rw [nullable_rename hf, retention_rename hf, chart_rename hf]
  rfl

/-- **The replays of a renamed input are its replays, renamed.** -/
theorem replays_rename (rules : Rules) (start : String) (input : List String) :
    (rules.rename f).replays (f start) (input.map f) =
      (rules.replays start input).map (Replay.rename f) := by
  have hreplays : ((rules.parse start input).1.finals start).map
        ((rules.rename f).replay (rules.rename f).nullable
          ((rules.parse start input).1.rename f)) =
      (((rules.parse start input).1.finals start).map
        (rules.replay rules.nullable (rules.parse start input).1)).map (Replay.rename f) := by
    rw [List.map_map]
    refine List.map_congr_left fun l hl => ?_
    obtain ⟨-, x, hx, -⟩ := Chart.mem_finals.mp hl
    rw [nullable_rename hf, replay_rename hf hx, Function.comp]
  have hends : ∀ r : Replay,
      decide ((r.rename f).form = input.map f) = decide (r.form = input) := by
    intro r
    rw [form_rename hf, decide_eq_decide]
    exact (List.map_injective_iff.mpr hf).eq_iff
  rw [replays, replays, parse_rename hf, Chart.length_rename, List.length_map,
    Chart.finals_rename hf, hreplays, filter_map_eq (Replay.rename f) hends]
  split <;> rfl

end Rules

end ContextFree

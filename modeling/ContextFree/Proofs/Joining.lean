import ContextFree.GrammarText
import Mathlib.Data.List.Basic

/-!
# Definitions of one name

Definitions are joined by a walk over the list: each is added to the one of its name that is already
there, or else put at the end. Seen from the first definition of the list, the others fall apart
into those of its name, which are gathered in it, and the rest, which are joined among themselves.
So whatever is to be said of the joined list is shown by induction on what is left over.

## Main definitions

* `ContextFree.alternativesFor` - what a list of definitions gives to a name.
* `ContextFree.firstPlace` - where a name is first defined.

## Main results

* `ContextFree.join_cons` - the joined list seen from its first definition.
* `ContextFree.join_eq` - the joined list, name by name.
* `ContextFree.join_eq_self` - nothing is joined where names differ.
* `ContextFree.flatMap_join_perm` - no alternative is lost or repeated.
-/

namespace ContextFree

variable {d : Located Definition} {rest ds : List (Located Definition)} {name : String}

/-- The alternatives that a list of definitions gives to a name, in order. -/
def alternativesFor (ds : List Definition) (name : String) : List Alternative :=
  (ds.filter fun d => d.name == name).flatMap Definition.alternatives

/-- Where the first definition of a name is located. -/
def firstPlace (ds : List (Located Definition)) (name : String) : Location :=
  match ds.find? fun d => d.value.name == name with
  | some d => d.location
  | none => default

/-- The definitions of a list that are not of the name that one of them defines. -/
def others (d : Located Definition) (rest : List (Located Definition)) :
    List (Located Definition) :=
  rest.filter fun e => !e.value.name == d.value.name

theorem length_others_le (d : Located Definition) (rest : List (Located Definition)) :
    (others d rest).length ≤ rest.length :=
  List.length_filter_le _ _

/-- Induction on what is left over by the first definition. -/
theorem join_induction {P : List (Located Definition) → Prop} (nil : P [])
    (cons : ∀ d rest, P (others d rest) → P (d :: rest)) : ∀ ds, P ds := by
  intro ds
  induction hn : ds.length using Nat.strongRecOn generalizing ds with
  | _ n ih =>
    cases ds with
    | nil => exact nil
    | cons d rest =>
      exact cons d rest (ih _ (hn ▸ Nat.lt_succ_of_le (length_others_le d rest)) _ rfl)

/-- A definition with alternatives for its name added at its end. -/
def gathered (d : Located Definition) (more : List Alternative) : Located Definition :=
  ⟨d.location, ⟨d.value.name, d.value.alternatives ++ more⟩⟩

/-- Joining to a list gathers in its first definition what is of its name. -/
theorem foldl_joinOne_cons (ds : List (Located Definition)) (e : Located Definition)
    (joined : List (Located Definition)) :
    ds.foldl (fun joined d => joinOne d joined) (e :: joined) =
      gathered e (alternativesFor (ds.map Located.value) e.value.name) ::
        (others e ds).foldl (fun joined d => joinOne d joined) joined := by
  induction ds generalizing e joined with
  | nil => simp [gathered, alternativesFor, others]
  | cons d ds ih =>
    rw [List.foldl_cons, joinOne]
    by_cases hname : e.value.name = d.value.name
    · rw [if_pos hname, ih]
      simp [gathered, alternativesFor, others, hname]
    · have hother : d.value.name ≠ e.value.name := Ne.symm hname
      rw [if_neg hname, ih]
      simp [gathered, alternativesFor, others, hother]

/-- **The joined list seen from its first definition.** -/
theorem join_cons (d : Located Definition) (rest : List (Located Definition)) :
    join (d :: rest) = gathered d (alternativesFor (rest.map Located.value) d.value.name) ::
      join (others d rest) :=
  foldl_joinOne_cons rest d []

/-! ### Name by name -/

theorem names_others (d : Located Definition) (rest : List (Located Definition)) :
    (others d rest).map (fun e => e.value.name) =
      (rest.map fun e => e.value.name).filter fun name => !name == d.value.name := by
  rw [List.filter_map]
  rfl

/-- What the others give to another name is what the whole list gives. -/
theorem alternativesFor_others (h : name ≠ d.value.name) :
    alternativesFor ((others d rest).map Located.value) name =
      alternativesFor ((d :: rest).map Located.value) name := by
  have hfilter : (others d rest).filter (fun e => e.value.name == name) =
      rest.filter fun e => e.value.name == name := by
    rw [others, List.filter_filter]
    refine List.filter_congr fun e _ => ?_
    by_cases he : e.value.name = name
    · simp [he, h]
    · simp [he]
  have hd : (d.value.name == name) = false := by simpa using h.symm
  rw [alternativesFor, alternativesFor, List.map_cons, List.filter_cons, hd, List.filter_map,
    List.filter_map]
  exact congrArg (fun l => List.flatMap Definition.alternatives (List.map Located.value l)) hfilter

theorem firstPlace_others (h : name ≠ d.value.name) :
    firstPlace (others d rest) name = firstPlace (d :: rest) name := by
  have hd : (d.value.name == name) = false := by simpa using h.symm
  have hfind : (others d rest).find? (fun e => e.value.name == name) =
      (d :: rest).find? fun e => e.value.name == name := by
    rw [others, List.find?_filter, List.find?_cons, hd]
    refine congrArg (fun p => List.find? p rest) (funext fun e => ?_)
    by_cases he : e.value.name = name
    · simp [he, h]
    · simp [he]
  rw [firstPlace, firstPlace, hfind]

/-- **The joined list, name by name.** Each name comes once, in the order of first appearance, with
the alternatives of all its definitions, under the location of the first of them. -/
theorem join_eq (ds : List (Located Definition)) :
    join ds = (ds.map fun d => d.value.name).eraseDups.map fun name =>
      ⟨firstPlace ds name, ⟨name, alternativesFor (ds.map Located.value) name⟩⟩ := by
  induction ds using join_induction with
  | nil => rfl
  | cons d rest ih =>
    have hnames : ((d :: rest).map fun e => e.value.name).eraseDups =
        d.value.name :: ((rest.map fun e => e.value.name).filter
          fun name => !name == d.value.name).eraseDups := List.eraseDups_cons
    rw [join_cons, ih, names_others, hnames, List.map_cons]
    congr 1
    · simp [gathered, firstPlace, alternativesFor]
    · refine List.map_congr_left fun name hname => ?_
      have hne : name ≠ d.value.name := by
        simpa using (List.mem_filter.mp (List.mem_eraseDups.mp hname)).2
      rw [firstPlace_others hne, alternativesFor_others hne]

theorem names_join (ds : List (Located Definition)) :
    (join ds).map (fun d => d.value.name) = (ds.map fun d => d.value.name).eraseDups := by
  rw [join_eq, List.map_map]
  exact List.map_id _

theorem nodup_names_join (ds : List (Located Definition)) :
    ((join ds).map fun d => d.value.name).Nodup := by
  induction ds using join_induction with
  | nil => exact List.nodup_nil
  | cons d rest ih =>
    rw [join_cons, List.map_cons, List.nodup_cons]
    refine ⟨fun hmem => ?_, ih⟩
    rw [names_join, List.mem_eraseDups, names_others] at hmem
    simpa [gathered] using (List.mem_filter.mp hmem).2

theorem location_of_mem_join (h : d ∈ join ds) : d.location = firstPlace ds d.value.name := by
  rw [join_eq] at h
  obtain ⟨name, -, rfl⟩ := List.mem_map.mp h
  rfl

theorem alternatives_of_mem_join (h : d ∈ join ds) :
    d.value.alternatives = alternativesFor (ds.map Located.value) d.value.name := by
  rw [join_eq] at h
  obtain ⟨name, -, rfl⟩ := List.mem_map.mp h
  rfl

/-- Joining defines no other names. -/
theorem any_join (ds : List (Located Definition)) (name : String) :
    (join ds).any (fun e => e.value.name == name) = ds.any fun e => e.value.name == name := by
  have hmem : name ∈ (join ds).map (fun d => d.value.name) ↔
      name ∈ ds.map fun d => d.value.name := by
    rw [names_join, List.mem_eraseDups]
  rw [Bool.eq_iff_iff]
  simpa using hmem

/-- Nothing is joined where names differ. -/
theorem join_eq_self (h : (ds.map fun d => d.value.name).Nodup) : join ds = ds := by
  induction ds with
  | nil => rfl
  | cons d rest ih =>
    obtain ⟨hnot, hrest⟩ := List.nodup_cons.mp h
    have hne : ∀ e ∈ rest, e.value.name ≠ d.value.name := fun e he heq =>
      hnot (List.mem_map.mpr ⟨e, he, heq⟩)
    have hothers : others d rest = rest :=
      List.filter_eq_self.mpr fun e he => by simpa using hne e he
    have hnone : alternativesFor (rest.map Located.value) d.value.name = [] := by
      rw [alternativesFor, List.filter_map, List.filter_eq_nil_iff.mpr fun e he => by
        simpa using hne e he]
      rfl
    rw [join_cons, hothers, ih hrest, hnone, gathered, List.append_nil]

/-- **No alternative is lost or repeated.** Whatever is made of the alternatives of each name, the
joined list and the list itself come to the same, up to their order. -/
theorem flatMap_join_perm {α : Type} (ds : List (Located Definition))
    (make : String → Alternative → List α) :
    ((join ds).flatMap fun d => d.value.alternatives.flatMap (make d.value.name)).Perm
      (ds.flatMap fun d => d.value.alternatives.flatMap (make d.value.name)) := by
  induction ds using join_induction with
  | nil => exact List.Perm.refl []
  | cons d rest ih =>
    -- the rest is what is gathered in the first definition and what is left over
    have hsame : (alternativesFor (rest.map Located.value) d.value.name).flatMap
          (make d.value.name) =
        (rest.filter fun e => e.value.name == d.value.name).flatMap
          fun e => e.value.alternatives.flatMap (make e.value.name) := by
      rw [alternativesFor, List.filter_map, List.flatMap_map, List.flatMap_assoc]
      refine List.flatMap_congr fun e he => ?_
      have hname : e.value.name = d.value.name := by simpa using (List.mem_filter.mp he).2
      rw [hname]
    have hsplit := List.filter_append_perm (fun e => e.value.name == d.value.name) rest
    rw [join_cons, List.flatMap_cons, List.flatMap_cons, gathered, List.flatMap_append, hsame,
      List.append_assoc]
    refine List.Perm.append_left _ ((ih.append_left _).trans ?_)
    rw [← List.flatMap_append]
    exact hsplit.flatMap_right _

end ContextFree

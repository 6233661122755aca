import ContextFree.Folder
import ContextFree.GrammarText

/-!
# Reading a file by its name

A name is followed part by part. The way ends at the first place that is no folder, or with the name,
and what lies there is the outcome: nothing, a file that the name ends at, a file that it leads
through, or a folder. So a file is read exactly if the name leads through folders to it, also where
parts stay in place or go back, and a grammar is read from a folder exactly if its name leads to a
text of it.

## Main definitions

* `ContextFree.Folder.Stops` - where the way of a name ends.
* `ContextFree.Folder.outcome` - what reading comes to there.

## Main results

* `ContextFree.Folder.follow_exact` - a name is followed to the end of its way.
* `ContextFree.Folder.read_eq_ok_iff` - when the bytes of a file are read.
* `ContextFree.Folder.read_put` - what is put under a name is read by it.
* `ContextFree.Grammar.ofFile_read_eq_ok_iff` - when a grammar is read from a folder.
-/

namespace ContextFree

namespace Folder

variable {f : Folder} {name : String} {bytes : ByteArray} {path front other : List (List Char)}
  {rest : List (List Char)} {entry : Entry}

/-! ### The way of a name -/

/-- The parts in front lead from folder to folder, and there the way ends: at a place that is no
folder, or because no part is left. -/
structure Stops (f : Folder) (path rest front : List (List Char)) : Prop where
  /-- The parts are the first ones. -/
  first : front <+: rest
  /-- The places on the way are folders. -/
  folders : ∀ shorter, shorter <+: front → shorter ≠ front →
    f.entry? (shorter.foldl move path) = some .folder
  /-- The way does not lead on. -/
  stops : front = rest ∨ f.entry? (front.foldl move path) ≠ some .folder

/-- What reading comes to at the end of a way. -/
def outcome (f : Folder) (path rest front : List (List Char)) : Except ReadFailure ByteArray :=
  match f.entry? (front.foldl move path) with
  | none => .error .notFound
  | some .folder => .error .folder
  | some (.file bytes) => if front = rest then .ok bytes else .error .notAFolder

/-- A way has one end. -/
theorem Stops.unique (h : f.Stops path rest front) (h' : f.Stops path rest other) :
    front = other := by
  -- of two ends one would lie on the way to the other
  have hend {a b : List (List Char)} (ha : f.Stops path rest a) (hb : f.Stops path rest b)
      (hab : a <+: b) : a = b := by
    refine Decidable.byContradiction fun hne => ?_
    rcases ha.stops with rfl | hstops
    · exact hne (hab.eq_of_length_le hb.first.length_le)
    · exact hstops (hb.folders a hab hne)
  rcases List.prefix_or_prefix_of_prefix h.first h'.first with hle | hle
  · exact hend h h' hle
  · exact (hend h' h hle).symm

theorem stops_nil (hstops : rest = [] ∨ f.entry? path ≠ some .folder) : f.Stops path rest [] where
  first := List.nil_prefix
  folders := fun _ hshorter hne => absurd (List.prefix_nil.mp hshorter) hne
  stops := hstops.imp_left Eq.symm

/-- A way that begins with a step from a folder. -/
theorem Stops.cons {part : List Char} (hfolder : f.entry? path = some .folder)
    (h : f.Stops (move path part) rest front) : f.Stops path (part :: rest) (part :: front) where
  first := List.prefix_cons_inj part |>.mpr h.first
  folders := by
    intro shorter hshorter hne
    cases shorter with
    | nil => exact hfolder
    | cons head tail =>
      obtain ⟨rfl, htail⟩ := List.cons_prefix_cons.mp hshorter
      exact h.folders tail htail fun heq => hne (heq ▸ rfl)
  stops := h.stops.imp_left (congrArg (part :: ·))

theorem outcome_cons (f : Folder) (path rest front : List (List Char)) (part : List Char) :
    f.outcome path (part :: rest) (part :: front) = f.outcome (move path part) rest front := by
  simp only [outcome, List.foldl_cons, List.cons.injEq, true_and]

/-- **A name is followed to the end of its way**, from a place where something lies. -/
theorem follow_exact (rest : List (List Char)) (hpath : (f.entry? path).isSome = true) :
    ∃ front, f.Stops path rest front ∧ f.follow path rest = f.outcome path rest front := by
  induction rest generalizing path with
  | nil =>
    refine ⟨[], stops_nil (Or.inl rfl), ?_⟩
    rw [follow, outcome, List.foldl_nil]
    cases f.entry? path with
    | none => rfl
    | some entry =>
      cases entry with
      | file bytes => rfl
      | folder => rfl
  | cons part rest ih =>
    cases hentry : f.entry? path with
    | none => simp [hentry] at hpath
    | some entry =>
      cases entry with
      | file bytes =>
        refine ⟨[], stops_nil (Or.inr (by simp [hentry])), ?_⟩
        rw [follow, outcome, List.foldl_nil, hentry]
        rfl
      | folder =>
        rw [follow, hentry]
        dsimp only
        split
        · next hnext =>
          obtain ⟨front, hstops, hfollow⟩ := ih hnext
          exact ⟨part :: front, hstops.cons hentry, hfollow.trans (outcome_cons ..).symm⟩
        · next hnext =>
          have hnone : f.entry? (move path part) = none := Option.not_isSome_iff_eq_none.mp hnext
          refine ⟨[part], (stops_nil (Or.inr (by simp [hnone]))).cons hentry, ?_⟩
          rw [outcome_cons, outcome, List.foldl_nil, hnone]

/-! ### Reading -/

/-- Every part of the name but the last leads to a folder. -/
def LeadsThrough (f : Folder) (name : String) : Prop :=
  ∀ front, front <+: parts name → front ≠ parts name → f.entry? (front.foldl move []) = some .folder

/-- **A file is read exactly if its name leads through folders to it.** -/
theorem read_eq_ok_iff : f.read name = .ok bytes ↔
    '\x00' ∉ name.toList ∧ name ≠ "" ∧ f.LeadsThrough name ∧
      f.entry? (pathOf name) = some (.file bytes) := by
  rw [read]
  split
  · next hnull => simp_all
  · next hnull =>
    split
    · next hempty => simp_all
    · next hnonempty =>
      have hroot : (f.entry? []).isSome = true := rfl
      obtain ⟨front, hstops, hfollow⟩ := follow_exact (parts name) hroot
      have hname : name ≠ "" := by simpa using hnonempty
      simp only [List.contains_eq_mem, decide_eq_true_eq] at hnull
      rw [hfollow]
      constructor
      · intro hok
        rw [outcome] at hok
        split at hok
        · cases hok
        · cases hok
        · next hentry =>
          split at hok
          · next hfront =>
            subst hfront
            exact ⟨hnull, hname, hstops.folders, Except.ok.inj hok ▸ hentry⟩
          · cases hok
      · rintro ⟨-, -, hfolders, hentry⟩
        have hwhole : f.Stops [] (parts name) (parts name) :=
          ⟨List.prefix_rfl, hfolders, Or.inl rfl⟩
        obtain rfl := hstops.unique hwhole
        rw [pathOf] at hentry
        rw [outcome, hentry]
        exact if_pos rfl

/-! ### What is put into a folder -/

theorem lookup_cons_path (f : Folder) (first : List Char) (others : List (List Char)) :
    f.entry? (first :: others) = f.entries.lookup (first :: others) := rfl

theorem lookup_put (hpath : pathOf name ≠ []) :
    Folder.entry? (f.put name entry) (pathOf name) = some entry := by
  obtain ⟨first, others, heq⟩ := List.exists_cons_of_ne_nil hpath
  rw [heq, lookup_cons_path, put, heq, List.lookup_cons_self]

/-- Nothing changes under other paths. -/
theorem lookup_put_of_ne (hne : path ≠ pathOf name) :
    Folder.entry? (f.put name entry) path = f.entry? path := by
  cases path with
  | nil => rfl
  | cons first others =>
    rw [lookup_cons_path, lookup_cons_path, put, List.lookup_cons, beq_false_of_ne hne]

/-- **What is put under a name is read by it**, if the name leads through folders, and not through
the place that it ends at. -/
theorem read_put (hnull : '\x00' ∉ name.toList) (hpath : pathOf name ≠ [])
    (hfolders : f.LeadsThrough name)
    (hways : ∀ front, front <+: parts name → front ≠ parts name →
      front.foldl move [] ≠ pathOf name) :
    (f.put name (.file bytes)).read name = .ok bytes := by
  have hname : name ≠ "" := by
    rintro rfl
    exact hpath (by decide)
  refine read_eq_ok_iff.mpr ⟨hnull, hname, fun front hfront hne => ?_, lookup_put hpath⟩
  rw [lookup_put_of_ne (hways front hfront hne)]
  exact hfolders front hfront hne

/-- A name may go into a folder and back. -/
example (bytes : ByteArray) :
    (((empty.put "sub" .folder).put "g" (.file bytes)).read "sub/../g") = .ok bytes := rfl

end Folder

namespace Grammar

variable {f : Folder} {name : String} {g : Grammar}

/-- **A grammar is read from a folder** exactly if its name leads through folders to a file, and the
bytes of the file are a text of the grammar. -/
theorem ofFile_read_eq_ok_iff : ofFile name (f.read name) = .ok g ↔
    ∃ bytes text, ('\x00' ∉ name.toList ∧ name ≠ "" ∧ f.LeadsThrough name ∧
        f.entry? (Folder.pathOf name) = some (.file bytes)) ∧
      String.fromUTF8? bytes = some text ∧ ofText (.ofFile name) text = .ok g := by
  simp only [← Folder.read_eq_ok_iff]
  cases f.read name with
  | error failure =>
    simp [ofFile]
  | ok bytes =>
    rw [ofFile]
    cases htext : String.fromUTF8? bytes with
    | none => simp [htext]
    | some text => simp [htext]

end Grammar

end ContextFree

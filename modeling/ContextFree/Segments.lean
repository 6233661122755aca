/-!
# Segments of a list

A list is cut at the entries that satisfy a predicate; those entries are dropped and the segments
between them kept, empty ones included. There is always one segment more than there are cuts.

## Main definitions

* `ContextFree.segments` - the segments of a list.

## Main results

* `ContextFree.length_segments` - one segment more than cuts.
* `ContextFree.mem_of_mem_segments` - no segment holds a cut.
* `ContextFree.segments_intercalate` - lists without cuts are found again between the cuts.
-/

namespace ContextFree

variable {α : Type}

/-- The segments of a list between the entries that satisfy a predicate. -/
def segments (cut : α → Bool) : List α → List (List α)
  | [] => [[]]
  | a :: rest =>
    if cut a then [] :: segments cut rest else (segments cut rest).modifyHead (a :: ·)

theorem length_segments (cut : α → Bool) (l : List α) :
    (segments cut l).length = l.countP cut + 1 := by
  induction l with
  | nil => rfl
  | cons a rest ih => by_cases h : cut a = true <;> simp [segments, h, ih]

theorem mem_of_mem_segments {cut : α → Bool} {l s : List α} (hs : s ∈ segments cut l) :
    ∀ a ∈ s, a ∈ l ∧ cut a = false := by
  induction l generalizing s with
  | nil =>
    obtain rfl := List.mem_singleton.mp hs
    exact fun a ha => absurd ha List.not_mem_nil
  | cons b rest ih =>
    intro a ha
    rw [segments] at hs
    split at hs
    · rcases List.mem_cons.mp hs with rfl | hs
      · exact absurd ha List.not_mem_nil
      · exact ⟨List.mem_cons_of_mem _ (ih hs a ha).1, (ih hs a ha).2⟩
    · next hcut =>
      cases hseg : segments cut rest with
      | nil => simp [hseg] at hs
      | cons first others =>
        rw [hseg, List.modifyHead_cons] at hs
        rcases List.mem_cons.mp hs with rfl | hs
        · rcases List.mem_cons.mp ha with rfl | ha
          · exact ⟨List.mem_cons_self, by simpa using hcut⟩
          · have := ih (hseg ▸ List.mem_cons_self) a ha
            exact ⟨List.mem_cons_of_mem _ this.1, this.2⟩
        · have := ih (hseg ▸ List.mem_cons_of_mem _ hs) a ha
          exact ⟨List.mem_cons_of_mem _ this.1, this.2⟩

theorem segments_eq_singleton {cut : α → Bool} {s : List α} (h : ∀ a ∈ s, cut a = false) :
    segments cut s = [s] := by
  induction s with
  | nil => rfl
  | cons a rest ih =>
    rw [segments, if_neg (by simp [h a]), ih fun b hb => h b (List.mem_cons_of_mem _ hb)]
    rfl

theorem segments_append_cons {cut : α → Bool} {s : List α} {mark : α} (rest : List α)
    (h : ∀ a ∈ s, cut a = false) (hmark : cut mark = true) :
    segments cut (s ++ mark :: rest) = s :: segments cut rest := by
  induction s with
  | nil => rw [List.nil_append, segments, if_pos hmark]
  | cons a tail ih =>
    rw [List.cons_append, segments, if_neg (by simp [h a]),
      ih fun b hb => h b (List.mem_cons_of_mem _ hb)]
    rfl

/-- A cut at the end leaves an empty segment behind it. -/
theorem segments_concat {cut : α → Bool} {mark : α} (l : List α) (hmark : cut mark = true) :
    segments cut (l ++ [mark]) = segments cut l ++ [[]] := by
  induction l with
  | nil => simp [segments, hmark]
  | cons a rest ih =>
    have hne : segments cut rest ≠ [] :=
      List.ne_nil_of_length_pos (length_segments cut rest ▸ Nat.succ_pos _)
    obtain ⟨first, others, hcons⟩ := List.exists_cons_of_ne_nil hne
    rw [List.cons_append, segments, segments, ih, hcons]
    split
    · rfl
    · rfl

/-- Lists without cuts are found again between the cuts. -/
theorem segments_intercalate {cut : α → Bool} {mark : α} (hmark : cut mark = true) :
    ∀ {rows : List (List α)}, rows ≠ [] → (∀ row ∈ rows, ∀ a ∈ row, cut a = false) →
      segments cut ([mark].intercalate rows) = rows
  | [], hne, _ => absurd rfl hne
  | [row], _, h => by
    rw [List.intercalate_singleton]
    exact segments_eq_singleton (h row List.mem_cons_self)
  | row :: next :: rest, _, h => by
    rw [List.intercalate_cons_cons, List.append_assoc, List.singleton_append,
      segments_append_cons _ (h row List.mem_cons_self) hmark,
      segments_intercalate hmark (List.cons_ne_nil _ _) fun r hr => h r (List.mem_cons_of_mem _ hr)]

end ContextFree

import ContextFree.Segments

/-!
# Lines of a text

A text is cut into lines at its newlines. A carriage return right before a newline belongs to the
line end; one at the end of a text without a newline after it belongs to the line. A text that ends
with a newline has no further line.

## Main definitions

* `ContextFree.lines` - the lines of a text, without their ends.
* `ContextFree.Unbroken` - no line ends in the characters or at their end.

## Main results

* `ContextFree.lines_intercalate` - lines are found again in the text that they make.
-/

namespace ContextFree

/-- A line that ended in a newline, without the carriage return before it. -/
def dropReturn (line : List Char) : List Char :=
  if line.getLast? = some '\r' then line.dropLast else line

/-- The lines among the segments between newlines: all but the last ended in a newline, and the last
is a line only if it holds something. -/
def linesOfSegments : List (List Char) → List (List Char)
  | [] => []
  | [last] => if last.isEmpty then [] else [last]
  | line :: rest => dropReturn line :: linesOfSegments rest

/-- The lines of a text. -/
def lines (text : List Char) : List (List Char) :=
  linesOfSegments (segments (· == '\n') text)

/-- No line ends in the characters, nor is any of them lost if a newline comes after them. -/
structure Unbroken (line : List Char) : Prop where
  /-- The characters hold no newline. -/
  no_newline : '\n' ∉ line
  /-- They do not end in a carriage return. -/
  no_return : line.getLast? ≠ some '\r'

theorem dropReturn_of_unbroken {line : List Char} (h : Unbroken line) : dropReturn line = line :=
  if_neg h.no_return

theorem linesOfSegments_eq_self : ∀ {rows : List (List Char)},
    (∀ row ∈ rows, row ≠ [] ∧ Unbroken row) → linesOfSegments rows = rows
  | [], _ => rfl
  | [last], h => by
    rw [linesOfSegments, if_neg (by simpa using (h last List.mem_cons_self).1)]
  | line :: next :: rest, h => by
    rw [linesOfSegments, dropReturn_of_unbroken (h line List.mem_cons_self).2,
      linesOfSegments_eq_self fun row hrow => h row (List.mem_cons_of_mem _ hrow)]
    exact List.cons_ne_nil _ _

theorem linesOfSegments_append_nil : ∀ {rows : List (List Char)},
    (∀ row ∈ rows, Unbroken row) → linesOfSegments (rows ++ [[]]) = rows
  | [], _ => rfl
  | line :: rest, h => by
    rw [List.cons_append, linesOfSegments, dropReturn_of_unbroken (h line List.mem_cons_self),
      linesOfSegments_append_nil fun row hrow => h row (List.mem_cons_of_mem _ hrow)]
    exact List.append_ne_nil_of_right_ne_nil rest (List.cons_ne_nil _ _)

/-- **Lines are found again in the text that they make**, whether or not the last of them is ended
by a newline. -/
theorem lines_intercalate {rows : List (List Char)} (hne : rows ≠ [])
    (h : ∀ row ∈ rows, row ≠ [] ∧ Unbroken row) :
    lines (['\n'].intercalate rows) = rows ∧ lines (['\n'].intercalate rows ++ ['\n']) = rows := by
  have hcut : ∀ row ∈ rows, ∀ c ∈ row, (c == '\n') = false := fun row hrow c hc =>
    beq_eq_false_iff_ne.mpr fun heq => (h row hrow).2.no_newline (heq ▸ hc)
  have hsegments : segments (· == '\n') (['\n'].intercalate rows) = rows :=
    segments_intercalate rfl hne hcut
  have hended : segments (· == '\n') (['\n'].intercalate rows ++ ['\n']) = rows ++ [[]] := by
    rw [segments_concat _ rfl, hsegments]
  rw [lines, lines, hsegments, hended]
  exact ⟨linesOfSegments_eq_self h, linesOfSegments_append_nil fun row hrow => (h row hrow).2⟩

end ContextFree

import ContextFree.Proofs.Loop
import ContextFree.Proofs.Tokens

/-!
# Quoted text, piece by piece

What stands between quotes is a row of pieces. A piece is a character by itself, other than a quote
and a backslash, or a backslash and the letter of an escape. Any characters are a row of pieces and
then something that is no piece: a quote, a backslash before a letter of no escape, or the end,
which may come right after a backslash. Reading goes through the pieces and is decided by what stops
it, so each result is had by the characters of one form and by no others.

Reading is also a loop that takes all characters that stand for themselves at once and escapes one
by one. A turn after which the loop goes on has read an escape, so the loop ends.

## Main definitions

* `ContextFree.Quoted.Piece` - the pieces of quoted text.
* `ContextFree.Quoted.Stop` - what is no piece.
* `ContextFree.Quoted.protect` - a text with no escapes but those of quotes and backslashes.
* `ContextFree.Quoted.turn?` - one turn of the loop.

## Main results

* `ContextFree.Quoted.read_spell` - what is read of pieces and of what stops them.
* `ContextFree.Quoted.exists_spell` - all characters are of this form.
* `ContextFree.Quoted.ends_turn` - the loop ends, with what is read.
* `ContextFree.Token.takeQuoted_exact` - **which characters are read as which text, and which are at
  fault**.
-/

namespace ContextFree

namespace Quoted

variable {cs text rest : List Char} {c d : Char}

/-! ### Pieces and what stops them -/

/-- A piece of quoted text. -/
inductive Piece where
  /-- A character that stands for itself. -/
  | plain (c : Char) (not_quote : c ≠ '"') (not_backslash : c ≠ '\\')
  /-- An escaped newline. -/
  | newline
  /-- An escaped tab. -/
  | tab
  /-- An escaped quote. -/
  | quote
  /-- An escaped backslash. -/
  | backslash

namespace Piece

/-- The piece as it is written. -/
def written : Piece → List Char
  | plain c _ _ => [c]
  | newline => ['\\', 'n']
  | tab => ['\\', 't']
  | quote => ['\\', '"']
  | backslash => ['\\', '\\']

/-- The character that the piece stands for. -/
def char : Piece → Char
  | plain c _ _ => c
  | newline => '\n'
  | tab => '\t'
  | quote => '"'
  | backslash => '\\'

/-- The piece for a character, an escape only if the character cannot stand for itself. -/
def ofChar (c : Char) : Piece :=
  if hquote : c = '"' then quote
  else if hbackslash : c = '\\' then backslash
  else plain c hquote hbackslash

@[simp] theorem char_ofChar (c : Char) : (ofChar c).char = c := by
  unfold ofChar
  split
  · next h => exact h.symm
  · split
    · next h => exact h.symm
    · rfl

end Piece

/-- A row of pieces as it is written. -/
def spell (pieces : List Piece) : List Char := pieces.flatMap Piece.written

/-- The text that a row of pieces stands for. -/
def meant (pieces : List Piece) : List Char := pieces.map Piece.char

/-- A text as it is written with no escapes but those of quotes and backslashes. -/
def protect (text : List Char) : List Char := spell (text.map Piece.ofChar)

theorem meant_map_ofChar (text : List Char) : meant (text.map Piece.ofChar) = text := by
  rw [meant, List.map_map]
  exact (List.map_congr_left fun c _ => Piece.char_ofChar c).trans (List.map_id text)

/-- The letters of escapes. -/
def escapes : List Char := ['n', 't', '"', '\\']

/-- What is no piece of quoted text. -/
inductive Stop where
  /-- A quote, and what comes after it. -/
  | closed (rest : List Char)
  /-- A backslash before a letter of no escape, and what comes after it. -/
  | unknownEscape (c : Char) (not_escape : c ∉ escapes) (rest : List Char)
  /-- The end of the characters. -/
  | ended
  /-- The end of the characters behind a backslash. -/
  | cut

namespace Stop

/-- The characters from where the pieces stop. -/
def written : Stop → List Char
  | closed rest => '"' :: rest
  | unknownEscape c _ rest => '\\' :: c :: rest
  | ended => []
  | cut => ['\\']

/-- What reading comes to when pieces that stand for a text are stopped. -/
def reading (text : List Char) : Stop → Reading
  | closed rest => .closed text rest
  | unknownEscape c _ rest => .unknownEscape c rest
  | ended => .unclosed
  | cut => .unclosed

theorem cons_reading (c : Char) (text : List Char) (stop : Stop) :
    (stop.reading text).cons c = stop.reading (c :: text) := by
  cases stop <;> rfl

end Stop

theorem unescape_eq_none_iff : unescape c = none ↔ c ∉ escapes := by
  unfold unescape
  split <;> simp_all [escapes]

/-- The letter of an escape makes a piece with the backslash before it. -/
theorem exists_piece_of_unescape (h : unescape c = some d) :
    ∃ piece : Piece, piece.written = ['\\', c] := by
  unfold unescape at h
  split at h
  · exact ⟨.newline, rfl⟩
  · exact ⟨.tab, rfl⟩
  · exact ⟨.quote, rfl⟩
  · exact ⟨.backslash, rfl⟩
  · exact absurd h (by simp)

/-! ### Reading pieces -/

theorem read_written_append (piece : Piece) (rest : List Char) :
    read (piece.written ++ rest) = (read rest).cons piece.char := by
  cases piece with
  | plain c hquote hbackslash => exact read_cons rest hquote hbackslash
  | newline => rfl
  | tab => rfl
  | quote => rfl
  | backslash => rfl

theorem read_stop (stop : Stop) : read stop.written = stop.reading [] := by
  cases stop with
  | closed rest => rfl
  | unknownEscape c hc rest =>
    rw [Stop.written, read, unescape_eq_none_iff.mpr hc]
    rfl
  | ended => rfl
  | cut => rfl

/-- **Reading goes through the pieces and is decided by what stops them.** -/
theorem read_spell (pieces : List Piece) (stop : Stop) :
    read (spell pieces ++ stop.written) = stop.reading (meant pieces) := by
  induction pieces with
  | nil => exact read_stop stop
  | cons piece pieces ih =>
    rw [spell, List.flatMap_cons, List.append_assoc, read_written_append, ← spell, ih]
    exact Stop.cons_reading piece.char (meant pieces) stop

/-- All characters are pieces up to something that is none. -/
theorem exists_spell (cs : List Char) :
    ∃ (pieces : List Piece) (stop : Stop), cs = spell pieces ++ stop.written := by
  fun_induction read cs with
  | case1 => exact ⟨[], .ended, rfl⟩
  | case2 rest => exact ⟨[], .closed rest, rfl⟩
  | case3 => exact ⟨[], .cut, rfl⟩
  | case4 c rest d hd ih =>
    obtain ⟨piece, hpiece⟩ := exists_piece_of_unescape hd
    obtain ⟨pieces, stop, rfl⟩ := ih
    exact ⟨piece :: pieces, stop, by simp [spell, hpiece]⟩
  | case5 c rest hc => exact ⟨[], .unknownEscape c (unescape_eq_none_iff.mp hc) rest, rfl⟩
  | case6 c rest hquote hend hescape ih =>
    have hbackslash : c ≠ '\\' := by
      rintro rfl
      cases rest with
      | nil => exact hend rfl rfl
      | cons d rest => exact hescape d rest rfl rfl
    obtain ⟨pieces, stop, rfl⟩ := ih
    exact ⟨.plain c hquote hbackslash :: pieces, stop, rfl⟩

theorem read_eq_iff {r : Reading} :
    read cs = r ↔ ∃ (pieces : List Piece) (stop : Stop),
      cs = spell pieces ++ stop.written ∧ r = stop.reading (meant pieces) := by
  constructor
  · rintro rfl
    obtain ⟨pieces, stop, rfl⟩ := exists_spell cs
    exact ⟨pieces, stop, rfl, read_spell pieces stop⟩
  · rintro ⟨pieces, stop, rfl, rfl⟩
    exact read_spell pieces stop

theorem read_eq_closed_iff :
    read cs = .closed text rest ↔
      ∃ pieces, cs = spell pieces ++ '"' :: rest ∧ text = meant pieces := by
  rw [read_eq_iff]
  constructor
  · rintro ⟨pieces, stop, rfl, hr⟩
    cases stop with
    | closed rest' =>
      obtain ⟨rfl, rfl⟩ := Reading.closed.inj hr
      exact ⟨pieces, rfl, rfl⟩
    | unknownEscape | ended | cut => exact Reading.noConfusion hr
  · rintro ⟨pieces, rfl, rfl⟩
    exact ⟨pieces, .closed rest, rfl, rfl⟩

theorem read_eq_unknownEscape_iff :
    read cs = .unknownEscape c rest ↔
      c ∉ escapes ∧ ∃ pieces, cs = spell pieces ++ '\\' :: c :: rest := by
  rw [read_eq_iff]
  constructor
  · rintro ⟨pieces, stop, rfl, hr⟩
    cases stop with
    | unknownEscape c' hc rest' =>
      obtain ⟨rfl, rfl⟩ := Reading.unknownEscape.inj hr
      exact ⟨hc, pieces, rfl⟩
    | closed | ended | cut => exact Reading.noConfusion hr
  · rintro ⟨hc, pieces, rfl⟩
    exact ⟨pieces, .unknownEscape c hc rest, rfl, rfl⟩

theorem read_eq_unclosed_iff :
    read cs = .unclosed ↔ ∃ pieces, cs = spell pieces ∨ cs = spell pieces ++ ['\\'] := by
  rw [read_eq_iff]
  constructor
  · rintro ⟨pieces, stop, rfl, hr⟩
    cases stop with
    | ended => exact ⟨pieces, .inl (List.append_nil _)⟩
    | cut => exact ⟨pieces, .inr rfl⟩
    | closed | unknownEscape => exact Reading.noConfusion hr
  · rintro ⟨pieces, rfl | rfl⟩
    · exact ⟨pieces, .ended, (List.append_nil _).symm, rfl⟩
    · exact ⟨pieces, .cut, rfl, rfl⟩

/-- A protected text is read up to its closing quote. -/
theorem read_protect (text rest : List Char) :
    read (protect text ++ '"' :: rest) = .closed text rest :=
  read_eq_closed_iff.mpr ⟨_, rfl, (meant_map_ofChar text).symm⟩

/-! ### The loop -/

/-- Where the loop that reads quoted text is. -/
inductive Stage where
  /-- So much of the text has been read, and these characters are unread. -/
  | within (text unread : List Char)
  /-- The loop has ended with a result. -/
  | over (reading : Reading)

/-- The character stands for itself. -/
def isPlain (c : Char) : Bool := c != '"' && c != '\\'

/-- One turn of the loop: all characters up to a quote or a backslash, and then an escape or the end
of the loop. -/
def turn? : Stage → Option Stage
  | .over _ => none
  | .within text unread =>
    let text := text ++ unread.takeWhile isPlain
    match unread.dropWhile isPlain with
    | '"' :: rest => some (.over (.closed text rest))
    | '\\' :: c :: rest =>
      match unescape c with
      | some d => some (.within (text ++ [d]) rest)
      | none => some (.over (.unknownEscape c rest))
    | _ => some (.over .unclosed)

/-- Put characters in front of the text that was read. -/
def Reading.prepend (text : List Char) (reading : Reading) : Reading :=
  text.foldr Reading.cons reading

namespace Reading

theorem prepend_append (front text : List Char) (reading : Reading) :
    reading.prepend (front ++ text) = (reading.prepend text).prepend front := List.foldr_append

@[simp] theorem prepend_closed (front text rest : List Char) :
    (closed text rest).prepend front = closed (front ++ text) rest := by
  induction front with
  | nil => rfl
  | cons c front ih => exact congrArg (cons c) ih

@[simp] theorem prepend_unknownEscape (front : List Char) (c : Char) (rest : List Char) :
    (unknownEscape c rest).prepend front = unknownEscape c rest := by
  induction front with
  | nil => rfl
  | cons d front ih => exact congrArg (cons d) ih

@[simp] theorem prepend_unclosed (front : List Char) : unclosed.prepend front = unclosed := by
  induction front with
  | nil => rfl
  | cons c front ih => exact congrArg (cons c) ih

end Reading

/-- Characters that stand for themselves are read all at once. -/
theorem read_eq_prepend (cs : List Char) :
    read cs = (read (cs.dropWhile isPlain)).prepend (cs.takeWhile isPlain) := by
  induction cs with
  | nil => rfl
  | cons c cs ih =>
    by_cases hc : isPlain c = true
    · have hne : c ≠ '"' ∧ c ≠ '\\' := by simpa [isPlain] using hc
      rw [List.dropWhile_cons_of_pos hc, List.takeWhile_cons_of_pos hc, read_cons _ hne.1 hne.2, ih]
      rfl
    · rw [List.dropWhile_cons_of_neg hc, List.takeWhile_cons_of_neg hc]
      rfl

/-- The loop stops at the end, at a quote or at a backslash. -/
theorem dropWhile_isPlain_cases (cs : List Char) :
    cs.dropWhile isPlain = [] ∨ (∃ rest, cs.dropWhile isPlain = '"' :: rest) ∨
      ∃ rest, cs.dropWhile isPlain = '\\' :: rest := by
  cases hdrop : cs.dropWhile isPlain with
  | nil => exact .inl rfl
  | cons c rest =>
    have hc : isPlain c = false := by
      have hhead := List.head_dropWhile_not (p := isPlain) (l := cs) (by simp [hdrop])
      simpa [hdrop] using hhead
    have heq : c = '"' ∨ c = '\\' := by
      by_contra hne
      simp_all [isPlain]
    rcases heq with rfl | rfl
    · exact .inr (.inl ⟨rest, rfl⟩)
    · exact .inr (.inr ⟨rest, rfl⟩)

/-- **The loop ends, with what is read.** -/
theorem ends_turn (text unread : List Char) :
    ∃ count ≤ unread.length + 1,
      Ends turn? count (.within text unread) (.over ((read unread).prepend text)) := by
  induction hlength : unread.length using Nat.strongRecOn generalizing text unread with
  | _ n ih =>
    rw [read_eq_prepend, ← Reading.prepend_append]
    have hdropped := (List.dropWhile_sublist (l := unread) isPlain).length_le
    -- a loop that ends in this turn
    have hlast : ∀ {r}, turn? (.within text unread) = some (.over r) →
        ∃ count ≤ n + 1, Ends turn? count (.within text unread) (.over r) := fun hturn =>
      ⟨1, Nat.le_add_left 1 n, .step hturn (.here rfl)⟩
    rcases dropWhile_isPlain_cases unread with hdrop | ⟨rest, hdrop⟩ | ⟨rest, hdrop⟩
    · exact hlast (by simp [turn?, hdrop, read])
    · exact hlast (by simp [turn?, hdrop, read])
    · cases rest with
      | nil => exact hlast (by simp [turn?, hdrop, read])
      | cons c rest =>
        cases hc : unescape c with
        | none => exact hlast (by simp [turn?, hdrop, read, hc])
        | some d =>
          rw [hdrop, List.length_cons, List.length_cons] at hdropped
          obtain ⟨count, hcount, hends⟩ :=
            ih rest.length (by omega) (text ++ unread.takeWhile isPlain ++ [d]) rest rfl
          have hturn : turn? (.within text unread) =
              some (.within (text ++ unread.takeWhile isPlain ++ [d]) rest) := by
            simp only [turn?, hdrop, hc]
          rw [Reading.prepend_append] at hends
          refine ⟨count + 1, by omega, .step hturn ?_⟩
          rw [hdrop, read, hc]
          exact hends

end Quoted

namespace Token

open Quoted

variable {c : Char} {body rest : List Char} {token : Token} {fault : Fault}

theorem takeQuoted_eq_ok_iff :
    takeQuoted (c :: body) = (.ok token, rest) ↔
      ∃ text, read body = .closed text rest ∧ token = .quoted (String.ofList text) := by
  rw [takeQuoted, List.drop_succ_cons, List.drop_zero]
  cases read body with
  | closed text after => simp [eq_comm, and_comm]
  | unknownEscape => simp
  | unclosed => simp

theorem takeQuoted_eq_error_iff :
    takeQuoted (c :: body) = (.error fault, rest) ↔
      (∃ x, read body = .unknownEscape x rest ∧ fault = .unknownEscape x) ∨
        read body = .unclosed ∧ fault = .unmatchedQuote ∧ rest = [] := by
  rw [takeQuoted, List.drop_succ_cons, List.drop_zero]
  cases read body with
  | closed => simp
  | unknownEscape x after => simp [eq_comm, and_comm]
  | unclosed => simp [eq_comm]

/-- **Which characters are read as which text, and which are at fault.** Whatever the first
character is, those after it are read as a text exactly if they begin with its pieces and a quote;
they have an unknown escape exactly if pieces are stopped by a backslash and a letter of no escape;
and the quote is unmatched exactly if there are only pieces up to the end or to a backslash there.
Nothing else happens. So a text is read back, whatever comes after the closing quote. -/
theorem takeQuoted_exact (c : Char) :
    (∀ body token rest, takeQuoted (c :: body) = (.ok token, rest) ↔
      ∃ pieces, body = spell pieces ++ '"' :: rest ∧
        token = .quoted (String.ofList (meant pieces))) ∧
    (∀ body x rest, takeQuoted (c :: body) = (.error (.unknownEscape x), rest) ↔
      x ∉ escapes ∧ ∃ pieces, body = spell pieces ++ '\\' :: x :: rest) ∧
    (∀ body rest, takeQuoted (c :: body) = (.error .unmatchedQuote, rest) ↔
      rest = [] ∧ ∃ pieces, body = spell pieces ∨ body = spell pieces ++ ['\\']) ∧
    (∀ body, ∃ rest,
      (∃ text, takeQuoted (c :: body) = (.ok (.quoted text), rest)) ∨
      (∃ x, takeQuoted (c :: body) = (.error (.unknownEscape x), rest)) ∨
      takeQuoted (c :: body) = (.error .unmatchedQuote, rest)) ∧
    ∀ text rest,
      takeQuoted (c :: (protect text ++ '"' :: rest)) =
        (.ok (.quoted (String.ofList text)), rest) ∧
      takeQuoted (c :: (write text ++ '"' :: rest)) =
        (.ok (.quoted (String.ofList text)), rest) := by
  refine ⟨fun body token rest => ?_, fun body x rest => ?_, fun body rest => ?_,
    fun body => ?_, fun text rest => ⟨?_, ?_⟩⟩
  · rw [takeQuoted_eq_ok_iff]
    constructor
    · rintro ⟨text, hread, rfl⟩
      obtain ⟨pieces, hbody, rfl⟩ := read_eq_closed_iff.mp hread
      exact ⟨pieces, hbody, rfl⟩
    · rintro ⟨pieces, hbody, rfl⟩
      exact ⟨_, read_eq_closed_iff.mpr ⟨pieces, hbody, rfl⟩, rfl⟩
  · rw [takeQuoted_eq_error_iff, ← read_eq_unknownEscape_iff]
    simp
  · rw [takeQuoted_eq_error_iff, read_eq_unclosed_iff]
    simp [and_comm]
  · cases hread : read body with
    | closed text rest => exact ⟨rest, .inl ⟨_, takeQuoted_eq_ok_iff.mpr ⟨text, hread, rfl⟩⟩⟩
    | unknownEscape x rest =>
      exact ⟨rest, .inr (.inl ⟨x, takeQuoted_eq_error_iff.mpr (.inl ⟨x, hread, rfl⟩)⟩)⟩
    | unclosed =>
      exact ⟨[], .inr (.inr (takeQuoted_eq_error_iff.mpr (.inr ⟨hread, rfl, rfl⟩)))⟩
  · exact takeQuoted_eq_ok_iff.mpr ⟨text, read_protect text rest, rfl⟩
  · exact takeQuoted_eq_ok_iff.mpr ⟨text, read_write text rest, rfl⟩

end Token

end ContextFree

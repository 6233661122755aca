import ContextFree.Proofs.Quoting

/-!
# One token after the other

A step of the reader takes a token or a blank from the front of a line. What it takes is told by the
first character, and by how far arrow characters and names go on. There are six ways, and what is
proved of a line is proved step by step, one case for each way.

The reader is also a loop over a line, with a token added at the back in most turns. Nothing in it
bounds the turns: it asks for arrow characters that might not be there, and a name might be empty.
But each turn does what a step does, so it takes a character at least, and the loop ends with the
tokens of the line or with its fault.

## Main definitions

* `ContextFree.Token.TakesName`, `ContextFree.Token.Takes` - the ways to take a name, and to take a
  token or a blank.
* `ContextFree.Token.Scan`, `ContextFree.Token.turn?` - the loop over a line.
* `ContextFree.Token.nameTurn?` - the loop that takes a name.

## Main results

* `ContextFree.Token.step_eq_ok_iff` - a step takes in these ways and in no other.
* `ContextFree.Token.lex_induction` - induction over the steps of a line.
* `ContextFree.Token.advance_eq` - a turn of the loop is a step.
* `ContextFree.Token.ends_turn` - the loop ends, with what is read of the line.
-/

namespace ContextFree

namespace Token

variable {c : Char} {cs rest after word : List Char} {t : Option Token} {ts : List Token}
  {fault : Fault}

/-! ### Taking a name -/

theorem atArrow_eq_false (rest : List Char) (hcolon : c ≠ ':') (hdash : c ≠ '-') :
    atArrow (c :: rest) = false := by
  refine Bool.eq_false_iff.mpr fun h => ?_
  rcases atArrow_iff.mp h with hfront | hfront
  · exact hdash (List.cons_prefix_cons.mp hfront).1.symm
  · exact hcolon (List.cons_prefix_cons.mp hfront).1.symm

/-- The characters are a name, as far as it goes, and those after it. -/
inductive TakesName : List Char → List Char → List Char → Prop where
  /-- The name ends with the characters. -/
  | nil : TakesName [] [] []
  /-- The name ends before a character that it cannot hold, or before an arrow. -/
  | stop {c : Char} {rest : List Char} (h : isNameChar c = false ∨ atArrow (c :: rest) = true) :
      TakesName (c :: rest) [] (c :: rest)
  /-- The name holds the character. -/
  | char {c : Char} {rest word after : List Char} (hchar : isNameChar c = true)
      (harrow : atArrow (c :: rest) = false) (htail : TakesName rest word after) :
      TakesName (c :: rest) (c :: word) after

theorem takesName_takeName (cs : List Char) : TakesName cs (takeName cs).1 (takeName cs).2 := by
  induction cs with
  | nil => exact .nil
  | cons c rest ih =>
    rw [takeName]
    split
    · next h =>
      rw [Bool.and_eq_true, Bool.not_eq_true'] at h
      exact .char h.1 h.2 ih
    · next h =>
      refine .stop ?_
      by_contra hnot
      simp_all

theorem TakesName.takeName_eq (h : TakesName cs word after) : takeName cs = (word, after) := by
  induction h with
  | nil => rfl
  | stop h => rcases h with h | h <;> simp [takeName, h]
  | char hchar harrow _ ih => simp [takeName, hchar, harrow, ih]

theorem takeName_eq_iff : takeName cs = (word, after) ↔ TakesName cs word after := by
  constructor
  · intro h
    have htakes := takesName_takeName cs
    rwa [h] at htakes
  · exact TakesName.takeName_eq

namespace TakesName

theorem append_eq (h : TakesName cs word after) : cs = word ++ after := by
  induction h with
  | nil => rfl
  | stop => rfl
  | char _ _ _ ih => exact congrArg (_ :: ·) ih

theorem isNameChar (h : TakesName cs word after) : ∀ c ∈ word, isNameChar c = true := by
  induction h with
  | nil => simp
  | stop => simp
  | char hchar _ _ ih => exact List.forall_mem_cons.mpr ⟨hchar, ih⟩

/-- A name ends before the short arrow. -/
theorem no_arrow (h : TakesName cs word after) : ¬ ['-', '>'] <:+: word := by
  induction h with
  | nil => simp
  | stop => simp
  | @char c rest word after _ harrow htail ih =>
    rw [List.infix_cons_iff, not_or]
    refine ⟨fun hfront => ?_, ih⟩
    have hlonger : ['-', '>'] <+: c :: (word ++ after) :=
      hfront.trans (List.prefix_append (c :: word) after)
    rw [← htail.append_eq] at hlonger
    exact absurd (atArrow_iff.mpr (.inl hlonger)) (Bool.eq_false_iff.mp harrow)

/-- A name by itself is taken as a whole, before a blank and whatever else comes then. -/
theorem detached (h : TakesName cs word after) (hrest : Detached rest) :
    TakesName (word ++ rest) word rest :=
  takeName_eq_iff.mp (takeName_append hrest h.isNameChar h.no_arrow)

end TakesName

/-! ### Arrow characters in front -/

theorem isArrowChar_of_mem_takeWhile (h : c ∈ cs.takeWhile isArrowChar) : isArrowChar c = true :=
  List.all_eq_true.mp List.all_takeWhile c h

theorem dropWhile_of_takeWhile_eq_nil (h : cs.takeWhile isArrowChar = []) :
    cs.dropWhile isArrowChar = cs := by
  have hsplit := List.takeWhile_append_dropWhile (p := isArrowChar) (l := cs)
  rwa [h] at hsplit

/-- What comes after the arrow characters does not begin with one. -/
theorem takeWhile_eq_nil_of_dropWhile (h : cs.dropWhile isArrowChar = word ++ after) :
    word.takeWhile isArrowChar = [] := by
  cases word with
  | nil => rfl
  | cons c word =>
    have hhead := List.head_dropWhile_not (p := isArrowChar) (l := cs) (by simp [h])
    simp only [h, List.cons_append, List.head_cons] at hhead
    rw [List.takeWhile_cons_of_neg (by simp [hhead])]

/-! ### Taking a token -/

/-- What is taken from characters is a token or a blank, and what is left comes after it. -/
inductive Takes (c : Char) (rest : List Char) : Option Token → List Char → Prop where
  /-- The arrow characters in front spell an arrow. -/
  | arrow (h : isArrow (c :: rest.takeWhile isArrowChar) = true) :
      Takes c rest (some .equals) (rest.dropWhile isArrowChar)
  /-- They spell none, and begin a name. -/
  | sign {word after : List Char} (hc : c = '=' ∨ c = ':' ∨ c = '-')
      (h : isArrow (c :: rest.takeWhile isArrowChar) = false)
      (hname : TakesName (rest.dropWhile isArrowChar) word after) :
      Takes c rest (some (.name (String.ofList (c :: (rest.takeWhile isArrowChar ++ word))))) after
  /-- A bar. -/
  | bar (hc : c = '|') : Takes c rest (some .or) rest
  /-- A quoted text. -/
  | quoted {text after : List Char} (hc : c = '"')
      (hread : Quoted.read rest = .closed text after) :
      Takes c rest (some (.quoted (String.ofList text))) after
  /-- A blank. -/
  | blank (hc : isBlank c = true) : Takes c rest none rest
  /-- A name that begins with no arrow character but the tip. -/
  | word {word after : List Char} (hchar : isNameChar c = true) (hcolon : c ≠ ':') (hdash : c ≠ '-')
      (hname : TakesName rest word after) :
      Takes c rest (some (.name (String.ofList (c :: word)))) after

theorem isStart_iff :
    (c == '=' || c == ':' || c == '-') = true ↔ c = '=' ∨ c = ':' ∨ c = '-' := by
  simp [or_assoc]

theorem isArrowChar_of_start (h : c = '=' ∨ c = ':' ∨ c = '-') : isArrowChar c = true := by
  rcases h with rfl | rfl | rfl <;> decide

theorem isArrow_cons (h : isArrow (c :: cs) = true) : c = '=' ∨ c = ':' ∨ c = '-' := by
  simp only [isArrow, Bool.or_eq_true, beq_iff_eq, List.cons.injEq] at h
  rcases h with (⟨rfl, -⟩ | ⟨rfl, -⟩) | ⟨rfl, -⟩ <;> simp

theorem isNameChar_iff :
    isNameChar c = true ↔ isBlank c = false ∧ c ≠ '|' ∧ c ≠ '"' ∧ c ≠ '=' := by
  simp [isNameChar, and_assoc]

theorem ne_of_isBlank (hc : isBlank c = true) :
    (c ≠ '=' ∧ c ≠ ':' ∧ c ≠ '-') ∧ c ≠ '|' ∧ c ≠ '"' := by
  refine ⟨⟨?_, ?_, ?_⟩, ?_, ?_⟩
  all_goals
    rintro rfl
    exact absurd hc (by decide)

theorem Takes.step_eq (h : Takes c rest t after) : step c rest = .ok (t, after) := by
  cases h with
  | arrow h =>
    have hstart := isStart_iff.mpr (isArrow_cons h)
    simp only [step, hstart, h, if_true]
  | sign hc h hname =>
    have hstart := isStart_iff.mpr hc
    simp only [step, hstart, h, if_true, hname.takeName_eq, List.cons_append]
    rfl
  | bar hc =>
    subst hc
    rfl
  | quoted hc hread =>
    subst hc
    rw [step, takeQuoted_eq_ok_iff.mpr ⟨_, hread, rfl⟩]
    rfl
  | blank hc =>
    obtain ⟨⟨hequal, hcolon, hdash⟩, hbar, hquote⟩ := ne_of_isBlank hc
    simp [step, hequal, hcolon, hdash, hbar, hquote, hc]
  | word hchar hcolon hdash hname =>
    obtain ⟨hblank, hbar, hquote, hequal⟩ := isNameChar_iff.mp hchar
    simp [step, hblank, hbar, hquote, hequal, hcolon, hdash, hname.takeName_eq]

theorem step_quote_of_fault {left : List Char}
    (h : takeQuoted ('"' :: rest) = (.error fault, left)) : step '"' rest = .error fault := by
  rw [step, h]
  rfl

/-- Something is taken, or there is a fault in quoted text. -/
theorem exists_takes (c : Char) (rest : List Char) :
    (∃ t after, Takes c rest t after) ∨
      ∃ fault left, c = '"' ∧ takeQuoted (c :: rest) = (.error fault, left) := by
  by_cases hquote : c = '"'
  · cases hread : takeQuoted (c :: rest) with
    | mk result after =>
      cases result with
      | error fault => exact .inr ⟨fault, after, hquote, rfl⟩
      | ok token =>
        obtain ⟨text, htext, rfl⟩ := takeQuoted_eq_ok_iff.mp hread
        exact .inl ⟨_, _, .quoted hquote htext⟩
  · left
    by_cases hstart : c = '=' ∨ c = ':' ∨ c = '-'
    · cases harrow : isArrow (c :: rest.takeWhile isArrowChar) with
      | true => exact ⟨_, _, .arrow harrow⟩
      | false => exact ⟨_, _, .sign hstart harrow (takesName_takeName _)⟩
    · by_cases hbar : c = '|'
      · exact ⟨_, _, .bar hbar⟩
      · cases hblank : isBlank c with
        | true => exact ⟨_, _, .blank hblank⟩
        | false =>
          obtain ⟨hequal, hcolon, hdash⟩ := by simpa only [not_or] using hstart
          have hchar := isNameChar_iff.mpr ⟨hblank, hbar, hquote, hequal⟩
          exact ⟨_, _, .word hchar hcolon hdash (takesName_takeName _)⟩

/-- **A step takes in these ways and in no other.** -/
theorem step_eq_ok_iff : step c rest = .ok (t, after) ↔ Takes c rest t after := by
  refine ⟨fun h => ?_, Takes.step_eq⟩
  rcases exists_takes c rest with ⟨t', after', htakes⟩ | ⟨fault, left, rfl, hfault⟩
  · obtain ⟨rfl, rfl⟩ := Prod.mk.inj (Except.ok.inj (h.symm.trans htakes.step_eq))
    exact htakes
  · exact absurd (h.symm.trans (step_quote_of_fault hfault)) (by simp)

/-- A step finds a fault in quoted text only. -/
theorem step_eq_error_iff :
    step c rest = .error fault ↔
      c = '"' ∧ ∃ left, takeQuoted (c :: rest) = (.error fault, left) := by
  constructor
  · intro h
    rcases exists_takes c rest with ⟨t, after, htakes⟩ | ⟨fault', left, rfl, hfault⟩
    · exact absurd (h.symm.trans htakes.step_eq) (by simp)
    · obtain rfl := Except.error.inj (h.symm.trans (step_quote_of_fault hfault))
      exact ⟨rfl, left, hfault⟩
  · rintro ⟨rfl, left, hfault⟩
    exact step_quote_of_fault hfault

/-! ### The tokens of a line -/

theorem lex_cons (h : Takes c rest t after) :
    lex (c :: rest) = (lex after).map (t.toList ++ ·) := by
  rw [lex]
  split
  · next fault hstep => exact absurd (h.step_eq.symm.trans hstep) (by simp)
  · next t' after' hstep =>
    obtain ⟨rfl, rfl⟩ := Prod.mk.inj (Except.ok.inj (h.step_eq.symm.trans hstep))
    cases lex after <;> rfl

theorem lex_cons_of_fault (h : step c rest = .error fault) : lex (c :: rest) = .error fault := by
  rw [lex]
  split
  · next fault' hstep => exact congrArg _ (Except.error.inj (hstep.symm.trans h))
  · next t' after' hstep => exact absurd (h.symm.trans hstep) (by simp)

/-- Induction over the steps of a line, up to its end or a fault. -/
theorem lex_induction {P : List Char → Prop} (nil : P [])
    (fault : ∀ {c rest fault}, step c rest = .error fault → P (c :: rest))
    (takes : ∀ {c rest t after}, Takes c rest t after → P after → P (c :: rest)) :
    ∀ cs, P cs
  | [] => nil
  | c :: rest => by
    cases h : step c rest with
    | error => exact fault h
    | ok taken =>
      obtain ⟨t, after⟩ := taken
      exact takes (step_eq_ok_iff.mp h) (lex_induction nil fault takes after)
termination_by cs => cs.length
decreasing_by exact Nat.lt_succ_of_le (length_le_of_step h)

/-! ### The loops of the reader -/

/-- One turn of the loop that takes a name, from what is taken of it and the characters that are
unread. -/
def nameTurn? : List Char × List Char → Option (List Char × List Char)
  | (_, []) => none
  | (word, c :: rest) =>
    if isNameChar c && !atArrow (c :: rest) then some (word ++ [c], rest) else none

/-- The loop takes a character in each turn, and ends with the name. -/
theorem ends_nameTurn (taken : List Char) (h : TakesName cs word after) :
    Ends nameTurn? word.length (taken, cs) (taken ++ word, after) := by
  induction h generalizing taken with
  | nil => exact (List.append_nil taken).symm ▸ .here rfl
  | stop h =>
    rw [List.append_nil]
    exact .here (by rcases h with h | h <;> simp [nameTurn?, h])
  | @char c _ _ _ hchar harrow _ ih =>
    have hends := ih (taken ++ [c])
    rw [List.append_assoc, List.singleton_append] at hends
    exact .step (by simp [nameTurn?, hchar, harrow]) hends

/-- The arrow characters that characters begin with, as an arrow or as the beginning of a name, or
nothing if there are none. -/
def takeArrow (cs : List Char) : Option Token × List Char :=
  let run := cs.takeWhile isArrowChar
  let t :=
    if isArrow run then some .equals
    else if run.isEmpty then none
    else some (.name (String.ofList run))
  (t, cs.dropWhile isArrowChar)

theorem takeArrow_of_isArrow (h : isArrow (c :: rest.takeWhile isArrowChar) = true) :
    takeArrow (c :: rest) = (some .equals, rest.dropWhile isArrowChar) := by
  have hc := isArrowChar_of_start (isArrow_cons h)
  simp only [takeArrow, List.takeWhile_cons_of_pos hc, List.dropWhile_cons_of_pos hc, h, if_true]

theorem takeArrow_of_not_isArrow (hc : isArrowChar c = true)
    (h : isArrow (c :: rest.takeWhile isArrowChar) = false) :
    takeArrow (c :: rest) = (some (.name (String.ofList (c :: rest.takeWhile isArrowChar))),
      rest.dropWhile isArrowChar) := by
  simp only [takeArrow, List.takeWhile_cons_of_pos hc, List.dropWhile_cons_of_pos hc, h]
  rfl

/-- A line on its way. -/
structure Scan where
  /-- The tokens so far. -/
  tokens : List Token
  /-- The characters that are unread. -/
  unread : List Char

/-- What becomes of the tokens so far when the next character is met. -/
def advance (tokens : List Token) (c : Char) (rest : List Char) : Except Fault Scan :=
  if c == '=' || c == ':' || c == '-' then
    match takeArrow (c :: rest) with
    | (some (.name start), after) =>
      let (word, after) := takeName after
      .ok ⟨tokens ++ [.name (start ++ String.ofList word)], after⟩
    | (some token, after) => .ok ⟨tokens ++ [token], after⟩
    | (none, after) => .ok ⟨tokens, after⟩
  else if c == '|' then .ok ⟨tokens ++ [.or], rest⟩
  else if c == '"' then
    match takeQuoted (c :: rest) with
    | (.ok token, after) => .ok ⟨tokens ++ [token], after⟩
    | (.error fault, _) => .error fault
  else if !isBlank c then
    let (word, after) := takeName (c :: rest)
    .ok ⟨tokens ++ [.name (String.ofList word)], after⟩
  else .ok ⟨tokens, rest⟩

/-- One turn of the loop over a line, which ends at a fault and at the end of the line. -/
def turn? : Except Fault Scan → Option (Except Fault Scan)
  | .error _ => none
  | .ok ⟨_, []⟩ => none
  | .ok ⟨tokens, c :: rest⟩ => some (advance tokens c rest)

/-- **A turn of the loop is a step.** -/
theorem advance_eq (tokens : List Token) (c : Char) (rest : List Char) :
    advance tokens c rest =
      (step c rest).map fun (t, after) => ⟨tokens ++ t.toList, after⟩ := by
  rcases exists_takes c rest with ⟨t, after, htakes⟩ | ⟨fault, left, rfl, hfault⟩
  · rw [htakes.step_eq]
    cases htakes with
    | arrow h =>
      rw [advance, if_pos (isStart_iff.mpr (isArrow_cons h)), takeArrow_of_isArrow h]
      rfl
    | sign hc h hname =>
      rw [advance, if_pos (isStart_iff.mpr hc),
        takeArrow_of_not_isArrow (isArrowChar_of_start hc) h]
      simp only [hname.takeName_eq, ← String.ofList_append]
      rfl
    | bar hc =>
      subst hc
      rfl
    | quoted hc hread =>
      subst hc
      rw [advance, takeQuoted_eq_ok_iff.mpr ⟨_, hread, rfl⟩]
      rfl
    | blank hc =>
      obtain ⟨⟨hequal, hcolon, hdash⟩, hbar, hquote⟩ := ne_of_isBlank hc
      simp [advance, hequal, hcolon, hdash, hbar, hquote, hc, Except.map]
    | word hchar hcolon hdash hname =>
      obtain ⟨hblank, hbar, hquote, hequal⟩ := isNameChar_iff.mp hchar
      have hlonger := TakesName.char hchar (atArrow_eq_false rest hcolon hdash) hname
      simp [advance, hequal, hcolon, hdash, hbar, hquote, hblank, hlonger.takeName_eq, Except.map]
  · rw [step_quote_of_fault hfault, advance, hfault]
    rfl

theorem length_lt_of_takes (h : Takes c rest t after) : after.length < (c :: rest).length :=
  Nat.lt_succ_of_le (length_le_of_step h.step_eq)

/-- A turn takes a character at least. -/
theorem length_lt_of_advance {tokens : List Token} {s : Scan}
    (h : advance tokens c rest = .ok s) : s.unread.length < (c :: rest).length := by
  rw [advance_eq] at h
  cases hstep : step c rest with
  | error fault => simp [hstep, Except.map] at h
  | ok taken =>
    rw [hstep] at h
    obtain rfl := Except.ok.inj h
    exact length_lt_of_takes (step_eq_ok_iff.mp hstep)

/-- **The loop ends, with what is read of the line.** -/
theorem ends_turn (tokens : List Token) (line : List Char) :
    ∃ count ≤ line.length, Ends turn? count (.ok ⟨tokens, line⟩)
      ((lex line).map fun ts => ⟨tokens ++ ts, []⟩) := by
  induction line using lex_induction generalizing tokens with
  | nil =>
    refine ⟨0, Nat.le_refl 0, ?_⟩
    rw [lex, Except.map, List.append_nil]
    exact .here rfl
  | @fault c rest fault hstep =>
    rw [lex_cons_of_fault hstep]
    refine ⟨1, Nat.le_add_left 1 _, .step ?_ (.here rfl)⟩
    rw [turn?, advance_eq, hstep]
    rfl
  | @takes c rest t after htakes ih =>
    obtain ⟨count, hcount, hends⟩ := ih (tokens ++ t.toList)
    have hturn : turn? (.ok ⟨tokens, c :: rest⟩) = some (.ok ⟨tokens ++ t.toList, after⟩) := by
      rw [turn?, advance_eq, htakes.step_eq]
      rfl
    refine ⟨count + 1, Nat.lt_of_le_of_lt hcount (length_lt_of_takes htakes), .step hturn ?_⟩
    rw [lex_cons htakes]
    cases hlex : lex after <;> simpa [hlex, Except.map] using hends

end Token

end ContextFree

import ContextFree.Proofs.Lexing
import ContextFree.Proofs.Writing

/-!
# Blanks around the arrow

A name is ended by an arrow right behind it, so a blank before the arrow makes no difference. Behind
the arrow it may: the characters of arrows are taken together as far as they go, and if they go on
after the arrow they spell none, but begin a name. So the blank may be left out exactly if no such
character comes next, unless the line has a fault anyway. Whether it has depends on its quoted texts
alone, and blanks between tokens are outside of them.

## Main definitions

* `ContextFree.IsWord` - a name that holds neither colons nor dashes.
* `ContextFree.Token.firstFault` - the first fault of the quoted texts of a line.

## Main results

* `ContextFree.Token.lex_eq_error_iff` - the fault of a line is that of its quoted texts.
* `ContextFree.Token.arrow_spacing` - **where blanks around an arrow matter**.
-/

namespace ContextFree

/-- The text is a name without colons and dashes: letters of any script, digits and underscores are
in it, and whatever else a name may hold. -/
structure IsWord (name : List Char) : Prop where
  /-- The name is not empty. -/
  ne_nil : name ≠ []
  /-- A name may hold its characters, and no arrow but the shortest begins with one of them. -/
  chars : ∀ c ∈ name, Token.isNameChar c = true ∧ c ≠ ':' ∧ c ≠ '-'

theorem code_of_isAlphanum {c : Char} (h : (c.isAlphanum || c == '_') = true) :
    (0x30 ≤ c.toNat ∧ c.toNat ≤ 0x39) ∨ (0x41 ≤ c.toNat ∧ c.toNat ≤ 0x7A) := by
  change (((decide ('A'.val ≤ c.val ∧ c.val ≤ 'Z'.val) || 'a'.val ≤ c.val && c.val ≤ 'z'.val) ||
    '0'.val ≤ c.val && c.val ≤ '9'.val) || c == '_') = true at h
  simp only [Bool.or_eq_true, Bool.and_eq_true, decide_eq_true_eq, beq_iff_eq,
    UInt32.le_iff_toNat_le] at h
  rcases h with ((h | h) | h) | rfl
  · exact .inr ⟨h.1, h.2.trans (by decide)⟩
  · exact .inr ⟨le_trans (by decide) h.1, h.2⟩
  · exact .inl h
  · decide

/-- Letters and digits of the ASCII range and underscores make such a name. -/
theorem isWord_of_isAlphanum {name : List Char} (hne : name ≠ [])
    (h : (name.all fun c => c.isAlphanum || c == '_') = true) : IsWord name where
  ne_nil := hne
  chars c hc := by
    have hcode := code_of_isAlphanum (List.all_eq_true.mp h c hc)
    have hblank : isBlank c = false := by
      rw [isBlank, Bool.eq_false_iff]
      simp only [Bool.or_eq_true, Bool.and_eq_true, decide_eq_true_eq, beq_iff_eq, ne_eq]
      omega
    refine ⟨Token.isNameChar_iff.mpr ⟨hblank, ?_, ?_, ?_⟩, ?_, ?_⟩
    all_goals
      rintro rfl
      exact absurd hcode (by decide)

namespace Token

variable {c : Char} {cs rest after front name : List Char} {t : Option Token} {fault : Fault}
  {arrow : Arrow}

/-! ### The fault of a line -/

/-- The first fault of the quoted texts of a line. -/
def firstFault : List Char → Option Fault
  | [] => none
  | c :: rest =>
    if c = '"' then
      match h : Quoted.read rest with
      | .closed _ after =>
        have : after.length < rest.length + 1 := Nat.lt_succ_of_le (Quoted.length_le_of_read h)
        firstFault after
      | .unknownEscape x _ => some (.unknownEscape x)
      | .unclosed => some .unmatchedQuote
    else firstFault rest
termination_by cs => cs.length

theorem firstFault_append (h : '"' ∉ front) : firstFault (front ++ cs) = firstFault cs := by
  induction front with
  | nil => rfl
  | cons c front ih =>
    rw [List.mem_cons, not_or] at h
    rw [List.cons_append, firstFault, if_neg (Ne.symm h.1), ih h.2]

theorem firstFault_quote {text : List Char} (h : Quoted.read rest = .closed text after) :
    firstFault ('"' :: rest) = firstFault after := by
  rw [firstFault, if_pos rfl]
  split
  · next h' =>
    obtain ⟨rfl, rfl⟩ := Quoted.Reading.closed.inj (h.symm.trans h')
    rfl
  · next h' => exact absurd (h.symm.trans h') Quoted.Reading.noConfusion
  · next h' => exact absurd (h.symm.trans h') Quoted.Reading.noConfusion

theorem firstFault_quote_of_fault {left : List Char}
    (h : takeQuoted ('"' :: rest) = (.error fault, left)) :
    firstFault ('"' :: rest) = some fault := by
  rw [firstFault, if_pos rfl]
  rcases takeQuoted_eq_error_iff.mp h with ⟨x, hread, rfl⟩ | ⟨hread, rfl, -⟩
  · split <;> simp_all
  · split <;> simp_all

theorem quote_not_mem_takeWhile (cs : List Char) : '"' ∉ cs.takeWhile isArrowChar := fun h =>
  absurd (isArrowChar_of_mem_takeWhile h) (by decide)

theorem TakesName.quote_not_mem {word : List Char} (h : TakesName cs word after) : '"' ∉ word :=
  fun hmem => absurd (h.isNameChar _ hmem) (by decide)

/-- Nothing that is taken holds a quote, unless it begins with one. -/
theorem Takes.exists_front (h : Takes c rest t after) (hc : c ≠ '"') :
    ∃ front, '"' ∉ front ∧ c :: rest = front ++ after := by
  cases h with
  | arrow h =>
    refine ⟨c :: rest.takeWhile isArrowChar, ?_, ?_⟩
    · simp [Ne.symm hc, quote_not_mem_takeWhile]
    · rw [List.cons_append, List.takeWhile_append_dropWhile]
  | @sign word _ hstart h hname =>
    refine ⟨c :: (rest.takeWhile isArrowChar ++ word), ?_, ?_⟩
    · simp [Ne.symm hc, quote_not_mem_takeWhile, hname.quote_not_mem]
    · rw [List.cons_append, List.append_assoc, ← hname.append_eq, List.takeWhile_append_dropWhile]
  | bar => exact ⟨[c], by simpa using Ne.symm hc, rfl⟩
  | quoted hquote => exact absurd hquote hc
  | blank => exact ⟨[c], by simpa using Ne.symm hc, rfl⟩
  | @word word _ hchar hcolon hdash hname =>
    refine ⟨c :: word, ?_, ?_⟩
    · simp [Ne.symm hc, hname.quote_not_mem]
    · rw [List.cons_append, ← hname.append_eq]

theorem firstFault_of_takes (h : Takes c rest t after) :
    firstFault (c :: rest) = firstFault after := by
  by_cases hc : c = '"'
  · subst hc
    cases h with
    | quoted _ hread => exact firstFault_quote hread
    | arrow h => exact absurd (isArrow_cons h) (by decide)
    | sign h => exact absurd h (by decide)
    | bar h => exact absurd h (by decide)
    | blank h => exact absurd h (by decide)
    | word h => exact absurd h (by decide)
  · obtain ⟨front, hfront, heq⟩ := h.exists_front hc
    rw [heq, firstFault_append hfront]

/-- **The fault of a line is that of its quoted texts.** -/
theorem lex_eq_error_iff : lex cs = .error fault ↔ firstFault cs = some fault := by
  induction cs using lex_induction with
  | nil => simp [lex, firstFault]
  | fault hstep =>
    obtain ⟨rfl, left, htake⟩ := step_eq_error_iff.mp hstep
    rw [lex_cons_of_fault hstep, firstFault_quote_of_fault htake]
    simp
  | takes htakes ih =>
    rw [lex_cons htakes, firstFault_of_takes htakes, ← ih]
    cases lex _ <;> simp [Except.map]

/-- What holds no quote does not change the fault. -/
theorem lex_append_eq_error (hfront : '"' ∉ front) (h : lex cs = .error fault) :
    lex (front ++ cs) = .error fault := by
  rw [lex_eq_error_iff] at h ⊢
  rw [firstFault_append hfront, h]

/-! ### Names and blanks -/

/-- A name goes on to where a name would end at once. -/
theorem takesName_append (hchars : ∀ c ∈ name, isNameChar c = true ∧ c ≠ ':' ∧ c ≠ '-')
    (hrest : TakesName rest [] rest) : TakesName (name ++ rest) name rest := by
  induction name with
  | nil => exact hrest
  | cons c name ih =>
    obtain ⟨hchar, hcolon, hdash⟩ := hchars c List.mem_cons_self
    exact .char hchar (atArrow_eq_false _ hcolon hdash)
      (ih fun d hd => hchars d (List.mem_cons_of_mem _ hd))

theorem lex_word (hname : IsWord name) (hrest : TakesName rest [] rest) :
    lex (name ++ rest) = (lex rest).map (.name (String.ofList name) :: ·) := by
  obtain ⟨c, tail, rfl⟩ := List.exists_cons_of_ne_nil hname.ne_nil
  obtain ⟨hchar, hcolon, hdash⟩ := hname.chars c List.mem_cons_self
  have htail := takesName_append (fun d hd => hname.chars d (List.mem_cons_of_mem _ hd)) hrest
  exact lex_cons (.word hchar hcolon hdash htail)

theorem lex_blank_cons (rest : List Char) : lex (' ' :: rest) = lex rest := by
  rw [lex_cons (.blank rfl)]
  cases lex rest <;> rfl

/-! ### Arrows -/

/-- An arrow ends a name. -/
theorem takesName_arrow (arrow : Arrow) (rest : List Char) :
    TakesName (arrow.written ++ rest) [] (arrow.written ++ rest) := by
  cases arrow with
  | equals => exact .stop (.inl rfl)
  | tip => exact .stop (.inr rfl)
  | colons => exact .stop (.inr rfl)

/-- An arrow begins as one and goes on with arrow characters. More of them spell no arrow. -/
theorem exists_written_eq (arrow : Arrow) : ∃ c tail, arrow.written = c :: tail ∧
    (c = '=' ∨ c = ':' ∨ c = '-') ∧ (∀ d ∈ tail, isArrowChar d = true) ∧
    ∀ run, isArrow (c :: (tail ++ run)) = run.isEmpty := by
  cases arrow with
  | equals => exact ⟨_, _, rfl, .inl rfl, by simp, fun run => by cases run <;> simp [isArrow]⟩
  | tip =>
    exact ⟨_, _, rfl, .inr (.inr rfl), by simp [isArrowChar],
      fun run => by cases run <;> simp [isArrow]⟩
  | colons =>
    exact ⟨_, _, rfl, .inr (.inl rfl), by simp [isArrowChar],
      fun run => by cases run <;> simp [isArrow]⟩

theorem quote_not_mem_written (arrow : Arrow) : '"' ∉ arrow.written := by cases arrow <;> decide

theorem takeWhile_isArrowChar_eq_nil_iff :
    rest.takeWhile isArrowChar = [] ↔ ∀ c ∈ rest.head?, isArrowChar c = false := by
  cases rest <;> simp [List.takeWhile_cons]

/-- An arrow is taken if no arrow character comes next. -/
theorem lex_arrow (arrow : Arrow) (hrest : rest.takeWhile isArrowChar = []) :
    lex (arrow.written ++ rest) = (lex rest).map (.equals :: ·) := by
  obtain ⟨c, tail, hwritten, -, htail, hspells⟩ := exists_written_eq arrow
  have hdrop : rest.dropWhile isArrowChar = rest := dropWhile_of_takeWhile_eq_nil hrest
  have htakes : Takes c (tail ++ rest) (some .equals) rest := by
    have harrow : isArrow (c :: (tail ++ rest).takeWhile isArrowChar) = true := by
      rw [List.takeWhile_append_of_pos htail, hspells, hrest]
      rfl
    have h := Takes.arrow harrow
    rwa [List.dropWhile_append_of_pos htail, hdrop] at h
  rw [hwritten]
  exact lex_cons htakes

/-- Otherwise its characters begin a name. -/
theorem lex_arrow_glued (arrow : Arrow) (hrest : rest.takeWhile isArrowChar ≠ []) :
    lex (arrow.written ++ rest) =
      (lex (takeName (rest.dropWhile isArrowChar)).2).map
        (.name (String.ofList (arrow.written ++ (rest.takeWhile isArrowChar ++
          (takeName (rest.dropWhile isArrowChar)).1))) :: ·) := by
  obtain ⟨c, tail, hwritten, hc, htail, hspells⟩ := exists_written_eq arrow
  have harrow : isArrow (c :: (tail ++ rest).takeWhile isArrowChar) = false := by
    rw [List.takeWhile_append_of_pos htail, hspells]
    simpa using hrest
  have htakes := Takes.sign hc harrow (takesName_takeName _)
  rw [List.takeWhile_append_of_pos htail, List.dropWhile_append_of_pos htail, List.append_assoc]
    at htakes
  rw [hwritten]
  exact lex_cons htakes

/-! ### Blanks around an arrow -/

theorem takesName_blank (cs : List Char) : TakesName (' ' :: cs) [] (' ' :: cs) :=
  .stop (.inl (by decide))

theorem lex_word_arrow (hname : IsWord name) (arrow : Arrow) (rest : List Char) :
    lex (name ++ (arrow.written ++ rest)) =
      (lex (arrow.written ++ rest)).map (.name (String.ofList name) :: ·) :=
  lex_word hname (takesName_arrow arrow rest)

/-- Between blanks the arrow is read as one, whatever comes next. -/
theorem lex_word_arrow_spaced (hname : IsWord name) (arrow : Arrow) (rest : List Char) :
    lex (name ++ ' ' :: (arrow.written ++ ' ' :: rest)) =
      (lex rest).map fun ts => .name (String.ofList name) :: .equals :: ts := by
  rw [lex_word hname (takesName_blank _), lex_blank_cons, lex_arrow arrow rfl, lex_blank_cons]
  cases lex rest <;> rfl

/-- With arrow characters behind it, it begins a name. -/
theorem lex_word_arrow_glued (hname : IsWord name) (arrow : Arrow)
    (hrest : rest.takeWhile isArrowChar ≠ []) :
    lex (name ++ (arrow.written ++ rest)) =
      (lex (takeName (rest.dropWhile isArrowChar)).2).map fun ts =>
        .name (String.ofList name) ::
          .name (String.ofList (arrow.written ++ (rest.takeWhile isArrowChar ++
            (takeName (rest.dropWhile isArrowChar)).1))) :: ts := by
  rw [lex_word_arrow hname, lex_arrow_glued arrow hrest]
  cases lex (takeName (rest.dropWhile isArrowChar)).2 <;> rfl

theorem quote_not_mem_word_arrow (hname : IsWord name) (arrow : Arrow) :
    '"' ∉ name ++ arrow.written := by
  rw [List.mem_append, not_or]
  refine ⟨fun hmem => ?_, quote_not_mem_written arrow⟩
  exact absurd (hname.chars _ hmem).1 (by decide)

/-- **Where blanks around an arrow matter.** Between blanks, the arrow is read as one, whatever
comes next. The blank before it may always be left out. Both may be if no arrow character comes
next, or if there is a fault further on, which is then found in either case. Otherwise the arrow is
not read as one: it begins a name. -/
theorem arrow_spacing (hname : IsWord name) (arrow : Arrow) (rest : List Char) :
    lex (name ++ ' ' :: (arrow.written ++ ' ' :: rest)) =
      (lex rest).map (fun ts => .name (String.ofList name) :: .equals :: ts) ∧
    lex (name ++ ' ' :: (arrow.written ++ rest)) = lex (name ++ (arrow.written ++ rest)) ∧
    (lex (name ++ (arrow.written ++ rest)) = lex (name ++ ' ' :: (arrow.written ++ ' ' :: rest)) ↔
      (∀ c ∈ rest.head?, isArrowChar c = false) ∨ ∃ fault, lex rest = .error fault) ∧
    (rest.takeWhile isArrowChar ≠ [] →
      lex (name ++ (arrow.written ++ rest)) =
        (lex (takeName (rest.dropWhile isArrowChar)).2).map fun ts =>
          .name (String.ofList name) ::
            .name (String.ofList (arrow.written ++ (rest.takeWhile isArrowChar ++
              (takeName (rest.dropWhile isArrowChar)).1))) :: ts) := by
  refine ⟨lex_word_arrow_spaced hname arrow rest, ?_, ?_, lex_word_arrow_glued hname arrow⟩
  · rw [lex_word hname (takesName_blank _), lex_blank_cons, lex_word_arrow hname]
  · rw [lex_word_arrow_spaced hname, ← takeWhile_isArrowChar_eq_nil_iff]
    constructor
    · intro heq
      by_contra hnot
      obtain ⟨hrun, hok⟩ := not_or.mp hnot
      -- One line has an arrow for its second token and the other has a name.
      rw [lex_word_arrow_glued hname arrow hrun] at heq
      cases hlex : lex rest with
      | error fault => exact hok ⟨fault, hlex⟩
      | ok ts =>
        rw [hlex] at heq
        cases hafter : lex (takeName (rest.dropWhile isArrowChar)).2 <;>
          simp [hafter, Except.map] at heq
    · rintro (hrun | ⟨fault, hfault⟩)
      · rw [lex_word_arrow hname, lex_arrow arrow hrun]
        cases lex rest <;> rfl
      · rw [hfault, ← List.append_assoc,
          lex_append_eq_error (quote_not_mem_word_arrow hname arrow) hfault]
        rfl

theorem tip_before_dash_spaced :
    IsWord "opt_2".toList ∧
      lex ("opt_2".toList ++ ' ' :: (Arrow.tip.written ++ ' ' :: "-c \"".toList)) =
        (lex "-c \"".toList).map
          (fun ts => .name (String.ofList "opt_2".toList) :: .equals :: ts) ∧
      lex ("opt_2".toList ++ ' ' :: (Arrow.tip.written ++ "-c \"".toList)) =
        lex ("opt_2".toList ++ (Arrow.tip.written ++ "-c \"".toList)) ∧
      (lex ("opt_2".toList ++ (Arrow.tip.written ++ "-c \"".toList)) =
          lex ("opt_2".toList ++ ' ' :: (Arrow.tip.written ++ ' ' :: "-c \"".toList)) ↔
        (∀ c ∈ "-c \"".toList.head?, isArrowChar c = false) ∨
          ∃ fault, lex "-c \"".toList = .error fault) ∧
      ("-c \"".toList.takeWhile isArrowChar ≠ [] →
        lex ("opt_2".toList ++ (Arrow.tip.written ++ "-c \"".toList)) =
          (lex (takeName ("-c \"".toList.dropWhile isArrowChar)).2).map fun ts =>
            .name (String.ofList "opt_2".toList) ::
              .name (String.ofList (Arrow.tip.written ++ ("-c \"".toList.takeWhile isArrowChar ++
                (takeName ("-c \"".toList.dropWhile isArrowChar)).1))) :: ts) := by
  have hname : IsWord "opt_2".toList := isWord_of_isAlphanum (by decide) (by decide)
  exact ⟨hname, arrow_spacing hname .tip "-c \"".toList⟩

/-- Behind an arrow the dash of a name is one arrow character too many. -/
theorem dash_taken_into_name :
    lex "S=-x".toList = .ok [.name "S", .name "=-x"] ∧
    lex "S = -x".toList = .ok [.name "S", .equals, .name "-x"] ∧
    lex "S=-x".toList ≠ lex "S = -x".toList := by
  decide +kernel

end Token

end ContextFree

import ContextFree.Token.Lexer
import Mathlib.Data.List.Infix

/-!
# Tokens between blanks

What a token is read as may depend on the characters that come after it: a colon is the beginning
of a name or of an arrow, and a name goes on as far as it can. A blank cuts this short. So all that
is shown of a single token is that it is read, whatever comes after it behind a blank, and tokens
with blanks between them are then read one by one.

## Main definitions

* `ContextFree.IsName` - the text can be written as a name.
* `ContextFree.Quoted.write` - a text with escapes, as it stands between quotes.
* `ContextFree.Token.Detached` - a blank or the end of the line comes next.
* `ContextFree.Token.Reads` - characters are read as tokens, whatever is detached from them.

## Main results

* `ContextFree.Token.reads_name` - a name is read as a whole, with arrow characters in any place.
* `ContextFree.Token.reads_quoted` - a quoted text is read without its escapes.
* `ContextFree.Token.Reads.intercalate` - rows of tokens are read through what is written between
  them.
-/

namespace ContextFree

/-- The text can be written as a name: it is not empty, it holds no blank and none of the characters
that end a name, `->` is not part of it, and it does not begin with a semicolon. -/
structure IsName (name : List Char) : Prop where
  /-- The name is not empty. -/
  ne_nil : name ≠ []
  /-- No character ends the name. -/
  chars : ∀ c ∈ name, isBlank c = false ∧ c ≠ '|' ∧ c ≠ '"' ∧ c ≠ '='
  /-- The short arrow is not part of the name. -/
  no_arrow : ¬ ['-', '>'] <:+: name
  /-- A line that begins with the name is no comment. -/
  no_semicolon : name.head? ≠ some ';'

instance (name : List Char) : Decidable (IsName name) :=
  -- the characters are gone through by `List.all`, for there are finitely many to try otherwise
  decidable_of_iff (name ≠ [] ∧
      (name.all fun c => isBlank c = false ∧ c ≠ '|' ∧ c ≠ '"' ∧ c ≠ '=') = true ∧
      ¬ ['-', '>'] <:+: name ∧ name.head? ≠ some ';')
    ⟨fun ⟨hne, hchars, harrow, hsemicolon⟩ =>
        ⟨hne, fun c hc => of_decide_eq_true (List.all_eq_true.mp hchars c hc), harrow, hsemicolon⟩,
      fun h => ⟨h.ne_nil, List.all_eq_true.mpr fun c hc => decide_eq_true (h.chars c hc),
        h.no_arrow, h.no_semicolon⟩⟩

namespace Quoted

/-- A character as it is written between quotes. -/
def escape : Char → List Char
  | '\n' => ['\\', 'n']
  | '"' => ['\\', '"']
  | '\\' => ['\\', '\\']
  | c => [c]

/-- A text as it is written between quotes. -/
def write (text : List Char) : List Char := text.flatMap escape

theorem read_cons {c : Char} (rest : List Char) (hquote : c ≠ '"') (hbackslash : c ≠ '\\') :
    read (c :: rest) = (read rest).cons c := by
  rw [read]
  · exact hquote
  · exact fun h _ => hbackslash h
  · exact fun _ _ h _ => hbackslash h

theorem read_escape_append (c : Char) (rest : List Char) :
    read (escape c ++ rest) = (read rest).cons c := by
  unfold escape
  split
  · rfl
  · rfl
  · rfl
  · next _ hquote hbackslash => exact read_cons rest hquote hbackslash

/-- A written text is read up to its closing quote. -/
theorem read_write (text rest : List Char) :
    read (write text ++ '"' :: rest) = .closed text rest := by
  induction text with
  | nil => rfl
  | cons c text ih =>
    rw [write, List.flatMap_cons, List.append_assoc, read_escape_append]
    exact congrArg (Reading.cons c) ih

theorem newline_not_mem_write (text : List Char) : '\n' ∉ write text := by
  intro hmem
  obtain ⟨c, -, hc⟩ := List.mem_flatMap.mp hmem
  unfold escape at hc
  split at hc
  · exact absurd hc (by decide)
  · exact absurd hc (by decide)
  · exact absurd hc (by decide)
  · next hnewline _ _ => exact hnewline (List.mem_singleton.mp hc).symm

end Quoted

namespace Token

variable {cs ds rest : List Char} {ts us : List Token}

/-- A blank comes next, or nothing. -/
def Detached (rest : List Char) : Prop := ∀ c ∈ rest.head?, isBlank c = true

theorem detached_nil : Detached [] := fun _ h => absurd h (by simp)

theorem detached_blank (rest : List Char) : Detached (' ' :: rest) := by
  rintro c ⟨⟩
  decide

/-- What holds no blank and begins the characters ends before a blank. -/
theorem Detached.isPrefix (hrest : Detached rest) : ∀ {p cs : List Char},
    (∀ c ∈ p, isBlank c = false) → p <+: cs ++ rest → p <+: cs
  | [], _, _, _ => List.nil_prefix
  | c :: p, [], hp, hfront => by
    cases rest with
    | nil => exact absurd (List.prefix_nil.mp hfront) (List.cons_ne_nil c p)
    | cons b rest =>
      obtain ⟨rfl, -⟩ := List.cons_prefix_cons.mp hfront
      exact absurd (hrest c rfl) (by simp [hp c])
  | c :: p, d :: cs, hp, hfront => by
    obtain ⟨rfl, htail⟩ := List.cons_prefix_cons.mp hfront
    exact List.cons_prefix_cons.mpr
      ⟨rfl, hrest.isPrefix (fun d hd => hp d (List.mem_cons_of_mem _ hd)) htail⟩

theorem atArrow_iff : atArrow cs = true ↔ ['-', '>'] <+: cs ∨ [':', ':', '='] <+: cs := by
  constructor
  · intro h
    unfold atArrow at h
    split at h
    · exact .inl (by simp)
    · exact .inr (by simp)
    · exact absurd h (by decide)
  · rintro (⟨rest, rfl⟩ | ⟨rest, rfl⟩) <;> rfl

/-- No arrow ends a name, even with a blank and whatever else behind it. -/
theorem atArrow_append (hrest : Detached rest) (hequal : '=' ∉ cs) (harrow : ¬ ['-', '>'] <:+: cs) :
    atArrow (cs ++ rest) = false := by
  refine Bool.eq_false_iff.mpr fun h => ?_
  rcases atArrow_iff.mp h with h | h
  · exact harrow (hrest.isPrefix (by simp [isBlank]) h).isInfix
  · exact hequal ((hrest.isPrefix (by simp [isBlank]) h).subset (by simp))

/-- **A name is taken as a whole.** -/
theorem takeName_append (hrest : Detached rest) (hchars : ∀ c ∈ cs, isNameChar c = true)
    (harrow : ¬ ['-', '>'] <:+: cs) : takeName (cs ++ rest) = (cs, rest) := by
  induction cs with
  | nil =>
    cases rest with
    | nil => rfl
    | cons b rest =>
      have hb : isNameChar b = false := by simp [isNameChar, hrest b rfl]
      rw [List.nil_append, takeName, hb]
      rfl
  | cons c cs ih =>
    have hequal : '=' ∉ c :: cs := fun h => absurd (hchars _ h) (by decide)
    have hnext := ih (fun d hd => hchars d (List.mem_cons_of_mem _ hd))
      fun h => harrow (h.trans (List.suffix_cons c cs).isInfix)
    rw [List.cons_append, takeName, hchars c List.mem_cons_self, ← List.cons_append,
      atArrow_append hrest hequal harrow, hnext]
    rfl

theorem isArrowChar_of_isBlank {c : Char} (h : isBlank c = true) : isArrowChar c = false := by
  refine Bool.eq_false_iff.mpr fun harrow => ?_
  simp only [isArrowChar, Bool.or_eq_true, beq_iff_eq] at harrow
  rcases harrow with ((rfl | rfl) | rfl) | rfl
  all_goals exact absurd h (by decide)

theorem takeWhile_isArrowChar_append (hrest : Detached rest) (cs : List Char) :
    (cs ++ rest).takeWhile isArrowChar = cs.takeWhile isArrowChar ∧
      (cs ++ rest).dropWhile isArrowChar = cs.dropWhile isArrowChar ++ rest := by
  have hnone : rest.takeWhile isArrowChar = [] ∧ rest.dropWhile isArrowChar = rest := by
    cases rest with
    | nil => exact ⟨rfl, rfl⟩
    | cons b rest =>
      have hb : isArrowChar b = false := isArrowChar_of_isBlank (hrest b rfl)
      simp [hb]
  induction cs with
  | nil => exact hnone
  | cons c cs ih =>
    rw [List.cons_append, List.takeWhile_cons, List.dropWhile_cons, List.takeWhile_cons,
      List.dropWhile_cons, ih.1, ih.2]
    split
    · exact ⟨rfl, rfl⟩
    · exact ⟨rfl, rfl⟩

/-- Characters that hold no arrow spell none. -/
theorem isArrow_eq_false (hequal : '=' ∉ cs) (harrow : ¬ ['-', '>'] <:+: cs) :
    isArrow cs = false := by
  refine Bool.eq_false_iff.mpr fun h => ?_
  simp only [isArrow, Bool.or_eq_true, beq_iff_eq] at h
  rcases h with (rfl | rfl) | rfl
  · exact hequal (by decide)
  · exact harrow (List.infix_refl _)
  · exact hequal (by decide)

/-- **A name is one token**, whatever comes after a blank. -/
theorem step_name {c : Char} (h : IsName (c :: cs)) (hrest : Detached rest) :
    step c (cs ++ rest) = .ok (some (.name (String.ofList (c :: cs))), rest) := by
  obtain ⟨hblank, hbar, hquote, hequal⟩ := h.chars c List.mem_cons_self
  have hchars : ∀ d ∈ cs, isNameChar d = true := fun d hd => by
    obtain ⟨hblank, hbar, hquote, hequal⟩ := h.chars d (List.mem_cons_of_mem _ hd)
    simp [isNameChar, hblank, hbar, hquote, hequal]
  have harrow : ¬ ['-', '>'] <:+: cs := fun harrow =>
    h.no_arrow (harrow.trans (List.suffix_cons c cs).isInfix)
  obtain ⟨htake, hdrop⟩ := takeWhile_isArrowChar_append hrest cs
  -- the arrow characters in front belong to the name, so they do not spell an arrow
  have hrun : isArrow (c :: cs.takeWhile isArrowChar) = false := by
    have hfront : c :: cs.takeWhile isArrowChar <+: c :: cs :=
      List.cons_prefix_cons.mpr ⟨rfl, List.takeWhile_prefix _⟩
    exact isArrow_eq_false (fun hmem => (h.chars _ (hfront.subset hmem)).2.2.2 rfl)
      fun harrow => h.no_arrow (harrow.trans hfront.isInfix)
  have hword : takeName (cs.dropWhile isArrowChar ++ rest) = (cs.dropWhile isArrowChar, rest) := by
    have hback := List.dropWhile_suffix (l := cs) isArrowChar
    exact takeName_append hrest (fun d hd => hchars d (hback.subset hd))
      fun h => harrow (h.trans hback.isInfix)
  rw [step]
  split
  · simp only [htake, hdrop, hrun, hword, List.cons_append, List.takeWhile_append_dropWhile]
    rfl
  · simp only [hbar, hquote, hblank, takeName_append hrest hchars harrow, beq_iff_eq, if_false]
    rfl

/-- A quoted text is one token, whatever comes after it. -/
theorem step_quoted (text rest : List Char) :
    step '"' (Quoted.write text ++ '"' :: rest) =
      .ok (some (.quoted (String.ofList text)), rest) := by
  have htake : takeQuoted ('"' :: (Quoted.write text ++ '"' :: rest)) =
      (.ok (.quoted (String.ofList text)), rest) := by
    simp only [takeQuoted, List.drop_succ_cons, List.drop_zero, Quoted.read_write]
  rw [step, htake]
  rfl

/-! ### One token after the other -/

theorem lex_of_step {c : Char} {after : List Char} {t : Option Token}
    (hstep : step c rest = .ok (t, after)) (hafter : lex after = .ok ts) :
    lex (c :: rest) = .ok (t.toList ++ ts) := by
  rw [lex]
  split
  · next fault h => rw [hstep] at h; exact absurd h (by simp)
  · next t' after' h =>
    obtain ⟨rfl, rfl⟩ := Prod.mk.inj (Except.ok.inj (hstep.symm.trans h))
    rw [hafter]

theorem lex_blank (h : lex rest = .ok ts) : lex (' ' :: rest) = .ok ts :=
  lex_of_step (t := none) rfl h

/-- Characters are read as tokens, whatever comes after them behind a blank. -/
def Reads (cs : List Char) (ts : List Token) : Prop :=
  ∀ rest more, Detached rest → lex rest = .ok more → lex (cs ++ rest) = .ok (ts ++ more)

theorem reads_nil : Reads [] [] := fun _ _ _ h => h

theorem reads_of_step {c : Char} {t : Token}
    (h : ∀ rest, Detached rest → step c (cs ++ rest) = .ok (some t, rest)) :
    Reads (c :: cs) [t] :=
  fun rest _ hrest hlex => lex_of_step (h rest hrest) hlex

theorem reads_name (h : IsName cs) : Reads cs [.name (String.ofList cs)] := by
  cases cs with
  | nil => exact absurd rfl h.ne_nil
  | cons c cs => exact reads_of_step fun rest hrest => step_name h hrest

theorem reads_quoted (text : List Char) :
    Reads ('"' :: (Quoted.write text ++ ['"'])) [.quoted (String.ofList text)] := by
  refine reads_of_step fun rest _ => ?_
  rw [List.append_assoc, List.singleton_append]
  exact step_quoted text rest

theorem reads_arrow (h : isArrow cs = true) : Reads cs [.equals] := by
  have hcases : (cs = ['='] ∨ cs = ['-', '>']) ∨ cs = [':', ':', '='] := by
    simpa [isArrow] using h
  rcases hcases with (rfl | rfl) | rfl
  all_goals
    refine reads_of_step fun rest hrest => ?_
    obtain ⟨htake, hdrop⟩ := takeWhile_isArrowChar_append hrest _
    rw [step, htake, hdrop]
    rfl

theorem reads_bar : Reads ['|'] [.or] := reads_of_step fun _ _ => rfl

namespace Reads

theorem lex_eq (h : Reads cs ts) : lex cs = .ok ts := by
  simpa using h [] [] detached_nil (by rw [lex])

/-- A blank keeps tokens apart. -/
theorem append_blank (hcs : Reads cs ts) (hds : Reads ds us) :
    Reads (cs ++ ' ' :: ds) (ts ++ us) := by
  intro rest more hrest hlex
  rw [List.append_assoc, List.append_assoc]
  exact hcs _ _ (detached_blank _) (lex_blank (hds rest more hrest hlex))

/-- Rows of tokens are read through what is written between them, if two rows are. -/
theorem intercalate {α : Type} {sep : List Char} {mark : List Token}
    (hsep : ∀ {cs ds ts us}, Reads cs ts → Reads ds us → Reads (cs ++ sep ++ ds) (ts ++ mark ++ us))
    {write : α → List Char} {tokens : α → List Token} :
    ∀ {l : List α}, (∀ a ∈ l, Reads (write a) (tokens a)) →
      Reads (sep.intercalate (l.map write)) (mark.intercalate (l.map tokens))
  | [], _ => reads_nil
  | [a], h => by
    rw [List.map_singleton, List.map_singleton, List.intercalate_singleton,
      List.intercalate_singleton]
    exact h a List.mem_cons_self
  | a :: b :: l, h => by
    simp only [List.map_cons, List.intercalate_cons_cons]
    exact hsep (h a List.mem_cons_self)
      (intercalate hsep fun c hc => h c (List.mem_cons_of_mem _ hc))

end Reads

end Token

end ContextFree

/-!
# Supplies of random words

Random choices are made from a stream of 32-bit words, one word after the other. A choice among some
options takes a word and multiplies it by their number: the high half of the product is the choice.
The low half tells whether the word is one that would favour some options; such words are rejected
and the next is taken. The words that are accepted make up a multiple of the number of options, so
no option is favoured, and there are more of them than are rejected. Nothing bounds how many words
are rejected in a row: a choice comes to an end only if a word is accepted some time.

## Main definitions

* `ContextFree.Words` - a stream of words and the number taken from it.
* `ContextFree.Words.await` - the loop that waits for a word that is accepted.
* `ContextFree.Words.draw` - a number below a bound.
* `ContextFree.Words.pick` - an entry of a list.
-/

namespace ContextFree

/-- A stream of words, and how many have been taken from it. -/
structure Words where
  /-- The words of the stream by number. -/
  word : Nat → UInt32
  /-- The number of words taken. -/
  taken : Nat

instance : Nonempty Words := ⟨⟨fun _ => 0, 0⟩⟩

namespace Words

/-- The stream of the words of a list and then zeros. -/
def ofList (words : List UInt32) : Words :=
  let table := words.toArray
  ⟨fun i => table.getD i 0, 0⟩

/-- The next word. -/
def head (w : Words) : UInt32 := w.word w.taken

/-- The stream after the next word. -/
def tail (w : Words) : Words := { w with taken := w.taken + 1 }

/-- The greatest low half that is accepted for a choice among `k`: one less than `k` shifted up to
the top of a word. -/
def zone (k : Nat) : Nat := (k <<< (31 - k.log2)) - 1

/-- The word is accepted for a choice among `k`. -/
def accepts (k : Nat) (word : UInt32) : Bool := decide (word.toNat * k % UInt32.size ≤ zone k)

/-- The choice among `k` that a word stands for. -/
def choice (k : Nat) (word : UInt32) : Nat := word.toNat * k / UInt32.size

/-- The stream from the first word on that is accepted for a choice among `k`. Words that are rejected
are skipped, and a stream of which no word is accepted is read on without end. -/
def await (k : Nat) (w : Words) : Option Words :=
  repeatM (fun w => some (if accepts k w.head then .inr w else .inl w.tail)) w

/-- A number below `k`: the choice that the first accepted word stands for. The word in front is
accepted more often than not, and then there is nothing to wait for. -/
def draw (k : Nat) (w : Words) : Nat × Words :=
  let w := if accepts k w.head then w else (await k w.tail).getD w.tail
  (choice k w.head, w.tail)

/-- An entry of a list; none, and no word taken, if the list is empty. -/
def pick {α : Type} (options : List α) (w : Words) : Option α × Words :=
  if options.isEmpty then (none, w)
  else
    let (index, w) := w.draw options.length
    (options[index]?, w)

/-! ### One attempt -/

theorem await_of_accepts {k : Nat} {w : Words} (h : accepts k w.head = true) :
    await k w = some w := by
  rw [await, repeatM_eq_of_monadTail, repeatM.body, h]
  rfl

theorem await_of_not_accepts {k : Nat} {w : Words} (h : accepts k w.head = false) :
    await k w = await k w.tail := by
  rw [await, repeatM_eq_of_monadTail, repeatM.body, h]
  rfl

theorem draw_of_accepts {k : Nat} {w : Words} (h : accepts k w.head = true) :
    draw k w = (choice k w.head, w.tail) := by
  rw [draw, if_pos h]

theorem choice_lt {k : Nat} (hk : 0 < k) (word : UInt32) : choice k word < k := by
  have h : word.toNat < UInt32.size := word.toNat_lt_size
  unfold choice
  rw [Nat.div_lt_iff_lt_mul (by decide), Nat.mul_comm]
  exact Nat.mul_lt_mul_of_pos_left h hk

end Words

end ContextFree

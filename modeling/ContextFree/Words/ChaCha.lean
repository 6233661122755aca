import ContextFree.Words

/-!
# Keyed streams of words

A key of eight words is stretched to a stream in blocks of sixteen words. A block is a square of
four rows: constants, the key in two rows, and a counter of blocks. Six times its columns and its
diagonals are mixed; the mixed square added to the square it began with is the block. A seed of 64
bits is stretched to a key by a linear congruential generator whose states are permuted into words.

## Main definitions

* `ContextFree.Row` - a row of four words.
* `ContextFree.Square.block` - the words of a block.
* `ContextFree.keyOfSeed` - the key of a seed.
* `ContextFree.Words.ofSeed` - the stream of a seed.
-/

namespace ContextFree

/-- Rotate a word to the left. -/
def rotateWord (word : UInt32) (bits : UInt32) : UInt32 := word <<< bits ||| word >>> (32 - bits)

/-- Four words side by side. -/
structure Row where
  /-- The first word. -/
  a : UInt32
  /-- The second word. -/
  b : UInt32
  /-- The third word. -/
  c : UInt32
  /-- The fourth word. -/
  d : UInt32
deriving DecidableEq, Repr

namespace Row

/-- Combine two rows word by word. -/
def zip (f : UInt32 → UInt32 → UInt32) (x y : Row) : Row :=
  ⟨f x.a y.a, f x.b y.b, f x.c y.c, f x.d y.d⟩

/-- Add two rows word by word. -/
def add (x y : Row) : Row := x.zip (· + ·) y

/-- Combine two rows by exclusive or and rotate each word. -/
def mix (x y : Row) (bits : UInt32) : Row := x.zip (fun u v => rotateWord (u ^^^ v) bits) y

/-- Move each word one place to the left, the first to the end. -/
def turn (x : Row) : Row := ⟨x.b, x.c, x.d, x.a⟩

/-- The words in order. -/
def toList (x : Row) : List UInt32 := [x.a, x.b, x.c, x.d]

end Row

/-- Four rows of four words. -/
structure Square where
  /-- The first row. -/
  r0 : Row
  /-- The second row. -/
  r1 : Row
  /-- The third row. -/
  r2 : Row
  /-- The fourth row. -/
  r3 : Row
deriving DecidableEq, Repr

namespace Square

/-- Mix each of the four columns. -/
def mixColumns (s : Square) : Square :=
  let r0 := s.r0.add s.r1
  let r3 := s.r3.mix r0 16
  let r2 := s.r2.add r3
  let r1 := s.r1.mix r2 12
  let r0 := r0.add r1
  let r3 := r3.mix r0 8
  let r2 := r2.add r3
  let r1 := r1.mix r2 7
  ⟨r0, r1, r2, r3⟩

/-- Bring the diagonals into columns. -/
def slant (s : Square) : Square := ⟨s.r0, s.r1.turn, s.r2.turn.turn, s.r3.turn.turn.turn⟩

/-- Bring the diagonals back from the columns. -/
def unslant (s : Square) : Square := ⟨s.r0, s.r1.turn.turn.turn, s.r2.turn.turn, s.r3.turn⟩

/-- Mix the columns, then the diagonals. -/
def doubleRound (s : Square) : Square := s.mixColumns.slant.mixColumns.unslant

/-- Some double rounds, one after the other. -/
def rounds : Nat → Square → Square
  | 0, s => s
  | n + 1, s => rounds n s.doubleRound

/-- Add two squares word by word. -/
def add (s t : Square) : Square := ⟨s.r0.add t.r0, s.r1.add t.r1, s.r2.add t.r2, s.r3.add t.r3⟩

/-- The words of the block that begins with a square: six double rounds, added to where they began. -/
def block (s : Square) : List UInt32 :=
  let mixed := s.add (rounds 6 s)
  mixed.r0.toList ++ mixed.r1.toList ++ mixed.r2.toList ++ mixed.r3.toList

end Square

/-- A key of eight words in two rows. -/
structure Key where
  /-- The first four words. -/
  low : Row
  /-- The last four words. -/
  high : Row
deriving DecidableEq, Repr

namespace Key

/-- The constants of the first row: the text `expand 32-byte k` as words. -/
def constants : Row := ⟨0x61707865, 0x3320646e, 0x79622d32, 0x6b206574⟩

/-- The square that a block begins with: the number of the block takes up two words, low word
first, and the two after it are zero. -/
def square (k : Key) (number : Nat) : Square :=
  ⟨constants, k.low, k.high, ⟨UInt32.ofNat number, UInt32.ofNat (number / UInt32.size), 0, 0⟩⟩

/-- The word of the stream with a number. -/
def word (k : Key) (i : Nat) : UInt32 := ((k.square (i / 16)).block[i % 16]?).getD 0

end Key

/-! ### Seeds -/

/-- The next state of the generator that stretches a seed. -/
def nextSeed (state : UInt64) : UInt64 := state * 6364136223846793005 + 11634580027462260723

/-- The word that a state stands for: its high bits folded onto each other and rotated to the right by
the highest five. -/
def seedWord (state : UInt64) : UInt32 :=
  let folded := (((state >>> 18) ^^^ state) >>> 27).toUInt32
  let turns := (state >>> 59).toUInt32
  folded >>> turns ||| folded <<< ((32 - turns) % 32)

/-- The words of the states after a state. -/
def seedWords : Nat → UInt64 → List UInt32
  | 0, _ => []
  | n + 1, state => seedWord (nextSeed state) :: seedWords n (nextSeed state)

/-- The key whose words a list begins with, zeros where it ends early. -/
def Key.ofList (words : List UInt32) : Key :=
  let entry := fun i => words[i]?.getD 0
  ⟨⟨entry 0, entry 1, entry 2, entry 3⟩, ⟨entry 4, entry 5, entry 6, entry 7⟩⟩

/-- The key of a seed. -/
def keyOfSeed (seed : UInt64) : Key := .ofList (seedWords 8 seed)

namespace Words

/-- The stream of a key. -/
def ofKey (k : Key) : Words := ⟨k.word, 0⟩

/-- The stream of a seed. -/
def ofSeed (seed : UInt64) : Words := ofKey (keyOfSeed seed)

end Words

end ContextFree

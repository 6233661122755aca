import ContextFree.Proofs.Heights

/-!
# Finding heights by sweeps

Heights are found in rounds, which write every entry once. They can also be found with one table and
a mark, by sweeps over the definitions. A sweep reads an alternative from left to right, holding the
height so far, and gives it up at a name without an entry. Where the least of the heights of a
definition is less than its entry, or there is no entry, it is written there, and the mark is set.
Sweeps go on until one leaves the mark unset.

A sweep is a pass in place: what it holds while it reads is no less than one, as heights are, and so
comes to the greatest of them; and as writing only ever adds to a table, the mark is set when the
table is not what it was. So the loop ends, and with the heights.

## Main definitions

* `ContextFree.Alternative.scan?` - the height of an alternative, read from left to right.
* `ContextFree.Grammar.sweep`, `ContextFree.Grammar.sweep?` - one sweep, and the loop.

## Main results

* `ContextFree.Grammar.sweep_eq` - a sweep is a pass, and is marked if it changes the table.
* `ContextFree.Grammar.heights_least` - the loop ends with the least heights of the trees.
-/

namespace ContextFree

variable {g : Grammar} {h h' : Heights} {a : Alternative} {d : Definition} {n k : Nat}

/-! ### Reading an alternative -/

/-- The height of an alternative that is read from left to right, with the height so far. -/
def Alternative.scan? (h : Heights) (height : Nat) (a : Alternative) : Option Nat :=
  a.foldlM
    (fun height symbol =>
      match symbol with
      | .terminal _ => some height
      | .nonterminal name => (h.get? name).map fun below => max height (below + 1))
    height

/-- No height is less than one, so it makes no difference to begin with one. -/
theorem Alternative.scan?_eq (h : Heights) (hn : 1 ≤ n) (a : Alternative) :
    a.scan? h n = (a.height? h).map (max n) := by
  induction a generalizing n with
  | nil => exact congrArg some (Nat.max_eq_left hn).symm
  | cons symbol rest ih =>
    cases symbol with
    | terminal text => exact ih hn
    | nonterminal name =>
      cases hget : h.get? name with
      | none => simp [scan?, height?, hget]
      | some below =>
        have hfirst : scan? h n (.nonterminal name :: rest) = scan? h (max n (below + 1)) rest := by
          simp [scan?, hget]
        rw [hfirst, ih (Nat.le_trans hn (Nat.le_max_left _ _)), height?, hget]
        cases Alternative.height? h rest with
        | none => rfl
        | some height => simp [Nat.max_assoc, Nat.max_comm (below + 1)]

theorem Alternative.one_le_of_height? (hk : a.height? h = some k) : 1 ≤ k := by
  induction a generalizing k with
  | nil => exact Nat.le_of_eq (Option.some.inj hk)
  | cons symbol rest ih =>
    cases symbol with
    | terminal text => exact ih hk
    | nonterminal name =>
      rw [height?] at hk
      split at hk
      · next below height hbelow hheight =>
        exact Option.some.inj hk ▸ Nat.le_trans (ih hheight) (Nat.le_max_left _ _)
      · exact absurd hk (Option.some_ne_none k).symm

/-- Read with a height of one so far, an alternative has its height. -/
theorem Alternative.scan?_one (h : Heights) (a : Alternative) : a.scan? h 1 = a.height? h := by
  rw [scan?_eq h (Nat.le_refl 1)]
  cases hheight : a.height? h with
  | none => rfl
  | some k => exact congrArg some (Nat.max_eq_right (one_le_of_height? hheight))

/-! ### Sweeps -/

/-- A look at a definition. Its least height is written if there is no entry yet, or a greater one,
and then the mark is set. -/
def Heights.write (p : Heights × Bool) (d : Definition) : Heights × Bool :=
  match (d.alternatives.filterMap fun a => a.scan? p.1 1).min? with
  | none => p
  | some best => if (p.1.get? d.name).all (best < ·) then ((d.name, best) :: p.1, true) else p

namespace Grammar

/-- A look at every definition with one table, and whether anything was written. -/
def sweep (g : Grammar) (h : Heights) : Heights × Bool :=
  g.definitions.foldl Heights.write (h, false)

/-- The loop: one more sweep, unless it writes nothing. -/
def sweep? (g : Grammar) (h : Heights) : Option Heights :=
  if (g.sweep h).2 then some (g.sweep h).1 else none

end Grammar

namespace Heights

theorem suffix_lower (h : Heights) (d : Definition) : h <:+ h.lower d := by
  rw [lower]
  split
  · exact List.suffix_refl h
  · split
    · exact List.suffix_cons _ h
    · exact List.suffix_refl h

theorem suffix_foldl_lower (h : Heights) (ds : List Definition) : h <:+ ds.foldl lower h := by
  induction ds generalizing h with
  | nil => exact List.suffix_refl h
  | cons d rest ih => exact (suffix_lower h d).trans (ih (h.lower d))

/-- A look at a definition lowers its entry, and sets the mark if this changes the table. -/
theorem write_eq (h : Heights) (marked : Bool) (d : Definition) :
    write (h, marked) d = (h.lower d, marked || decide (h.lower d ≠ h)) := by
  have hbest : (d.alternatives.filterMap fun a => a.scan? h 1).min? = d.best? h := by
    rw [Definition.best?, funext fun a => Alternative.scan?_one h a]
  rw [write, hbest, lower]
  cases d.best? h with
  | none => simp
  | some best =>
    dsimp only
    split <;> simp

theorem foldl_write (h : Heights) (marked : Bool) (ds : List Definition) :
    ds.foldl write (h, marked) =
      (ds.foldl lower h, marked || decide (ds.foldl lower h ≠ h)) := by
  induction ds generalizing h marked with
  | nil => simp
  | cons d rest ih =>
    -- what is written first is not undone by what is written later
    have hchanged : h.lower d ≠ h ∨ rest.foldl lower (h.lower d) ≠ h.lower d ↔
        rest.foldl lower (h.lower d) ≠ h := by
      rw [← not_and_or, not_iff_not]
      refine ⟨fun ⟨hfirst, hrest⟩ => hrest.trans hfirst, fun heq => ?_⟩
      have hlength := (suffix_foldl_lower (h.lower d) rest).length_le
      rw [heq] at hlength
      have hfirst : h.lower d = h := ((suffix_lower h d).eq_of_length_le hlength).symm
      exact ⟨hfirst, heq.trans hfirst.symm⟩
    rw [List.foldl_cons, List.foldl_cons, write_eq, ih, Bool.or_assoc, ← Bool.decide_or,
      decide_eq_decide.mpr hchanged]

end Heights

namespace Grammar

/-- **A sweep is a pass**, and marked if it changes the table. -/
theorem sweep_eq (g : Grammar) (h : Heights) : g.sweep h = (g.pass h, decide (g.pass h ≠ h)) := by
  rw [sweep, Heights.foldl_write, Bool.false_or]
  rfl

theorem sweep?_eq (g : Grammar) : g.sweep? = g.pass? := by
  funext h
  rw [sweep?, sweep_eq, pass?]
  by_cases hsame : g.pass h = h <;> simp [hsame]

/-- **The heights of a grammar are exact.** The definitions may use names that are not defined, and
define a name more than once, which gives it all the alternatives.

The loop of sweeps over the definitions ends, after no more sweeps that write than there are
definitions, and with the heights that rounds find. A name has a height if and only if it has a
finite derivation tree, and the height is the least of the heights of its trees, where a tree is one
higher than the highest tree below its root, and of height one if there is none. -/
theorem heights_least (g : Grammar) :
    (∃ count ≤ g.definitions.length, ∃ h : Heights,
      Ends g.sweep? count [] h ∧ ∀ name, h.get? name = g.heights.get? name) ∧
    ∀ name,
      ((g.heights.get? name).isSome = true ↔ ∃ p : Phrase, p.IsTreeOf g name) ∧
      ∀ k, g.heights.get? name = some k ↔ IsLeast (g.treeHeights name) k := by
  have hexact := exact_heights g
  refine ⟨?_, fun name => ⟨hexact.isSome_iff, hexact name⟩⟩
  obtain ⟨count, hcount, h, hends, hfound⟩ := ends_passes g
  exact ⟨count, hcount, h, g.sweep?_eq ▸ hends, hfound.get?_eq hexact⟩

/-- An entry may be lowered after it was written: the first sweep looks at `X` before `Z`, and writes
the height that it has by way of `P`. -/
example :
    ((sweep ⟨"X", [⟨"Q", [[.terminal "q"]]⟩, ⟨"P", [[.nonterminal "Q"]]⟩,
        ⟨"X", [[.nonterminal "P"], [.nonterminal "Z"]]⟩, ⟨"Z", [[.terminal "z"]]⟩]⟩ []).1.get? "X",
      (heights ⟨"X", [⟨"Q", [[.terminal "q"]]⟩, ⟨"P", [[.nonterminal "Q"]]⟩,
        ⟨"X", [[.nonterminal "P"], [.nonterminal "Z"]]⟩, ⟨"Z", [[.terminal "z"]]⟩]⟩).get? "X") =
      (some 3, some 2) := by
  decide

end Grammar

end ContextFree

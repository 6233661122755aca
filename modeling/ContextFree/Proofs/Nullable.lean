import ContextFree.Nullable
import ContextFree.Proofs.Sketch
import Mathlib.Data.List.Perm.Subperm

/-!
# The nullable symbols are found exactly

The analysis keeps a record of rules, newest first. What it never loses is that the record is
grounded: an entry is a rule of the list, and its right side is made of symbols that older entries
erase. A grounded record is a stack of derivations of nothing, so whatever it defines is nullable.
It has one entry for each symbol, so it is never longer than the rule list, and the passes that are
allowed are enough to reach one that adds nothing. After such a pass the record is closed: no rule
leads out of it. A closed record misses no nullable symbol.

## Main definitions

* `ContextFree.Nullable.Grounded` - every entry is erased by older entries.
* `ContextFree.Nullable.Closed` - a right side that is erased makes its left side erased.

## Main results

* `ContextFree.Nullable.grounded_nullable`, `ContextFree.Nullable.closed_nullable`
* `ContextFree.Nullable.contains_nullable_iff` - the analysis finds exactly the symbols that derive
  nothing.
-/

namespace ContextFree

/-- A row whose symbols all derive nothing derives nothing. -/
theorem Rules.Derives.nil_of_forall {rules : Rules} {row : Form}
    (h : ∀ symbol ∈ row, rules.Derives [symbol] []) : rules.Derives row [] := by
  induction row with
  | nil => exact .refl []
  | cons symbol rest ih =>
    exact (h symbol List.mem_cons_self).append (ih fun s hs => h s (List.mem_cons_of_mem _ hs))

namespace Nullable

variable {rules part : Rules} {n : Nullable} {r : Rule} {symbol : String}

/-! ### Grounded records -/

/-- Every entry of a record is a rule of the list for a symbol that no older entry erases, and older
entries erase its right side. -/
def Grounded (rules : Rules) : Rules → Prop
  | [] => True
  | e :: older =>
    (e ∈ rules ∧ Rules.defines older e.lhs = false ∧
      ∀ symbol ∈ e.rhs, Rules.defines older symbol = true) ∧ Grounded rules older

theorem grounded_add (hr : r ∈ rules) (h : Grounded rules n.erasers) :
    Grounded rules (n.add r).erasers := by
  rw [add]
  split
  · next hadd =>
    rw [Bool.and_eq_true, Bool.not_eq_true', List.all_eq_true] at hadd
    exact ⟨⟨hr, hadd.1, hadd.2⟩, h⟩
  · exact h

theorem grounded_pass (hpart : ∀ r ∈ part, r ∈ rules) (h : Grounded rules n.erasers) :
    Grounded rules (n.pass part).erasers := by
  induction part generalizing n with
  | nil => exact h
  | cons r rest ih =>
    exact ih (fun s hs => hpart s (List.mem_cons_of_mem _ hs))
      (grounded_add (hpart r List.mem_cons_self) h)

theorem grounded_saturate (passes : Nat) (h : Grounded rules n.erasers) :
    Grounded rules (saturate rules passes n).erasers := by
  induction passes generalizing n with
  | zero => exact h
  | succ passes ih =>
    rw [saturate]
    split
    · exact h
    · exact ih (grounded_pass (fun _ hs => hs) h)

theorem grounded_nullable (rules : Rules) : Grounded rules rules.nullable.erasers :=
  grounded_saturate _ (grounded_pass (fun _ hs => (List.mem_filter.mp hs).1) trivial)

/-- What a grounded record defines derives nothing. -/
theorem Grounded.derives {record : Rules} (h : Grounded rules record)
    (hsymbol : record.defines symbol = true) : rules.Derives [symbol] [] := by
  induction record generalizing symbol with
  | nil => simp [Rules.defines] at hsymbol
  | cons e older ih =>
    obtain ⟨⟨he, -, hrhs⟩, holder⟩ := h
    rcases Bool.or_eq_true_iff.mp hsymbol with heq | hsymbol
    · obtain rfl := beq_iff_eq.mp heq
      exact (Rules.Derives.of_mem he).trans (.nil_of_forall fun s hs => ih holder (hrhs s hs))
    · exact ih holder hsymbol

theorem Grounded.subset {record : Rules} (h : Grounded rules record) : record ⊆ rules := by
  induction record with
  | nil => exact List.nil_subset _
  | cons e older ih => exact List.cons_subset.mpr ⟨h.1.1, ih h.2⟩

theorem Grounded.nodup {record : Rules} (h : Grounded rules record) : record.Nodup := by
  induction record with
  | nil => exact List.nodup_nil
  | cons e older ih =>
    refine List.nodup_cons.mpr ⟨fun hmem => ?_, ih h.2⟩
    have hdefined : Rules.defines older e.lhs = true := Rules.defines_iff.mpr ⟨e, hmem, rfl⟩
    exact absurd (h.1.2.1.symm.trans hdefined) Bool.false_ne_true

/-- A grounded record has no more entries than there are rules. -/
theorem Grounded.length_le {record : Rules} (h : Grounded rules record) :
    record.length ≤ rules.length :=
  (List.subperm_of_subset h.nodup h.subset).length_le

/-! ### Closed records -/

/-- A rule with an erased right side has an erased left side. -/
def Closed (rules : Rules) (n : Nullable) : Prop :=
  ∀ r ∈ rules, (∀ symbol ∈ r.rhs, n.contains symbol = true) → n.contains r.lhs = true

theorem size_le_size_add (n : Nullable) (r : Rule) : n.size ≤ (n.add r).size := by
  rw [add]
  split
  · exact Nat.le_succ n.size
  · exact Nat.le_refl n.size

theorem size_le_size_pass (n : Nullable) (part : Rules) : n.size ≤ (n.pass part).size := by
  induction part generalizing n with
  | nil => exact Nat.le_refl n.size
  | cons r rest ih => exact Nat.le_trans (size_le_size_add n r) (ih (n.add r))

theorem add_eq_self_of_size (h : (n.add r).size = n.size) : n.add r = n := by
  rw [add] at h ⊢
  split at h
  · exact absurd h (Nat.succ_ne_self n.size)
  · next hadd => rw [if_neg hadd]

theorem contains_lhs_of_add_eq_self (h : n.add r = n)
    (hrhs : ∀ symbol ∈ r.rhs, n.contains symbol = true) : n.contains r.lhs = true := by
  by_contra hlhs
  rw [add, if_pos (by simpa [hlhs] using hrhs)] at h
  exact absurd (congrArg size h) (Nat.succ_ne_self n.size)

/-- A pass that adds nothing has judged every rule by the same record. -/
theorem add_eq_self_of_size_pass (h : (n.pass part).size = n.size) : ∀ r ∈ part, n.add r = n := by
  induction part generalizing n with
  | nil =>
    intro r hr
    exact absurd hr List.not_mem_nil
  | cons r rest ih =>
    have hle : (n.add r).size ≤ ((n.add r).pass rest).size := size_le_size_pass _ rest
    have hge : n.size ≤ (n.add r).size := size_le_size_add n r
    have hpass : ((n.add r).pass rest).size = n.size := h
    have hadd : n.add r = n := add_eq_self_of_size (by omega)
    rw [hadd] at hpass
    exact List.forall_mem_cons.mpr ⟨hadd, ih hpass⟩

theorem closed_of_size_pass (h : (n.pass part).size = n.size) : n.Closed part := by
  intro r hr hrhs
  exact contains_lhs_of_add_eq_self (add_eq_self_of_size_pass h r hr) hrhs

/-- As long as the passes left and the entries made are together as many as the rules, saturation
ends with a pass that adds nothing. -/
theorem closed_saturate {passes : Nat} (h : Grounded rules n.erasers)
    (hbound : rules.length ≤ n.size + passes) : (saturate rules passes n).Closed rules := by
  induction passes generalizing n with
  | zero =>
    have hpass : (n.pass rules).size ≤ rules.length :=
      (grounded_pass (fun _ hs => hs) h).length_le
    have hge : n.size ≤ (n.pass rules).size := size_le_size_pass n rules
    have heq : (n.pass rules).size = n.size := by omega
    exact closed_of_size_pass heq
  | succ passes ih =>
    have hge : n.size ≤ (n.pass rules).size := size_le_size_pass n rules
    rw [saturate]
    split
    · next heq => exact closed_of_size_pass heq
    · next hne => exact ih (grounded_pass (fun _ hs => hs) h) (by omega)

theorem closed_nullable (rules : Rules) : rules.nullable.Closed rules :=
  closed_saturate (grounded_pass (fun _ hs => (List.mem_filter.mp hs).1) trivial)
    (Nat.le_add_left _ _)

/-- A closed record has every symbol of a row that derives nothing. -/
theorem Closed.contains_of_derives {row : Form} (h : n.Closed rules) (hrow : rules.Derives row []) :
    ∀ symbol ∈ row, n.contains symbol = true := by
  refine hrow.head_induction (P := fun row => ∀ symbol ∈ row, n.contains symbol = true)
    (fun _ hs => absurd hs List.not_mem_nil) fun front back r hr _ hall symbol hsymbol => ?_
  rcases List.mem_append.mp hsymbol with hfront | hback
  · exact hall symbol (by simp [hfront])
  · rcases List.mem_cons.mp hback with rfl | hback
    · exact h r hr fun s hs => hall s (by simp [hs])
    · exact hall symbol (by simp [hback])

/-- **The analysis is exact.** It finds the symbols that derive nothing, and no others. -/
theorem contains_nullable_iff :
    rules.nullable.contains symbol = true ↔ rules.Derives [symbol] [] := by
  constructor
  · intro h
    exact (grounded_nullable rules).derives h
  · intro h
    exact (closed_nullable rules).contains_of_derives h symbol List.mem_cons_self

/-- A terminal is not nullable. -/
theorem contains_eq_false_of_defines (h : rules.defines symbol = false) :
    rules.nullable.contains symbol = false := by
  by_contra hcontains
  obtain ⟨r, hr, rfl⟩ := contains_iff.mp (Bool.not_eq_false _ ▸ hcontains)
  have hdefined : rules.defines r.lhs = true :=
    Rules.defines_iff.mpr ⟨r, (grounded_nullable rules).subset hr, rfl⟩
  exact absurd (h.symm.trans hdefined) Bool.false_ne_true

/-- A symbol that derives nothing has rules. -/
theorem defines_of_derives_nil (h : rules.Derives [symbol] []) : rules.defines symbol = true := by
  by_contra hdefines
  have hnot := contains_eq_false_of_defines (Bool.not_eq_true _ ▸ hdefines)
  rw [contains_nullable_iff.mpr h] at hnot
  exact Bool.noConfusion hnot

end Nullable

end ContextFree

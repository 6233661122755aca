import ContextFree.Derivation
import ContextFree.Proofs.Nullable

/-!
# Rules that find their left sides

A rule that does not find its left side leaves a form as it is, so a list of rules may be replayed
without all of its steps being steps. A list is applicable to a form when each of its rules finds
its left side on its turn. The steps that are shown of an applicable list are rewritings: each
replaces the first occurrence of a left side.

Where a rule finds its left side is a matter of order, whether it does is not: up to a permutation a
step exchanges the left side for the right side. The erasures at the end of a replay are exact in
both. The symbols before the one that is erased are not nullable, so none of them is the left side
of a rule that takes part, and what is left is the form without its nullable symbols.

## Main definitions

* `ContextFree.Form.Applicable` - every rule finds its left side.
* `ContextFree.Form.without` - a form without its nullable symbols.
* `ContextFree.Rules.Rewrites` - rewritings at first occurrences, with what they show.

## Main results

* `ContextFree.Form.apply_perm` - a step up to a permutation.
* `ContextFree.Form.Applicable.exists_rewrites` - the steps shown of an applicable list.
* `ContextFree.Nullable.applicable_erasures`, `ContextFree.Nullable.applyAll_erasures` - the
  erasures of a form are applicable to it, and leave the symbols that are not nullable.
-/

namespace ContextFree

namespace Form

variable {form : Form} {a b : List Rule}

/-! ### Applicable lists of rules -/

/-- Every rule of the list finds its left side on its turn. -/
def Applicable (form : Form) : List Rule → Prop
  | [] => True
  | r :: rest => r.lhs ∈ form ∧ (form.apply r).Applicable rest

@[simp] theorem applyAll_nil (form : Form) : form.applyAll [] = form := rfl

@[simp] theorem applyAll_cons (form : Form) (r : Rule) (rest : List Rule) :
    form.applyAll (r :: rest) = (form.apply r).applyAll rest := rfl

@[simp] theorem applyAll_append (form : Form) (a b : List Rule) :
    form.applyAll (a ++ b) = (form.applyAll a).applyAll b :=
  List.foldl_append

theorem applicable_append :
    form.Applicable (a ++ b) ↔ form.Applicable a ∧ (form.applyAll a).Applicable b := by
  induction a generalizing form with
  | nil => simp [Applicable]
  | cons r rest ih => simp [Applicable, ih, and_assoc]

/-- **A step up to a permutation.** It exchanges one symbol for the right side. -/
theorem apply_perm {r : Rule} {rest : Form} (h : form.Perm (r.lhs :: rest)) :
    (form.apply r).Perm (r.rhs ++ rest) := by
  obtain ⟨front, back, rfl, hfront⟩ := List.eq_append_cons_of_mem (h.symm.subset List.mem_cons_self)
  rw [apply_append_cons hfront]
  have hrest : (front ++ back).Perm rest := (List.perm_middle.symm.trans h).cons_inv
  have hmoved : (front ++ r.rhs ++ back).Perm (r.rhs ++ (front ++ back)) := by
    rw [← List.append_assoc]
    exact List.perm_append_comm.append_right back
  exact hmoved.trans (hrest.append_left r.rhs)

end Form

/-! ### Rewritings -/

/-- Rewritings from one form to another, each at the first occurrence of a left side, with the rules
and the forms that they lead to. -/
inductive Rules.Rewrites (rules : Rules) : Form → List (Rule × Form) → Form → Prop where
  /-- No rewriting. -/
  | done (form : Form) : Rewrites rules form [] form
  /-- One rewriting, and those after it. -/
  | step {front back last : Form} {r : Rule} {trace : List (Rule × Form)} :
      r ∈ rules → r.lhs ∉ front → Rewrites rules (front ++ r.rhs ++ back) trace last →
        Rewrites rules (front ++ r.lhs :: back) ((r, front ++ r.rhs ++ back) :: trace) last

/-- What is shown of a rewriting. -/
def Step.of (rewriting : Rule × Form) : Step := ⟨rewriting.1.text, rewriting.2.text⟩

theorem Rules.Rewrites.derives {rules : Rules} {form last : Form} {trace : List (Rule × Form)}
    (h : rules.Rewrites form trace last) : rules.Derives form last := by
  induction h with
  | done form => exact .refl form
  | @step front back _ r _ hr _ _ ih => exact ((Derives.refl _).tail hr).trans ih

/-- **The steps shown of an applicable list are rewritings.** -/
theorem Form.Applicable.exists_rewrites {rules : Rules} {form : Form} {steps : List Rule}
    (h : form.Applicable steps) (hmem : ∀ r ∈ steps, r ∈ rules) :
    ∃ trace, rules.Rewrites form trace (form.applyAll steps) ∧
      Replay.stepsFrom form steps = trace.map Step.of := by
  induction steps generalizing form with
  | nil => exact ⟨[], .done form, rfl⟩
  | cons r rest ih =>
    obtain ⟨hfound, hrest⟩ := h
    obtain ⟨trace, hrewrites, hshown⟩ := ih hrest fun s hs => hmem s (List.mem_cons_of_mem _ hs)
    obtain ⟨front, back, rfl, hfront⟩ := List.eq_append_cons_of_mem hfound
    rw [Replay.stepsFrom, hshown, Form.applyAll_cons]
    rw [Form.apply_append_cons hfront] at hrewrites ⊢
    exact ⟨_, .step (hmem r List.mem_cons_self) hfront hrewrites, rfl⟩

/-! ### Forms without nullable symbols -/

namespace Form

variable {n : Nullable} {r : Rule}

/-- The symbols of a form that are not nullable. -/
def without (form : Form) (n : Nullable) : Form := form.filter fun symbol => !n.contains symbol

@[simp] theorem without_append (a b : Form) (n : Nullable) :
    Form.without (a ++ b) n = a.without n ++ b.without n :=
  List.filter_append a b

theorem without_cons_of_contains {symbol : String} (h : n.contains symbol = true) (rest : Form) :
    Form.without (symbol :: rest) n = rest.without n :=
  List.filter_cons_of_neg (by simp [h])

theorem without_cons_of_not_contains {symbol : String} (h : n.contains symbol = false)
    (rest : Form) : Form.without (symbol :: rest) n = symbol :: rest.without n :=
  List.filter_cons_of_pos (by simp [h])

theorem without_eq_nil {form : Form} (h : ∀ symbol ∈ form, n.contains symbol = true) :
    form.without n = [] :=
  List.filter_eq_nil_iff.mpr fun s hs => by simp [h s hs]

theorem without_eq_self {form : Form} (h : ∀ symbol ∈ form, n.contains symbol = false) :
    form.without n = form :=
  List.filter_eq_self.mpr fun s hs => by simp [h s hs]

/-- A step at a symbol that is not nullable is a step without the nullable symbols. -/
theorem without_apply (h : n.contains r.lhs = false) (form : Form) :
    (form.apply r).without n = (form.without n).apply ⟨r.lhs, Form.without r.rhs n⟩ := by
  induction form with
  | nil => rfl
  | cons symbol rest ih =>
    rw [apply]
    split
    · next heq =>
      subst heq
      rw [without_append, without_cons_of_not_contains h, apply, if_pos rfl]
    · next hne =>
      cases hsymbol : n.contains symbol with
      | true => rw [without_cons_of_contains hsymbol, without_cons_of_contains hsymbol, ih]
      | false =>
        rw [without_cons_of_not_contains hsymbol, without_cons_of_not_contains hsymbol, ih, apply,
          if_neg hne]

/-- A step that leads from a nullable symbol to nullable symbols only does not show. -/
theorem without_apply_of_contains (h : n.contains r.lhs = true)
    (hrhs : ∀ symbol ∈ r.rhs, n.contains symbol = true) (form : Form) :
    (form.apply r).without n = form.without n := by
  induction form with
  | nil => rfl
  | cons symbol rest ih =>
    rw [apply]
    split
    · next heq =>
      subst heq
      rw [without_append, without_eq_nil hrhs, without_cons_of_contains h, List.nil_append]
    · next hne =>
      cases hsymbol : n.contains symbol with
      | true => rw [without_cons_of_contains hsymbol, without_cons_of_contains hsymbol, ih]
      | false => rw [without_cons_of_not_contains hsymbol, without_cons_of_not_contains hsymbol, ih]

end Form

/-! ### Erasures -/

namespace Nullable

variable {rules record : Rules} {symbol : String}

theorem erasureIn_eq_nil (h : record.defines symbol = false) : erasureIn record symbol = [] := by
  induction record with
  | nil => rfl
  | cons e older ih =>
    obtain ⟨hne, holder⟩ := Bool.or_eq_false_iff.mp h
    rw [erasureIn, if_neg (by simpa using hne), ih holder]

theorem mem_of_mem_erasureIn {r : Rule} (h : r ∈ erasureIn record symbol) : r ∈ record := by
  induction record generalizing symbol with
  | nil => exact absurd h List.not_mem_nil
  | cons e older ih =>
    rw [erasureIn] at h
    split at h
    · rcases List.mem_cons.mp h with rfl | h
      · exact List.mem_cons_self
      · obtain ⟨s, -, hs⟩ := List.mem_flatMap.mp h
        exact List.mem_cons_of_mem e (ih hs)
    · exact List.mem_cons_of_mem e (ih h)

/-- A record erases symbols behind symbols that it does not define. -/
def Erases (record : Rules) : Prop :=
  ∀ (symbol : String) (front back : Form), record.defines symbol = true →
    (∀ s ∈ front, record.defines s = false) →
    Form.Applicable (front ++ symbol :: back) (erasureIn record symbol) ∧
      Form.applyAll (front ++ symbol :: back) (erasureIn record symbol) = front ++ back

/-- A record that erases symbols erases the symbols of a row from left to right. -/
theorem Erases.erases_row (h : Erases record) (front row back : Form)
    (hfront : ∀ s ∈ front, record.defines s = false) :
    Form.Applicable (front ++ (row ++ back)) (row.flatMap (erasureIn record)) ∧
      Form.applyAll (front ++ (row ++ back)) (row.flatMap (erasureIn record)) =
        front ++ (row.filter (fun s => !record.defines s) ++ back) := by
  induction row generalizing front with
  | nil => exact ⟨trivial, rfl⟩
  | cons symbol rest ih =>
    rw [List.flatMap_cons, Form.applicable_append, Form.applyAll_append, List.cons_append]
    cases hsymbol : record.defines symbol with
    | true =>
      obtain ⟨happlicable, hform⟩ := h symbol front (rest ++ back) hsymbol hfront
      obtain ⟨hrest, hlast⟩ := ih front hfront
      rw [hform, List.filter_cons_of_neg (by simp [hsymbol])]
      exact ⟨⟨happlicable, hrest⟩, hlast⟩
    | false =>
      -- a symbol that stays joins those before the next
      have hfront' : ∀ s ∈ front ++ [symbol], record.defines s = false := by
        intro s hs
        rcases List.mem_append.mp hs with hs | hs
        · exact hfront s hs
        · exact List.mem_singleton.mp hs ▸ hsymbol
      obtain ⟨hrest, hlast⟩ := ih (front ++ [symbol]) hfront'
      rw [List.append_assoc] at hrest hlast
      rw [erasureIn_eq_nil hsymbol, Form.applyAll_nil, List.filter_cons_of_pos (by simp [hsymbol])]
      refine ⟨⟨trivial, hrest⟩, hlast.trans ?_⟩
      simp

theorem Grounded.erases (h : Grounded rules record) : Erases record := by
  induction record with
  | nil =>
    intro symbol front back hsymbol
    simp [Rules.defines] at hsymbol
  | cons e older ih =>
    intro symbol front back hsymbol hfront
    obtain ⟨⟨-, -, hrhs⟩, holder⟩ := h
    have hfront_older : ∀ s ∈ front, Rules.defines older s = false := fun s hs =>
      (Bool.or_eq_false_iff.mp (hfront s hs)).2
    rw [erasureIn]
    split
    · next heq =>
      subst heq
      have hnot : e.lhs ∉ front := fun hmem =>
        absurd ((hfront _ hmem).symm.trans hsymbol) Bool.false_ne_true
      have hempty : e.rhs.filter (fun s => !Rules.defines older s) = [] :=
        List.filter_eq_nil_iff.mpr fun s hs => by simp [hrhs s hs]
      obtain ⟨happlicable, hform⟩ := (ih holder).erases_row front e.rhs back hfront_older
      rw [hempty] at hform
      rw [Form.applyAll_cons, Form.Applicable, Form.apply_append_cons hnot, List.append_assoc]
      exact ⟨⟨by simp, happlicable⟩, hform⟩
    · next hne =>
      refine ih holder symbol front back ?_ hfront_older
      exact (Bool.or_eq_true_iff.mp hsymbol).resolve_left (by simpa using hne)

/-- The erasures of a form are applicable to it. -/
theorem applicable_erasures (rules : Rules) (form : Form) :
    form.Applicable (form.flatMap rules.nullable.erasure) := by
  have h := (grounded_nullable rules).erases.erases_row [] form []
    fun _ hs => absurd hs List.not_mem_nil
  rw [List.append_nil] at h
  exact h.1

/-- **Erasing leaves the symbols that are not nullable.** -/
theorem applyAll_erasures (rules : Rules) (form : Form) :
    form.applyAll (form.flatMap rules.nullable.erasure) = form.without rules.nullable := by
  have h := (grounded_nullable rules).erases.erases_row [] form []
    fun _ hs => absurd hs List.not_mem_nil
  rw [List.append_nil, List.append_nil] at h
  exact h.2

theorem mem_of_mem_erasures {r : Rule} {form : Form}
    (h : r ∈ form.flatMap rules.nullable.erasure) : r ∈ rules := by
  obtain ⟨symbol, -, hr⟩ := List.mem_flatMap.mp h
  exact (grounded_nullable rules).subset (mem_of_mem_erasureIn hr)

end Nullable

end ContextFree

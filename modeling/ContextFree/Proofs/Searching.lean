import ContextFree.Reachable
import ContextFree.Proofs.Loop
import Mathlib.Algebra.BigOperators.Group.Finset.Basic
import Mathlib.Data.List.Perm.Subperm

/-!
# Searching a finite graph

Whether one node is reached from another can be found out in two ways. Exploration goes breadth
first for a fixed number of rounds. A search goes depth first: it takes a node from a stack, stops
if that is the one it looks for, and otherwise puts its successors on the stack unless it has been
there before. Nothing bounds the search, and the graph may have cycles.

Both are right. Exploration adds a node in every round that it needs, so as many rounds as there are
nodes leave no step out. A search takes every edge at most once: the nodes on its stack and the
edges of the nodes not visited so far are together one fewer after each step.

## Main definitions

* `ContextFree.Search`, `ContextFree.Search.step?` - the search as a loop.
* `ContextFree.Search.Sound` - what every step of a search keeps.

## Main results

* `ContextFree.mem_reached_iff` - exploration finds what lies at the end of a path.
* `ContextFree.Search.exists_ends_search` - a search ends, having found its target if there is a
  path to it.
-/

namespace ContextFree

variable {α : Type} [DecidableEq α] {next : α → List α} {a b c : α}

/-! ### Paths -/

namespace Path

omit [DecidableEq α]

theorem head (h : b ∈ next a) (hpath : Path next b c) : Path next a c := by
  induction hpath with
  | single hc => exact (Path.single h).tail hc
  | tail _ hc ih => exact ih.tail hc

theorem exists_next (h : Path next a b) : ∃ c, c ∈ next a := by
  induction h with
  | single hb => exact ⟨_, hb⟩
  | tail _ _ ih => exact ih

/-- Whatever holds of the successors of the first node, and is kept by steps, holds of the last. -/
theorem induction_on {P : α → Prop} (h : Path next a b) (hfirst : ∀ c ∈ next a, P c)
    (hstep : ∀ c, P c → ∀ d ∈ next c, P d) : P b := by
  induction h with
  | single hb => exact hfirst _ hb
  | tail _ hc ih => exact hstep _ ih _ hc

end Path

/-! ### Exploration -/

/-- With a round for each node not seen yet, exploration keeps the frontier and ends with nodes that
no step leaves. -/
theorem explore_closed {nodes : List α} (hnodes : ∀ a, ∀ b ∈ next a, b ∈ nodes) {rounds : Nat}
    {seen frontier : List α} (hnodup : (seen ++ frontier).Nodup) (hsub : seen ++ frontier ⊆ nodes)
    (hseen : ∀ a ∈ seen, ∀ b ∈ next a, b ∈ seen ++ frontier)
    (hrounds : nodes.length ≤ seen.length + rounds) :
    seen ++ frontier ⊆ explore next rounds seen frontier ∧
      ∀ a ∈ explore next rounds seen frontier, ∀ b ∈ next a,
        b ∈ explore next rounds seen frontier := by
  induction rounds generalizing seen frontier with
  | zero =>
    -- all nodes are seen, so none is left for the frontier
    have hlength := (List.subperm_of_subset hnodup hsub).length_le
    rw [List.length_append] at hlength
    obtain rfl : frontier = [] := List.eq_nil_of_length_eq_zero (by omega)
    rw [List.append_nil] at hseen ⊢
    exact ⟨fun _ h => h, hseen⟩
  | succ rounds ih =>
    rw [explore]
    split
    · next hempty =>
      obtain rfl : frontier = [] := List.isEmpty_iff.mp hempty
      rw [List.append_nil] at hseen ⊢
      exact ⟨fun _ h => h, hseen⟩
    · next hnonempty =>
      have hpos : 0 < frontier.length :=
        List.length_pos_of_ne_nil fun h => hnonempty (List.isEmpty_iff.mpr h)
      -- the next frontier holds the successors of this one that are not known yet
      have hfresh : ∀ b, b ∈ (frontier.flatMap next).eraseDups.filter
          (fun a => !(seen ++ frontier).contains a) ↔
            (∃ a ∈ frontier, b ∈ next a) ∧ b ∉ seen ++ frontier := by
        intro b
        simp
      generalize hfrontier : (frontier.flatMap next).eraseDups.filter
        (fun a => !(seen ++ frontier).contains a) = fresh at hfresh
      have hnodup' : (seen ++ frontier ++ fresh).Nodup := by
        refine hnodup.append (hfrontier ▸ (nodup_eraseDups _).filter _) fun b hb hfresh' => ?_
        exact ((hfresh b).mp hfresh').2 hb
      have hsub' : seen ++ frontier ++ fresh ⊆ nodes := by
        refine List.append_subset.mpr ⟨hsub, fun b hb => ?_⟩
        obtain ⟨⟨a, -, hab⟩, -⟩ := (hfresh b).mp hb
        exact hnodes a b hab
      have hseen' : ∀ a ∈ seen ++ frontier, ∀ b ∈ next a, b ∈ seen ++ frontier ++ fresh := by
        intro a ha b hb
        by_cases hknown : b ∈ seen ++ frontier
        · exact List.mem_append_left _ hknown
        · rcases List.mem_append.mp ha with ha | ha
          · exact absurd (hseen a ha b hb) hknown
          · exact List.mem_append_right _ ((hfresh b).mpr ⟨⟨a, ha, hb⟩, hknown⟩)
      obtain ⟨hkept, hclosed⟩ := ih hnodup' hsub' hseen' (by rw [List.length_append]; omega)
      simp only [hfrontier]
      exact ⟨fun a ha => hkept (List.mem_append_left _ ha), hclosed⟩

/-- **Exploration finds what lies at the end of a path**, if it may take as many rounds as there are
nodes. -/
theorem mem_reached_iff {nodes : List α} (hnodes : ∀ a, ∀ b ∈ next a, b ∈ nodes) :
    b ∈ reached next nodes.length a ↔ Path next a b := by
  constructor
  · exact Path.of_mem_reached
  · intro h
    have hsub : [] ++ (next a).eraseDups ⊆ nodes := fun c hc =>
      hnodes a c (List.mem_eraseDups.mp hc)
    obtain ⟨hkept, hclosed⟩ := explore_closed hnodes (nodup_eraseDups _) hsub
      (fun _ h => absurd h List.not_mem_nil) (Nat.le_add_left nodes.length _)
    exact h.induction_on (fun c hc => hkept (List.mem_eraseDups.mpr hc)) hclosed

/-! ### Search -/

/-- A search in progress. -/
structure Search (α : Type) where
  /-- The nodes that were visited. -/
  visited : Finset α
  /-- The nodes still to be looked at, the next one first. -/
  pending : List α

namespace Search

variable {nodes : Finset α} {origin target : α} {s s' : Search α}

/-- The search before its first step, with the successors of its origin to be looked at. -/
def start (next : α → List α) (origin : α) : Search α := ⟨∅, (next origin).reverse⟩

/-- One step of a search: look at the next node. The loop ends where that is the target, or where no
node is left. -/
def step? (next : α → List α) (target : α) (s : Search α) : Option (Search α) :=
  match s.pending with
  | [] => none
  | node :: rest =>
    if node = target then none
    else if node ∈ s.visited then some ⟨s.visited, rest⟩
    else some ⟨insert node s.visited, (next node).reverse ++ rest⟩

/-- The search has come to its target. -/
def Found (target : α) (s : Search α) : Prop := s.pending.head? = some target

/-- The nodes to be looked at, and the edges from nodes that are not visited yet. -/
def work (next : α → List α) (nodes : Finset α) (s : Search α) : Nat :=
  s.pending.length + ∑ a ∈ nodes \ s.visited, (next a).length

/-- What every step of a search keeps: it stays on paths from its origin, has not passed its target,
and has not lost a successor of a node it has been to. -/
structure Sound (next : α → List α) (nodes : Finset α) (origin target : α) (s : Search α) :
    Prop where
  /-- The nodes still to be looked at are nodes of the graph. -/
  mem_nodes : ∀ a ∈ s.pending, a ∈ nodes
  /-- A path leads to each of them. -/
  path : ∀ a ∈ s.pending, Path next origin a
  /-- The target was not visited. -/
  target_not_mem : target ∉ s.visited
  /-- Successors are visited, or still to be looked at. -/
  mem_or_mem : ∀ a, a = origin ∨ a ∈ s.visited → ∀ b ∈ next a, b ∈ s.visited ∨ b ∈ s.pending

omit [DecidableEq α] in
theorem sound_start (hnodes : ∀ a ∈ nodes, ∀ b ∈ next a, b ∈ nodes) (horigin : origin ∈ nodes) :
    (start next origin).Sound next nodes origin target where
  mem_nodes a ha := hnodes origin horigin a (List.mem_reverse.mp ha)
  path a ha := .single (List.mem_reverse.mp ha)
  target_not_mem := Finset.notMem_empty target
  mem_or_mem a ha b hb := by
    obtain rfl : a = origin := ha.resolve_right (Finset.notMem_empty a)
    exact Or.inr (List.mem_reverse.mpr hb)

section

variable {visited : Finset α} {node : α} {rest : List α}

omit [DecidableEq α] in
/-- A node that was visited before may be passed over. -/
theorem Sound.skip (h : (Search.mk visited (node :: rest)).Sound next nodes origin target)
    (hvisited : node ∈ visited) : (Search.mk visited rest).Sound next nodes origin target where
  mem_nodes a ha := h.mem_nodes a (List.mem_cons_of_mem _ ha)
  path a ha := h.path a (List.mem_cons_of_mem _ ha)
  target_not_mem := h.target_not_mem
  mem_or_mem a ha b hb := by
    rcases h.mem_or_mem a ha b hb with hb | hb
    · exact Or.inl hb
    · rcases List.mem_cons.mp hb with rfl | hb
      · exact Or.inl hvisited
      · exact Or.inr hb

/-- The successors of a node are to be looked at when it is visited. -/
theorem Sound.visit (hnodes : ∀ a ∈ nodes, ∀ b ∈ next a, b ∈ nodes)
    (h : (Search.mk visited (node :: rest)).Sound next nodes origin target) (hne : node ≠ target) :
    (Search.mk (insert node visited) ((next node).reverse ++ rest)).Sound next nodes origin
      target where
  mem_nodes a ha := by
    rcases List.mem_append.mp ha with ha | ha
    · exact hnodes node (h.mem_nodes node List.mem_cons_self) a (List.mem_reverse.mp ha)
    · exact h.mem_nodes a (List.mem_cons_of_mem _ ha)
  path a ha := by
    rcases List.mem_append.mp ha with ha | ha
    · exact (h.path node List.mem_cons_self).tail (List.mem_reverse.mp ha)
    · exact h.path a (List.mem_cons_of_mem _ ha)
  target_not_mem htarget :=
    (Finset.mem_insert.mp htarget).elim (fun heq => hne heq.symm) h.target_not_mem
  mem_or_mem a ha b hb := by
    simp only [Finset.mem_insert, List.mem_append, List.mem_reverse] at ha ⊢
    by_cases heq : a = node
    · exact Or.inr (Or.inl (heq ▸ hb))
    · have hbefore : a = origin ∨ a ∈ visited := by simpa [heq] using ha
      rcases h.mem_or_mem a hbefore b hb with hb | hb
      · exact Or.inl (Or.inr hb)
      · rcases List.mem_cons.mp hb with rfl | hb
        · exact Or.inl (Or.inl rfl)
        · exact Or.inr (Or.inr hb)

/-- When a node is visited, its edges move to the stack. -/
theorem work_visit (hnode : node ∈ nodes) (hvisited : node ∉ visited) :
    (Search.mk (insert node visited) ((next node).reverse ++ rest)).work next nodes + 1 =
      (Search.mk visited (node :: rest)).work next nodes := by
  have hsum := Finset.add_sum_erase (nodes \ visited) (fun a => (next a).length)
    (Finset.mem_sdiff.mpr ⟨hnode, hvisited⟩)
  rw [← Finset.sdiff_insert] at hsum
  simp only [work, List.length_append, List.length_reverse, List.length_cons]
  omega

end

/-- **One step of a search** keeps it sound, and leaves less work. -/
theorem Sound.step (hnodes : ∀ a ∈ nodes, ∀ b ∈ next a, b ∈ nodes)
    (h : s.Sound next nodes origin target) (hstep : step? next target s = some s') :
    s'.Sound next nodes origin target ∧ s'.work next nodes < s.work next nodes := by
  obtain ⟨visited, pending⟩ := s
  cases pending with
  | nil => exact absurd hstep (Option.not_mem_none s')
  | cons node rest =>
    simp only [step?] at hstep
    split at hstep
    · exact absurd hstep (Option.not_mem_none s')
    · next hne =>
      split at hstep
      · next hvisited =>
        obtain rfl := Option.some.inj hstep
        refine ⟨h.skip hvisited, ?_⟩
        simp only [work, List.length_cons]
        omega
      · next hvisited =>
        obtain rfl := Option.some.inj hstep
        have hnode : node ∈ nodes := h.mem_nodes node List.mem_cons_self
        exact ⟨h.visit hnodes hne, Nat.lt_of_succ_le (work_visit hnode hvisited).le⟩

/-- Where a sound search ends, it has found its target if a path leads there. -/
theorem Sound.found_iff (h : s.Sound next nodes origin target)
    (hstop : step? next target s = none) : s.Found target ↔ Path next origin target := by
  constructor
  · intro hfound
    exact h.path target (List.mem_of_mem_head? hfound)
  · intro hpath
    cases hpending : s.pending with
    | nil =>
      -- nothing is left, so no path leads out of what was visited
      have hvisited : ∀ a, a = origin ∨ a ∈ s.visited → ∀ b ∈ next a, b ∈ s.visited := by
        intro a ha b hb
        refine (h.mem_or_mem a ha b hb).resolve_right ?_
        rw [hpending]
        exact List.not_mem_nil
      exact absurd (hpath.induction_on (hvisited origin (Or.inl rfl))
        fun c hc => hvisited c (Or.inr hc)) h.target_not_mem
    | cons node rest =>
      rw [step?, hpending] at hstop
      simp only at hstop
      split at hstop
      · next heq => rw [Found, hpending, List.head?_cons, heq]
      · split at hstop <;> exact absurd hstop (Option.some_ne_none _)

/-- **A search ends**, after no more steps than its origin and all nodes have edges, and it has
found its target if a path leads there. -/
theorem exists_ends_search (hnodes : ∀ a ∈ nodes, ∀ b ∈ next a, b ∈ nodes)
    (horigin : origin ∈ nodes) (target : α) :
    ∃ count ≤ (next origin).length + ∑ a ∈ nodes, (next a).length,
      ∃ s, Ends (step? next target) count (start next origin) s ∧
        (s.Found target ↔ Path next origin target) := by
  have hstart : (start next origin).Sound next nodes origin target := sound_start hnodes horigin
  obtain ⟨count, hcount, s, hends, hsound⟩ := exists_ends (work next nodes)
    (fun _ _ h hstep => h.step hnodes hstep) hstart
  refine ⟨count, hcount.trans_eq ?_, s, hends, hsound.found_iff hends.stops⟩
  rw [work, start, List.length_reverse, Finset.sdiff_empty]

end Search

end ContextFree

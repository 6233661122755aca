/-!
# Nodes reached in a finite graph

A graph is given by its successor function. Exploration goes breadth first in rounds: each round
adds the frontier to the nodes already seen and takes the successors not seen so far as the next
frontier. A round with a frontier adds a node, so as many rounds as the graph has nodes are enough.

## Main definitions

* `ContextFree.explore` - a bounded number of rounds.
* `ContextFree.reached` - the nodes reached from a node in one or more steps.

## Main results

* `ContextFree.Path.of_mem_reached` - whatever is reached lies at the end of a path.
-/

namespace ContextFree

variable {α : Type} [DecidableEq α]

/-- Explore for at most the given number of rounds, starting from the nodes seen and a frontier of
nodes still to be expanded. -/
def explore (next : α → List α) : Nat → List α → List α → List α
  | 0, seen, _ => seen
  | rounds + 1, seen, frontier =>
    if frontier.isEmpty then seen
    else
      let known := seen ++ frontier
      explore next rounds known ((frontier.flatMap next).eraseDups.filter fun a => !known.contains a)

/-- The nodes reached from `a` in one or more steps, for a graph of at most `bound` nodes. -/
def reached (next : α → List α) (bound : Nat) (a : α) : List α :=
  explore next bound [] (next a).eraseDups

/-- First occurrences are found from the front on: what holds of a list without the later copies of
its first entry holds of the list. -/
theorem eraseDups_induction {P : List α → Prop} (nil : P [])
    (cons : ∀ a rest, P (rest.filter fun b => !b == a) → P (a :: rest)) (l : List α) : P l := by
  induction hn : l.length using Nat.strongRecOn generalizing l with
  | _ n ih =>
    cases l with
    | nil => exact nil
    | cons a rest =>
      have hlength : (rest.filter fun b => !b == a).length < n :=
        hn ▸ Nat.lt_succ_of_le (List.length_filter_le _ _)
      exact cons a rest (ih _ hlength _ rfl)

/-- The first occurrences of a list's entries are different from each other. -/
theorem nodup_eraseDups (l : List α) : l.eraseDups.Nodup := by
  induction l using eraseDups_induction with
  | nil => exact List.nodup_nil
  | cons a rest ih =>
    rw [List.eraseDups_cons, List.nodup_cons]
    refine ⟨fun hmem => ?_, ih⟩
    simpa using (List.mem_filter.mp (List.mem_eraseDups.mp hmem)).2

/-! ### Paths -/

/-- A path of one or more steps along the successor function. -/
inductive Path (next : α → List α) : α → α → Prop where
  /-- One step. -/
  | single {a b : α} : b ∈ next a → Path next a b
  /-- A path and one more step. -/
  | tail {a b c : α} : Path next a b → c ∈ next b → Path next a c

private theorem mem_explore_aux {next : α → List α} {P : α → Prop}
    (hstep : ∀ a, P a → ∀ b ∈ next a, P b) :
    ∀ (rounds : Nat) (seen frontier : List α), (∀ a ∈ seen, P a) → (∀ a ∈ frontier, P a) →
      ∀ a ∈ explore next rounds seen frontier, P a
  | 0, _, _, hseen, _, a, ha => hseen a ha
  | rounds + 1, seen, frontier, hseen, hfrontier, a, ha => by
    rw [explore] at ha
    split at ha
    · exact hseen a ha
    · refine mem_explore_aux hstep rounds _ _ ?_ ?_ a ha
      · intro b hb
        rcases List.mem_append.mp hb with h | h
        · exact hseen b h
        · exact hfrontier b h
      · intro b hb
        have hb := List.mem_eraseDups.mp (List.mem_filter.mp hb).1
        obtain ⟨c, hc, hbc⟩ := List.mem_flatMap.mp hb
        exact hstep c (hfrontier c hc) b hbc

/-- Exploration never leaves the paths of the graph. -/
theorem Path.of_mem_reached {next : α → List α} {bound : Nat} {a b : α}
    (h : b ∈ reached next bound a) : Path next a b :=
  mem_explore_aux (P := Path next a) (fun _ hc _ hd => hc.tail hd) bound [] _
    (fun _ h => absurd h List.not_mem_nil)
    (fun _ hc => .single (List.mem_eraseDups.mp hc)) b h

end ContextFree

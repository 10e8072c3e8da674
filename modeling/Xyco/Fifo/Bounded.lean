import Xyco.Machine.Run

/-!
# A bounded FIFO queue

The abstract queue: its contents, everything that ever went in and everything that came out, in
order.
-/

namespace Xyco.Fifo

open Machine

variable {α : Type*}

structure Queue (α : Type*) where
  contents : List α
  enqueued : List α
  dequeued : List α

inductive Op (α : Type*) where
  | enqueue (a : α)
  | dequeue

namespace Queue

def empty : Queue α := ⟨[], [], []⟩

/-- Nothing enters a queue of `size` elements, nothing leaves an empty one. -/
def step (size : ℕ) (q : Queue α) : Op α → Option (Queue α)
  | .enqueue a =>
    if q.contents.length < size then some ⟨q.contents ++ [a], q.enqueued ++ [a], q.dequeued⟩ else none
  | .dequeue =>
    match q.contents with
    | a :: contents => some ⟨contents, q.enqueued, q.dequeued ++ [a]⟩
    | [] => none

/-- The bound, and the order: what has come out is a front part of what went in, and the rest is
still there. -/
structure WellFormed (size : ℕ) (q : Queue α) : Prop where
  bound : q.contents.length ≤ size
  order : q.enqueued = q.dequeued ++ q.contents

theorem wellFormed_empty (size : ℕ) : WellFormed size (empty : Queue α) :=
  ⟨Nat.zero_le _, rfl⟩

theorem WellFormed.step {size : ℕ} {q q' : Queue α} {op : Op α} (h : WellFormed size q)
    (hstep : q.step size op = some q') : WellFormed size q' := by
  cases op with
  | enqueue a =>
    simp only [Queue.step] at hstep
    split at hstep
    · rename_i hlt
      obtain rfl := Option.some.inj hstep
      constructor
      · show (q.contents ++ [a]).length ≤ size
        rw [List.length_append]
        exact hlt
      · show q.enqueued ++ [a] = q.dequeued ++ (q.contents ++ [a])
        rw [h.order, List.append_assoc]
    · cases hstep
  | dequeue =>
    simp only [Queue.step] at hstep
    split at hstep
    · rename_i a contents hq
      obtain rfl := Option.some.inj hstep
      constructor
      · have := h.bound
        rw [hq, List.length_cons] at this
        show contents.length ≤ size
        omega
      · show q.enqueued = q.dequeued ++ [a] ++ contents
        rw [h.order, hq, List.append_assoc]
        rfl
    · cases hstep

theorem wellFormed_of_reachable {size : ℕ} {q : Queue α} (h : Reachable (step size) empty q) :
    WellFormed size q :=
  h.invariant (wellFormed_empty size) fun _ _ _ hq hstep => hq.step hstep

end Queue

end Xyco.Fifo

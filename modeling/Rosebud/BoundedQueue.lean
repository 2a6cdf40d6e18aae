import Mathlib.Data.List.Basic

/-! # Bounded queues

What a queue in hardware is for: items leave in the order they came, and it takes one in as
long as there is room.  A flush empties it, and in the cycle after a flush it takes nothing.

The queue is a machine of its own, to be compared with a circuit cycle by cycle: `accepts` and
`offers` are its handshakes, `next` its cycle.
-/

/-- The items, oldest first, and whether the last cycle was a flush. -/
structure BoundedQueue (α : Type) where
  items : List α
  settling : Bool

namespace BoundedQueue
variable {α : Type}

/-- One cycle: a flush, an item that is offered, and whether the oldest item is taken. -/
structure Inputs (α : Type) where
  flush : Bool
  offer : Option α
  take : Bool

/-- A queue that was just flushed. -/
def flushed : BoundedQueue α := ⟨[], true⟩

section Machine
variable (cap : Nat) (q : BoundedQueue α) (i : Inputs α)

def accepts : Bool := !q.settling && decide (q.items.length < cap)

def offers : Bool := !q.items.isEmpty

def next : BoundedQueue α :=
  if i.flush then flushed
  else ⟨q.items.drop i.take.toNat ++ (if q.accepts cap then i.offer.toList else []), false⟩

end Machine

section Step
variable {cap : Nat} {q : BoundedQueue α} {i : Inputs α}

theorem next_of_flush (h : i.flush = true) : q.next cap i = flushed := if_pos h

theorem next_of_not_flush (h : i.flush = false) :
    q.next cap i =
      ⟨q.items.drop i.take.toNat ++ (if q.accepts cap then i.offer.toList else []), false⟩ :=
  if_neg (by rw [h]; exact Bool.false_ne_true)

/-- **An item that comes in as another leaves keeps order and length**, at any fill level. -/
theorem next_of_both {x y : α} {rest : List α} (hq : q.items = y :: rest)
    (hf : i.flush = false) (ha : q.accepts cap = true) (ho : i.offer = some x)
    (ht : i.take = true) :
    (q.next cap i).items = rest ++ [x] ∧ (q.next cap i).items.length = q.items.length := by
  have hitems : (q.next cap i).items = rest ++ [x] := by
    rw [next_of_not_flush hf, ha, ho, ht, hq]
    rfl
  refine ⟨hitems, ?_⟩
  rw [hitems, hq, List.length_append, List.length_singleton, List.length_cons]

end Step

end BoundedQueue

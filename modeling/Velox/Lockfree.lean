import Mathlib

namespace Velox
set_option autoImplicit true

/-- The single producer, single consumer queue of the `lockfree` library, which is not part of the
sources. What is assumed of it: a FIFO that holds up to `capacity` items, and turns others away. -/
structure SPSCQueue (α : Type*) (capacity : ℕ) where
  items : List α := []

namespace SPSCQueue

def push (x : α) (q : SPSCQueue α capacity) : Bool × SPSCQueue α capacity :=
  if q.items.length < capacity then (true, ⟨q.items ++ [x]⟩) else (false, q)

def pop (q : SPSCQueue α capacity) : Option (α × SPSCQueue α capacity) :=
  match q.items with
  | [] => none
  | x :: xs => some (x, ⟨xs⟩)

end SPSCQueue

end Velox

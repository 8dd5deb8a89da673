/-! Queues in which nothing waits twice.

    Elements leave in the order in which they came; pushing one that is waiting changes nothing. -/

namespace PointsTo

/-- A first-in-first-out queue of distinct ids. -/
structure Worklist where
  items : List Nat
  nodup : items.Nodup
  deriving Repr

namespace Worklist

/-- The queue in which nothing waits. -/
def empty : Worklist := ⟨[], List.nodup_nil⟩

instance : EmptyCollection Worklist := ⟨empty⟩
instance : Inhabited Worklist := ⟨empty⟩

/-- Is `x` waiting? -/
def contains (w : Worklist) (x : Nat) : Bool := w.items.contains x

/-- The number of waiting ids. -/
def size (w : Worklist) : Nat := w.items.length

/-- Does nothing wait? -/
def isEmpty (w : Worklist) : Bool := w.items.isEmpty

/-- Appends `x` unless it is waiting; the flag tells whether it was appended. -/
def push (w : Worklist) (x : Nat) : Bool × Worklist :=
  if h : x ∈ w.items then (false, w)
  else (true, ⟨w.items ++ [x], List.nodup_append.mpr ⟨w.nodup, by simp, by
    intro a ha b hb; rw [List.mem_singleton] at hb; subst hb; exact fun e => h (e ▸ ha)⟩⟩)

/-- Appends the ids of a list from left to right. -/
def pushAll (w : Worklist) (xs : List Nat) : Worklist := xs.foldl (fun w x => (w.push x).2) w

/-- The id that waits longest and the queue without it. -/
def pop? : Worklist → Option (Nat × Worklist)
  | ⟨[], _⟩ => none
  | ⟨x :: xs, h⟩ => some (x, ⟨xs, (List.nodup_cons.mp h).2⟩)

end Worklist

end PointsTo

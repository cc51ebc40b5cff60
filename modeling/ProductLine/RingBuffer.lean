/-!
# Ring buffers

A ring buffer holds at most `capacity` items in a circle.  Once it is full, a new item takes the
place of the oldest one.  `RingBuffer.toList` lists the items from oldest to newest.
-/
namespace ProductLine

universe u

/-- A buffer of bounded size that overwrites its oldest item when it is full. -/
structure RingBuffer (α : Type u) where
  items : Array α
  capacity : Nat
  /-- The place of the oldest item once the buffer is full. -/
  oldest : Nat

namespace RingBuffer

variable {α : Type u}

/-- A buffer without items. -/
def empty (capacity : Nat) : RingBuffer α := ⟨#[], capacity, 0⟩

/-- The number of items. -/
def size (b : RingBuffer α) : Nat := b.items.size

/-- Adds an item and hands back the one that had to go.  Without capacity that is the item
itself. -/
def push (b : RingBuffer α) (item : α) : Option α × RingBuffer α :=
  if b.capacity = 0 then (some item, b)
  else if b.items.size < b.capacity then (none, { b with items := b.items.push item })
  else
    (b.items[b.oldest]?,
      { b with
        items := b.items.setIfInBounds b.oldest item
        oldest := (b.oldest + 1) % b.capacity })

/-- The items from oldest to newest. -/
def toList (b : RingBuffer α) : List α :=
  b.items.toList.drop b.oldest ++ b.items.toList.take b.oldest

end RingBuffer

end ProductLine

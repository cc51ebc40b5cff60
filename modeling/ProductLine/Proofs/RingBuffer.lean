import Mathlib.Data.List.Basic
import Mathlib.Tactic.Common
import ProductLine.RingBuffer
/-!
# Ring buffers hold the latest items

However often the place of the oldest item went round, a buffer lists the latest items in the order
in which they were added, and an item goes out exactly when there is no room left for it.

* `RingBuffer.push_cases` says what adding an item does while the buffer fills up and when it is
  full;
* `RingBuffer.Rotated` says where the oldest item can be;
* `RingBuffer.toList_push` says that adding an item loses nothing, and `RingBuffer.size_push` how
  much stays in the buffer;
* `RingBuffer.run` adds items one by one, and `RingBuffer.run_keeps_latest` says what is handed back
  and what is held each time.
-/
namespace ProductLine

universe u

namespace RingBuffer

variable {α : Type u} {b : RingBuffer α} {item x : α}

/-! ## Items -/

theorem mem_toList : x ∈ b.toList ↔ x ∈ b.items.toList := by
  unfold toList
  rw [List.mem_append, or_comm, ← List.mem_append, List.take_append_drop]

@[simp] theorem length_toList (b : RingBuffer α) : b.toList.length = b.size := by
  simp only [toList, size, List.length_append, List.length_drop, List.length_take,
    Array.length_toList]
  omega

/-- An item is handed back at once, finds room at the end, or takes the place of the oldest one. -/
theorem push_cases (b : RingBuffer α) (item : α) :
    (b.capacity = 0 ∧ b.push item = (some item, b)) ∨
    (b.size < b.capacity ∧ b.push item = (none, { b with items := b.items.push item })) ∨
    (b.capacity ≠ 0 ∧ b.capacity ≤ b.size ∧ b.push item = (b.items[b.oldest]?,
      { b with
        items := b.items.setIfInBounds b.oldest item
        oldest := (b.oldest + 1) % b.capacity })) := by
  unfold push size
  by_cases hzero : b.capacity = 0
  · exact .inl ⟨hzero, if_pos hzero⟩
  · rw [if_neg hzero]
    by_cases hroom : b.items.size < b.capacity
    · exact .inr (.inl ⟨hroom, if_pos hroom⟩)
    · exact .inr (.inr ⟨hzero, Nat.le_of_not_lt hroom, if_neg hroom⟩)

/-- An added item is the only new one. -/
theorem mem_push (h : x ∈ (b.push item).2.toList) : x = item ∨ x ∈ b.toList := by
  rw [mem_toList] at h ⊢
  rcases b.push_cases item with ⟨-, hpush⟩ | ⟨-, hpush⟩ | ⟨-, -, hpush⟩
  · rw [hpush] at h
    exact .inr h
  · rw [hpush, Array.toList_push, List.mem_append, List.mem_singleton] at h
    exact h.symm
  · rw [hpush, Array.toList_setIfInBounds] at h
    exact (List.mem_or_eq_of_mem_set h).symm

@[simp] theorem capacity_push (b : RingBuffer α) (item : α) :
    (b.push item).2.capacity = b.capacity := by
  rcases b.push_cases item with ⟨-, hpush⟩ | ⟨-, hpush⟩ | ⟨-, -, hpush⟩ <;> rw [hpush]

/-! ## The place of the oldest item -/

/-- The oldest item comes first until the buffer is full, and from then on it may be anywhere. -/
structure Rotated (b : RingBuffer α) : Prop where
  fits : b.size ≤ b.capacity
  filling : b.size < b.capacity → b.oldest = 0
  inRange : b.oldest ≤ b.size - 1

/-- In an empty buffer the oldest item has its place at the front. -/
theorem rotated_empty (capacity : Nat) : (empty capacity : RingBuffer α).Rotated :=
  ⟨Nat.zero_le capacity, fun _ => rfl, Nat.zero_le _⟩

/-- There is one item more, as long as there is room. -/
theorem size_push (h : b.Rotated) (item : α) :
    (b.push item).2.size = min (b.size + 1) b.capacity := by
  have hfits := h.fits
  rcases b.push_cases item with ⟨hzero, hpush⟩ | ⟨hroom, hpush⟩ | ⟨-, hfull, hpush⟩
  · rw [hpush]
    show b.size = _
    omega
  · rw [hpush]
    show (b.items.push item).size = _
    rw [Array.size_push, ← size]
    omega
  · rw [hpush]
    show (b.items.setIfInBounds b.oldest item).size = _
    rw [Array.size_setIfInBounds, ← size]
    omega

/-- Adding an item keeps the place of the oldest one in range. -/
theorem Rotated.push (h : b.Rotated) (item : α) : (b.push item).2.Rotated := by
  obtain ⟨hfits, hfilling, hinRange⟩ := h
  have hsize := size_push ⟨hfits, hfilling, hinRange⟩ item
  have hcapacity := b.capacity_push item
  rcases b.push_cases item with ⟨hzero, hpush⟩ | ⟨hroom, hpush⟩ | ⟨hpos, hfull, hpush⟩
  · rw [hpush]
    exact ⟨hfits, hfilling, hinRange⟩
  · have hplace : (b.push item).2.oldest = 0 := by
      rw [hpush]
      exact hfilling hroom
    exact ⟨by omega, fun _ => hplace, by omega⟩
  · -- A full buffer stays full, and going round stays below the capacity.
    have hplace : (b.push item).2.oldest = (b.oldest + 1) % b.capacity := by
      rw [hpush]
    have hlt := Nat.mod_lt (b.oldest + 1) (Nat.pos_of_ne_zero hpos)
    exact ⟨by omega, by omega, by omega⟩

/-- In a full circle the new item takes the place of the oldest one, and the circle starts from the
next place, which is the first one after the last. -/
theorem rotate_set {xs : List α} {i : Nat} (hi : i < xs.length) (item : α) :
    xs[i] :: ((xs.set i item).drop ((i + 1) % xs.length) ++
        (xs.set i item).take ((i + 1) % xs.length)) =
      xs.drop i ++ xs.take i ++ [item] := by
  have hset : xs.set i item = xs.take i ++ item :: xs.drop (i + 1) :=
    List.set_eq_take_append_cons_drop.trans (if_pos hi)
  have hlength : (xs.take i ++ [item]).length = i + 1 := by
    simp [Nat.min_eq_left (Nat.le_of_lt hi)]
  rw [hset, List.append_assoc, List.drop_eq_getElem_cons hi, List.cons_append]
  congr 1
  rcases Nat.lt_or_ge (i + 1) xs.length with hlt | hge
  · rw [Nat.mod_eq_of_lt hlt, List.append_cons, List.drop_left' hlength, List.take_left' hlength]
  · have hlast : i + 1 = xs.length := by omega
    rw [hlast, Nat.mod_self, List.drop_length]
    simp

/-- **Adding an item loses nothing.**  What goes out is the oldest, and the rest stays in order. -/
theorem toList_push (h : b.Rotated) (item : α) :
    (b.push item).1.toList ++ (b.push item).2.toList = b.toList ++ [item] := by
  obtain ⟨hfits, hfilling, hinRange⟩ := h
  rcases b.push_cases item with ⟨hzero, hpush⟩ | ⟨hroom, hpush⟩ | ⟨hpos, hfull, hpush⟩
  · have hnil : b.toList = [] := by
      rw [← List.length_eq_zero_iff, length_toList]
      omega
    rw [hpush, hnil]
    rfl
  · rw [hpush]
    simp [toList, hfilling hroom]
  · have hi : b.oldest < b.items.toList.length := by
      show b.oldest < b.size
      omega
    have hevicted : b.items[b.oldest]? = some b.items.toList[b.oldest] := by
      rw [← Array.getElem?_toList, List.getElem?_eq_getElem hi]
    have hcapacity : b.capacity = b.items.toList.length := by
      show b.capacity = b.size
      omega
    rw [hpush, hevicted]
    simp only [toList, Array.toList_setIfInBounds, hcapacity]
    exact rotate_set hi item

/-- An item is handed back exactly if there is no room. -/
theorem length_handed_back (h : b.Rotated) (item : α) :
    (b.push item).1.toList.length = b.size + 1 - b.capacity := by
  have hlength := congrArg List.length (toList_push h item)
  rw [List.length_append, length_toList, size_push h, List.length_append, length_toList,
    List.length_singleton] at hlength
  omega

/-! ## Adding items one by one -/

/-- The items of a buffer are the latest of its history, as many as there is room for. -/
structure Holds (most : Nat) (history : List α) (b : RingBuffer α) : Prop extends Rotated b where
  capacity : b.capacity = most
  toList : b.toList = history.drop (history.length - most)

namespace Holds

variable {most : Nat} {history : List α}

theorem empty (most : Nat) : Holds most [] (empty most : RingBuffer α) :=
  ⟨rotated_empty most, rfl, List.drop_nil.symm⟩

/-- A buffer holds as much of the history as it has room for. -/
theorem size (h : Holds most history b) : b.size = min history.length most := by
  rw [← length_toList, h.toList, List.length_drop]
  omega

/-- What goes out and what stays, as a part of the history. -/
theorem toList_push (h : Holds most history b) (item : α) :
    (b.push item).1.toList ++ (b.push item).2.toList =
      (history ++ [item]).drop (history.length - most) := by
  rw [RingBuffer.toList_push h.toRotated, h.toList,
    List.drop_append_of_le_length (Nat.sub_le ..)]

/-- The first items find room, and later ones make the one go that was added so long before. -/
theorem handed_back (h : Holds most history b) (item : α) :
    (b.push item).1 =
      if history.length < most then none else (history ++ [item])[history.length - most]? := by
  have hlength := length_handed_back h.toRotated item
  have hlist := h.toList_push item
  rw [h.size, h.capacity] at hlength
  cases hevicted : (b.push item).1 with
  | none =>
    rw [hevicted] at hlength
    have hroom : history.length < most := by
      simp only [Option.toList_none, List.length_nil] at hlength
      omega
    rw [if_pos hroom]
  | some oldest =>
    rw [hevicted] at hlength hlist
    have hfull : ¬ history.length < most := by
      simp only [Option.toList_some, List.length_singleton] at hlength
      omega
    rw [if_neg hfull, ← List.head?_drop, ← hlist]
    rfl

/-- Adding an item adds it to the history. -/
theorem push (h : Holds most history b) (item : α) :
    Holds most (history ++ [item]) (b.push item).2 := by
  refine ⟨h.toRotated.push item, (b.capacity_push item).trans h.capacity, ?_⟩
  have hlength := length_handed_back h.toRotated item
  rw [h.size, h.capacity] at hlength
  calc (b.push item).2.toList
      = ((b.push item).1.toList ++ (b.push item).2.toList).drop (b.push item).1.toList.length :=
        List.drop_left.symm
    _ = (history ++ [item]).drop (history.length - most + (b.push item).1.toList.length) := by
        rw [h.toList_push, List.drop_drop]
    _ = (history ++ [item]).drop ((history ++ [item]).length - most) := by
        congr 1
        rw [hlength, List.length_append, List.length_singleton]
        omega

end Holds

/-- What each addition hands back, and the buffer after it. -/
def run (b : RingBuffer α) : List α → List (Option α × RingBuffer α)
  | [] => []
  | x :: xs => b.push x :: (b.push x).2.run xs

/-- Each addition is made to a buffer that holds the latest of the items before it. -/
theorem getElem?_run {most : Nat} {history : List α} (h : Holds most history b) {xs : List α}
    {k : Nat} {x : α} (hx : xs[k]? = some x) :
    ∃ before, Holds most (history ++ xs.take k) before ∧ (b.run xs)[k]? = some (before.push x) := by
  induction xs generalizing b history k with
  | nil => simp at hx
  | cons y xs ih =>
    cases k with
    | zero =>
      obtain rfl : y = x := by simpa using hx
      exact ⟨b, by simpa using h, rfl⟩
    | succ k =>
      obtain ⟨before, hbefore, hrun⟩ := ih (h.push y) (by simpa using hx)
      exact ⟨before, by simpa using hbefore, by simpa [run] using hrun⟩

theorem length_run (b : RingBuffer α) (xs : List α) : (b.run xs).length = xs.length := by
  induction xs generalizing b with
  | nil => rfl
  | cons x xs ih => rw [run, List.length_cons, ih, List.length_cons]

/-- The place of the oldest item is in range all along. -/
theorem Rotated.of_mem_run (h : b.Rotated) {xs : List α} {entry : Option α × RingBuffer α}
    (hentry : entry ∈ b.run xs) : entry.2.Rotated := by
  induction xs generalizing b with
  | nil => cases hentry
  | cons x xs ih =>
    rcases List.mem_cons.1 hentry with rfl | hentry
    · exact h.push x
    · exact ih (h.push x) hentry

/-- What the addition at a position hands back, what the buffer lists then, and how much it is. -/
theorem observe_run (capacity : Nat) {xs : List α} {k : Nat} (hk : k < xs.length) :
    ((empty capacity).run xs)[k]?.map (fun entry => (entry.1, entry.2.toList, entry.2.size)) =
      some (if k < capacity then none else xs[k - capacity]?,
        (xs.take (k + 1)).drop (k + 1 - capacity), min (k + 1) capacity) := by
  obtain ⟨before, hbefore, hrun⟩ := getElem?_run (.empty capacity) (List.getElem?_eq_getElem hk)
  rw [List.nil_append] at hbefore
  have hhistory : xs.take k ++ [xs[k]] = xs.take (k + 1) :=
    (List.take_succ_eq_append_getElem hk).symm
  have hafter := hhistory ▸ hbefore.push xs[k]
  have hhandedBack := hbefore.handed_back xs[k]
  rw [hhistory, List.length_take_of_le (Nat.le_of_lt hk),
    List.getElem?_take_of_lt (by omega)] at hhandedBack
  rw [hrun, Option.map_some, hhandedBack, hafter.toList, hafter.size, List.length_take_of_le hk]

/-- **A buffer holds the latest items.**  An empty buffer lists nothing.  After each of some
additions to it, it lists the latest items, from oldest to newest, as many as there are or as it has
room for.  As long as there is room nothing is handed back, and from then on each addition hands
back the item that was added `capacity` additions before, which is the added item itself if there is
no room at all.  The list of items can always be split at the place of the oldest one. -/
theorem run_keeps_latest (capacity : Nat) (xs : List α) :
    (empty capacity : RingBuffer α).toList = [] ∧
    ((empty capacity).run xs).map (fun entry => (entry.1, entry.2.toList, entry.2.size)) =
      (List.range xs.length).map (fun k =>
        (if k < capacity then none else xs[k - capacity]?,
          (xs.take (k + 1)).drop (k + 1 - capacity), min (k + 1) capacity)) ∧
    ∀ b ∈ ((empty capacity).run xs).map Prod.snd, b.oldest ≤ b.items.size := by
  refine ⟨rfl, ?_, ?_⟩
  · apply List.ext_getElem?
    intro k
    rw [List.getElem?_map, List.getElem?_map]
    rcases Nat.lt_or_ge k xs.length with hk | hk
    · rw [observe_run capacity hk, List.getElem?_range hk, Option.map_some]
    · simp [hk, length_run]
  · intro b hb
    obtain ⟨entry, hentry, rfl⟩ := List.mem_map.1 hb
    have hinRange := ((rotated_empty capacity).of_mem_run hentry).inRange
    exact Nat.le_trans hinRange (Nat.sub_le ..)

/-- With room for two items, the third one makes the first one go, and the fourth one the second. -/
theorem run_keeps_latest_four :
    ((empty 2).run ["a", "b", "c", "d"]).map
        (fun entry => (entry.1, entry.2.toList, entry.2.size)) =
      [(none, ["a"], 1), (none, ["a", "b"], 2), (some "a", ["b", "c"], 2),
        (some "b", ["c", "d"], 2)] ∧
    (((empty 2).push "a").2).oldest ≤ 1 := by
  obtain ⟨-, hlists, hplaces⟩ := run_keeps_latest 2 ["a", "b", "c", "d"]
  exact ⟨hlists, hplaces _ (List.mem_cons_self ..)⟩

end RingBuffer

end ProductLine

import Mathlib.Tactic.Common
/-!
# First occurrences

A list without its repetitions, where each item stays in the place in which it occurs first.

* `nodup_eraseDups` and `eraseDups_of_nodup` are about lists without repetitions;
* `eraseDups_map` and `eraseDups_concat` follow first occurrences through a map and a new item.
-/
namespace ProductLine

variable {α β : Type} [BEq α] [LawfulBEq α] [BEq β] [LawfulBEq β]

/-- First occurrences are different. -/
theorem nodup_eraseDups (xs : List α) : xs.eraseDups.Nodup := by
  cases xs with
  | nil => exact .nil
  | cons x xs =>
    rw [List.eraseDups_cons, List.nodup_cons]
    refine ⟨?_, nodup_eraseDups _⟩
    simp [List.mem_eraseDups]
termination_by xs.length
decreasing_by exact Nat.lt_succ_of_le (List.length_filter_le ..)

/-- Without repetitions nothing is erased. -/
theorem eraseDups_of_nodup {xs : List α} (h : xs.Nodup) : xs.eraseDups = xs := by
  induction xs with
  | nil => rfl
  | cons x xs ih =>
    obtain ⟨hx, hxs⟩ := List.nodup_cons.1 h
    have hfilter : xs.filter (fun y => !y == x) = xs := by
      rw [List.filter_eq_self]
      rintro y hy
      simpa using ne_of_mem_of_not_mem hy hx
    rw [List.eraseDups_cons, hfilter, ih hxs]

/-- A map that keeps the items of a list apart keeps their first occurrences. -/
theorem eraseDups_map {f : α → β} : ∀ {xs : List α},
    (∀ x ∈ xs, ∀ y ∈ xs, f x = f y → x = y) → (xs.map f).eraseDups = xs.eraseDups.map f
  | [], _ => rfl
  | x :: xs, hf => by
    have hothers :
        (xs.map f).filter (fun y => !y == f x) = (xs.filter (fun y => !y == x)).map f := by
      rw [List.filter_map]
      congr 1
      apply List.filter_congr
      intro y hy
      have hsame := hf y (List.mem_cons_of_mem x hy) x (List.mem_cons_self ..)
      by_cases hyx : y = x
      · simp [hyx]
      · simp [hyx, mt hsame hyx]
    rw [List.map_cons, List.eraseDups_cons, List.eraseDups_cons, List.map_cons, hothers]
    refine congrArg _ (eraseDups_map ?_)
    intro y hy z hz
    exact hf y (List.mem_cons_of_mem x (List.mem_filter.1 hy).1) z
      (List.mem_cons_of_mem x (List.mem_filter.1 hz).1)
termination_by xs => xs.length
decreasing_by exact Nat.lt_succ_of_le (List.length_filter_le ..)

/-- One more item is new or a repetition. -/
theorem eraseDups_concat (xs : List α) (x : α) :
    (xs ++ [x]).eraseDups = if x ∈ xs then xs.eraseDups else xs.eraseDups ++ [x] := by
  rw [List.eraseDups_append]
  split
  · rename_i hx
    simp [hx, List.removeAll]
  · rename_i hx
    simp [hx, List.removeAll, List.eraseDups_cons]

end ProductLine

import Mathlib.Data.List.Nodup
import Mathlib.Data.List.Sort
import Mathlib.Tactic.Common
import ProductLine.Build.Interactions
/-!
# Choices of positions are gone through in order

Choices from a list can be made by recursion: those that take the first item, and then those that do
not.  A search through one array makes the same choices of positions, each from the one before.

* `Choice.successor` says by recursion which choice comes next, and `Choice.next?_eq` that the array
  is turned into it without a read or write outside of it;
* `Choice.Followed` lists all choices after one, and `Choice.combinations_followed` says that
  recursion lists them;
* `Choice.visitFrom?_eq` says that the search comes to its end, and on what it acts until then.
-/
namespace ProductLine

/-! ## Choices by recursion -/

/-- The choices of `k` items from a list, each in the order of the list.  Choices that take an
earlier item come first. -/
def combinations {α : Type} : Nat → List α → List (List α)
  | 0, _ => [[]]
  | _ + 1, [] => []
  | k + 1, x :: xs =>
      (combinations k xs).map (x :: ·) ++ if k < xs.length then combinations (k + 1) xs else []

section Combinations

variable {α β : Type}

/-- The combinations are the sublists of the given length. -/
theorem mem_combinations {k : Nat} {xs l : List α} :
    l ∈ combinations k xs ↔ l.Sublist xs ∧ l.length = k := by
  induction xs generalizing k l with
  | nil =>
    cases k with
    | zero => simp [combinations]
    | succ k =>
      simp only [combinations, List.not_mem_nil, List.sublist_nil, false_iff, not_and]
      rintro rfl
      simp
  | cons x xs ih =>
    cases k with
    | zero =>
      simp only [combinations, List.mem_singleton, List.length_eq_zero_iff]
      constructor
      · rintro rfl
        exact ⟨List.nil_sublist _, rfl⟩
      · exact And.right
    | succ k =>
      -- Where too few items are left, there is no choice without the first one.
      have hrest : l ∈ (if k < xs.length then combinations (k + 1) xs else []) ↔
          l.Sublist xs ∧ l.length = k + 1 := by
        split
        · exact ih
        · rename_i hfew
          simp only [List.not_mem_nil, false_iff, not_and]
          intro hsub hlength
          have := hsub.length_le
          omega
      rw [combinations, List.mem_append, hrest, List.sublist_cons_iff, or_and_right, or_comm]
      refine or_congr_right ?_
      rw [List.mem_map]
      constructor
      · rintro ⟨r, hr, rfl⟩
        obtain ⟨hsub, hlength⟩ := ih.1 hr
        exact ⟨⟨r, rfl, hsub⟩, by simp [hlength]⟩
      · rintro ⟨⟨r, rfl, hsub⟩, hlength⟩
        exact ⟨r, ih.2 ⟨hsub, by simpa using hlength⟩, rfl⟩

/-- No combination is listed twice. -/
theorem nodup_combinations (k : Nat) {xs : List α} (h : xs.Nodup) :
    (combinations k xs).Nodup := by
  induction xs generalizing k with
  | nil => cases k <;> simp [combinations]
  | cons x xs ih =>
    obtain ⟨hx, hxs⟩ := List.nodup_cons.1 h
    cases k with
    | zero => simp [combinations]
    | succ k =>
      rw [combinations, List.nodup_append]
      refine ⟨(ih k hxs).map (fun _ _ heq => (List.cons.inj heq).2), ?_, ?_⟩
      · split
        · exact ih (k + 1) hxs
        · exact List.nodup_nil
      · -- Only the choices of the first kind take the first item.
        rintro l hl r hr rfl
        obtain ⟨more, -, rfl⟩ := List.mem_map.1 hl
        split at hr
        · exact hx ((mem_combinations.1 hr).1.subset (List.mem_cons_self ..))
        · cases hr

/-- The combinations of images are the images of combinations. -/
theorem combinations_map (f : α → β) (k : Nat) (xs : List α) :
    combinations k (xs.map f) = (combinations k xs).map (List.map f) := by
  induction xs generalizing k with
  | nil => cases k <;> simp [combinations]
  | cons x xs ih =>
    cases k with
    | zero => simp [combinations]
    | succ k =>
      rw [List.map_cons, combinations, combinations, ih, ih, List.length_map, List.map_append,
        List.map_map, List.map_map]
      refine congrArg₂ _ rfl ?_
      split <;> rfl

/-- The choices from the first positions are the increasing lists of them. -/
theorem mem_combinations_range {k n : Nat} {l : List Nat} : l ∈ combinations k (List.range n) ↔
    l.length = k ∧ l.Pairwise (· < ·) ∧ ∀ i ∈ l, i < n := by
  rw [mem_combinations, and_comm]
  refine and_congr_right (fun _ => ⟨fun hsub => ⟨?_, ?_⟩, ?_⟩)
  · exact List.pairwise_lt_range.sublist hsub
  · exact fun i hi => List.mem_range.1 (hsub.subset hi)
  · rintro ⟨hincreasing, hbelow⟩
    have hsubset : l ⊆ List.range n := fun i hi => List.mem_range.2 (hbelow i hi)
    have hnodup : l.Nodup := hincreasing.imp ne_of_lt
    exact List.sublist_of_subperm_of_pairwise (List.subperm_of_subset hnodup hsubset) hincreasing
      List.pairwise_lt_range

/-- Choices of increasing numbers come in lexicographic order. -/
theorem pairwise_combinations (k : Nat) {xs : List Nat} (h : xs.Pairwise (· < ·)) :
    (combinations k xs).Pairwise (· < ·) := by
  induction xs generalizing k with
  | nil => cases k <;> simp [combinations]
  | cons x xs ih =>
    obtain ⟨hx, hxs⟩ := List.pairwise_cons.1 h
    cases k with
    | zero => simp [combinations]
    | succ k =>
      rw [combinations, List.pairwise_append, List.pairwise_map]
      refine ⟨?_, ?_, ?_⟩
      · exact (ih k hxs).imp (fun hlt => List.cons_lt_cons_iff.2 (.inr ⟨rfl, hlt⟩))
      · split
        · exact ih (k + 1) hxs
        · exact .nil
      · -- A choice without the first item starts with a larger one.
        intro l hl r hr
        obtain ⟨rest, -, rfl⟩ := List.mem_map.1 hl
        split at hr
        · obtain ⟨hsub, hlength⟩ := mem_combinations.1 hr
          cases r with
          | nil => cases hlength
          | cons y r =>
            exact List.cons_lt_cons_iff.2 (.inl (hx y (hsub.subset (List.mem_cons_self ..))))
        · cases hr

end Combinations

namespace Choice

variable {size place position count : Nat} {l r : List Nat}

/-! ## The next choice -/

/-- The last position that can move goes one up, and those after it follow in a row.  A position can
move if there is room for those after it. -/
def successor (size : Nat) : List Nat → Option (List Nat)
  | [] => none
  | p :: ps =>
      match successor size ps with
      | some qs => some (p :: qs)
      | none =>
          if p + ps.length + 1 < size then some (List.range' (p + 1) (ps.length + 1)) else none

/-- If a later position can move, the first one stays. -/
theorem successor_cons_of_some {p : Nat} (h : successor size l = some r) :
    successor size (p :: l) = some (p :: r) := by
  rw [successor, h]

/-- If no later position can move, the first one does, as far as there is room. -/
theorem successor_cons_of_none {p : Nat} (h : successor size l = none) : successor size (p :: l) =
    if p + l.length + 1 < size then some (List.range' (p + 1) (l.length + 1)) else none := by
  rw [successor, h]

/-- The next choice has as many positions. -/
theorem length_of_successor (h : successor size l = some r) : r.length = l.length := by
  induction l generalizing r with
  | nil => cases h
  | cons p ps ih =>
    cases hps : successor size ps with
    | some qs =>
      rw [successor_cons_of_some hps, Option.some.injEq] at h
      rw [← h, List.length_cons, ih hps, List.length_cons]
    | none =>
      rw [successor_cons_of_none hps] at h
      split at h
      · cases h
        rw [List.length_range', List.length_cons]
      · cases h

/-- Positions before the ones that move stay. -/
theorem successor_append (before : List Nat) (h : successor size l = some r) :
    successor size (before ++ l) = some (before ++ r) := by
  induction before with
  | nil => exact h
  | cons p before ih => exact successor_cons_of_some ih

/-! ## The next choice in an array -/

/-- Writing inside an array succeeds. -/
theorem put?_toArray (h : place < l.length) (x : Nat) :
    put? l.toArray place x = some (l.set place x).toArray := by
  rw [put?, dif_pos (by simpa using h), List.set_toArray]

theorem minus?_eq {m n : Nat} (h : n ≤ m) : minus? m n = some (m - n) := if_pos h

/-- If no position after the first places can move, the search backwards from there finds what moves
in the next choice. -/
theorem lastMovable?_cases (hfit : l.length ≤ size) {places : Nat} (hplaces : places ≤ l.length)
    (hrest : successor size (l.drop places) = none) :
    (lastMovable? size l.toArray places = some none ∧ successor size l = none) ∨
    ∃ place position, l[place]? = some position ∧
      lastMovable? size l.toArray places = some (some place) ∧
      successor size l = some (l.take place ++ List.range' (position + 1) (l.length - place)) := by
  induction places with
  | zero => exact .inl ⟨rfl, by simpa using hrest⟩
  | succ place ih =>
    have hplace : place < l.length := hplaces
    have hdrop : l.drop place = l[place] :: l.drop (place + 1) := List.drop_eq_getElem_cons hplace
    have hread : lastMovable? size l.toArray (place + 1) =
        if l[place] < size - l.length + place then some (some place)
        else lastMovable? size l.toArray place := by
      rw [lastMovable?]
      simp [hplace, minus?_eq hfit]
    have hnext := successor_cons_of_none (p := l[place]) hrest
    rw [← hdrop, List.length_drop] at hnext
    by_cases hmoves : l[place] < size - l.length + place
    · refine .inr ⟨place, l[place], List.getElem?_eq_getElem hplace, ?_, ?_⟩
      · rw [hread, if_pos hmoves]
      · rw [if_pos (by omega)] at hnext
        have hfound := successor_append (l.take place) hnext
        rw [List.take_append_drop] at hfound
        rw [hfound]
        congr 3
        omega
    · rw [if_neg (by omega)] at hnext
      rw [hread, if_neg hmoves]
      exact ih (Nat.le_of_lt hplace) hnext

/-- The part of a list up to a place that is set ends with what is set there. -/
theorem take_set_succ (h : place < l.length) (x : Nat) :
    (l.set place x).take (place + 1) = l.take place ++ [x] := by
  rw [List.take_succ_eq_append_getElem (by rwa [List.length_set]), List.getElem_set_self,
    List.take_set_of_le (Nat.le_refl _)]

/-- The places after a position are filled with the positions that follow it. -/
theorem lineUp?_eq (hlength : l.length = place + 1 + count)
    (hposition : l[place]? = some position) :
    lineUp? l.toArray (place + 1) count =
      some (l.take (place + 1) ++ List.range' (position + 1) count).toArray := by
  induction count generalizing l place position with
  | zero =>
    rw [lineUp?, List.take_of_length_le (by omega)]
    simp
  | succ count ih =>
    have hput : lineUp? l.toArray (place + 1) (count + 1) =
        lineUp? (l.set (place + 1) (position + 1)).toArray (place + 1 + 1) count := by
      rw [lineUp?, minus?_eq (Nat.le_add_left ..)]
      simp [hposition, put?_toArray (show place + 1 < l.length by omega)]
    rw [hput, ih (by rw [List.length_set]; omega) (List.getElem?_set_self (by omega)),
      take_set_succ (by omega), List.range'_succ, List.append_assoc]
    rfl

/-- The array is turned into the next choice, and nothing is read or written outside of it. -/
theorem next?_eq (hfit : l.length ≤ size) :
    next? size l.toArray = some ((successor size l).map List.toArray) := by
  have hsearch := lastMovable?_cases hfit (Nat.le_refl _) (by rw [List.drop_length]; rfl)
  rw [next?]
  rcases hsearch with ⟨hfound, hnext⟩ | ⟨place, position, hposition, hfound, hnext⟩
  · rw [List.size_toArray, hfound, hnext]
    rfl
  · obtain ⟨hplace, -⟩ := List.getElem?_eq_some_iff.1 hposition
    have hline : lineUp? (l.set place (position + 1)).toArray (place + 1) (l.length - (place + 1)) =
        some (l.take place ++ List.range' (position + 1) (l.length - place)).toArray := by
      rw [lineUp?_eq (by rw [List.length_set]; omega) (List.getElem?_set_self hplace),
        take_set_succ hplace, List.append_assoc]
      congr 3
      rw [show l.length - place = l.length - (place + 1) + 1 by omega, List.range'_succ]
      rfl
    rw [List.size_toArray, hfound, hnext]
    simp [hposition, put?_toArray hplace, hline]

/-! ## All choices -/

/-- The listed choices come after a choice one by one, and the last of them is the last of all. -/
def Followed (size : Nat) (l : List Nat) : List (List Nat) → Prop
  | [] => successor size l = none
  | r :: rs => successor size l = some r ∧ Followed size r rs

/-- With an item more in front, the choices go on as before, and then with those of later items
only. -/
theorem Followed.cons {p : Nat} {rs others : List (List Nat)} (h : Followed size l rs)
    (hothers : match others with
      | [] => ¬ p + l.length + 1 < size
      | r :: rs => p + l.length + 1 < size ∧ r = List.range' (p + 1) (l.length + 1) ∧
          Followed size r rs) :
    Followed size (p :: l) (rs.map (p :: ·) ++ others) := by
  induction rs generalizing l with
  | nil =>
    have hend := successor_cons_of_none (p := p) h
    cases others with
    | nil => exact hend.trans (if_neg hothers)
    | cons r rs =>
      obtain ⟨hroom, rfl, hrest⟩ := hothers
      exact ⟨hend.trans (if_pos hroom), hrest⟩
  | cons r rs ih =>
    obtain ⟨hnext, hrest⟩ := h
    refine ⟨successor_cons_of_some hnext, ih hrest ?_⟩
    rwa [length_of_successor hnext]

/-- **Recursion lists the choices in their order.**  Choices from the last positions below `size`
start with the first ones in a row, and each is followed by the next. -/
theorem combinations_followed (first : Nat) {k n : Nat} (hk : k ≤ n) (hsize : first + n = size) :
    ∃ rs, combinations k (List.range' first n) = List.range' first k :: rs ∧
      Followed size (List.range' first k) rs := by
  induction n generalizing first k with
  | zero =>
    obtain rfl := Nat.le_zero.1 hk
    exact ⟨[], rfl, rfl⟩
  | succ n ih =>
    cases k with
    | zero => exact ⟨[], by rw [combinations]; rfl, rfl⟩
    | succ k =>
      obtain ⟨rs, hrs, hfollowed⟩ := ih (first + 1) (Nat.le_of_succ_le_succ hk) (by omega)
      rw [List.range'_succ, combinations, List.range'_succ, List.length_range', hrs]
      refine ⟨_, rfl, hfollowed.cons ?_⟩
      rw [List.length_range']
      by_cases hmore : k < n
      · obtain ⟨others, hothers, hrest⟩ := ih (first + 1) (k := k + 1) hmore (by omega)
        rw [if_pos hmore, hothers]
        exact ⟨by omega, rfl, hrest⟩
      · rw [if_neg hmore]
        show ¬ first + k + 1 < size
        omega

/-! ## The search -/

variable {σ : Type} {action : σ → List Nat → σ} {codes : Array Nat} {code : Nat → Nat}

/-- Reading at positions inside an array succeeds. -/
theorem mapM_read (hcodes : ∀ i < codes.size, codes[i]? = some (code i))
    (hin : ∀ i ∈ l, i < codes.size) : l.mapM (codes[·]?) = some (l.map code) := by
  induction l with
  | nil => rfl
  | cons i l ih =>
    rw [List.mapM_cons, hcodes i (hin i (List.mem_cons_self ..)),
      ih (fun j hj => hin j (List.mem_cons_of_mem i hj))]
    rfl

/-- The search acts once on each of the choices that follow, and comes to its end. -/
theorem visitFrom?_eq (hcodes : ∀ i < codes.size, codes[i]? = some (code i)) {rs : List (List Nat)}
    (hfollowed : Followed codes.size l rs) (hfit : l.length ≤ codes.size)
    (hin : ∀ r ∈ l :: rs, ∀ i ∈ r, i < codes.size) (state : σ) :
    visitFrom? action codes l.toArray state =
      some ((l :: rs).foldl (fun state r => action state (r.map code)) state) := by
  induction rs generalizing l state with
  | nil =>
    rw [visitFrom?, mapM_read hcodes (hin l (List.mem_cons_self ..)), next?_eq hfit,
      show successor codes.size l = none from hfollowed]
    rfl
  | cons r rs ih =>
    obtain ⟨hnext, hrest⟩ := hfollowed
    rw [visitFrom?, mapM_read hcodes (hin l (List.mem_cons_self ..)), next?_eq hfit, hnext]
    refine ih hrest ?_ (fun r' hr' => hin r' (List.mem_cons_of_mem l hr')) _
    rwa [length_of_successor hnext]

/-- The search from the first choice acts on all choices of `k` positions, in the order of
recursion. -/
theorem visitFrom?_range (hcodes : ∀ i < codes.size, codes[i]? = some (code i)) {k : Nat}
    (hk : k ≤ codes.size) (state : σ) : visitFrom? action codes (Array.range k) state =
      some (((combinations k (List.range codes.size)).map (List.map code)).foldl action state) := by
  obtain ⟨rs, hrs, hfollowed⟩ := combinations_followed 0 hk (Nat.zero_add codes.size)
  have hin : ∀ r ∈ List.range' 0 k :: rs, ∀ i ∈ r, i < codes.size := by
    intro r hr i hi
    rw [← hrs] at hr
    simpa using (mem_combinations.1 hr).1.subset hi
  have hstart : Array.range k = (List.range' 0 k).toArray :=
    Array.toList_inj.1 (by rw [Array.toList_range, List.range_eq_range'])
  rw [hstart, visitFrom?_eq hcodes hfollowed (by simpa using hk) hin, List.foldl_map,
    List.range_eq_range', hrs]

end Choice

end ProductLine


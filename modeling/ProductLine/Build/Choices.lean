/-!
# Choices of positions

The choices of so many positions below a bound are gone through in one array, in lexicographic
order: the last position that can move goes one up, and those after it line up behind it.  A read or
write outside an array and a difference below zero have no result.

* `Choice.next?` turns a choice into the next one, and `Choice.left_lt_of_next?` says that fewer are
  left then;
* `Choice.visitFrom?` acts on the codes at the positions of one choice after the other.
-/
namespace ProductLine.Choice

/-! ## Checked access -/

/-- Puts a number into a place of an array, if there is one. -/
def put? (xs : Array Nat) (place x : Nat) : Option (Array Nat) :=
  if h : place < xs.size then some (xs.set place x) else none

/-- The difference of two numbers, if it is not below zero. -/
def minus? (m n : Nat) : Option Nat := if n ≤ m then some (m - n) else none

/-! ## The next choice -/

/-- The last of the first `places` places whose position can move, if there is one.  A position
cannot move if it and those after it are the last ones below `size`. -/
def lastMovable? (size : Nat) (chosen : Array Nat) : (places : Nat) → Option (Option Nat)
  | 0 => some none
  | place + 1 => do
      let position ← chosen[place]?
      let spare ← minus? size chosen.size
      if position < spare + place then some (some place) else lastMovable? size chosen place

/-- Lets the positions at `count` places, from a place on, follow the one before them. -/
def lineUp? (chosen : Array Nat) (place : Nat) : (count : Nat) → Option (Array Nat)
  | 0 => some chosen
  | count + 1 => do
      let before ← minus? place 1
      let position ← chosen[before]?
      let chosen ← put? chosen place (position + 1)
      lineUp? chosen (place + 1) count

/-- The choice of positions below `size` that comes after another one, unless that was the last. -/
def next? (size : Nat) (chosen : Array Nat) : Option (Option (Array Nat)) := do
  match ← lastMovable? size chosen chosen.size with
  | none => some none
  | some place =>
      let position ← chosen[place]?
      let moved ← put? chosen place (position + 1)
      let chosen ← lineUp? moved (place + 1) (chosen.size - (place + 1))
      some (some chosen)

/-! ## How many are left -/

/-- A bound on the number of choices after one, by how far the first `places` positions can move. -/
def left (size : Nat) (chosen : Array Nat) : (places : Nat) → Nat
  | 0 => 0
  | place + 1 =>
      left size chosen place * (size + chosen.size + 1) +
        (size - chosen.size + place - (chosen[place]?).getD 0)

variable {size place position count x : Nat} {chosen moved : Array Nat}

/-- Writing at a place changes what is read there, and nothing else. -/
theorem getElem?_of_put? (h : put? chosen place x = some moved) (i : Nat) :
    moved.size = chosen.size ∧ moved[i]? = if i = place then some x else chosen[i]? := by
  unfold put? at h
  split at h
  · rename_i hplace
    cases h
    refine ⟨Array.size_set .., ?_⟩
    rw [Array.getElem?_set]
    simp only [eq_comm]
  · cases h

theorem lt_of_lastMovable? {places : Nat}
    (h : lastMovable? size chosen places = some (some place)) :
    ∃ position, chosen[place]? = some position ∧ position < size - chosen.size + place := by
  induction places with
  | zero => cases h
  | succ last ih =>
    obtain ⟨position, hposition, h⟩ := Option.bind_eq_some_iff.1 h
    obtain ⟨spare, hspare, h⟩ := Option.bind_eq_some_iff.1 h
    split at h
    · rename_i hmoves
      cases h
      unfold minus? at hspare
      split at hspare
      · cases hspare
        exact ⟨position, hposition, hmoves⟩
      · cases hspare
    · exact ih h

/-- Places before those that line up are not touched. -/
theorem getElem?_of_lineUp? (h : lineUp? chosen place count = some moved) {i : Nat}
    (hi : i < place) :
    moved.size = chosen.size ∧ moved[i]? = chosen[i]? := by
  induction count generalizing chosen place with
  | zero =>
    cases h
    exact ⟨rfl, rfl⟩
  | succ count ih =>
    obtain ⟨before, -, h⟩ := Option.bind_eq_some_iff.1 h
    obtain ⟨position, -, h⟩ := Option.bind_eq_some_iff.1 h
    obtain ⟨next, hput, h⟩ := Option.bind_eq_some_iff.1 h
    obtain ⟨hsize, hread⟩ := getElem?_of_put? hput i
    obtain ⟨hsize', hread'⟩ := ih h (Nat.lt_succ_of_lt hi)
    exact ⟨hsize'.trans hsize, hread'.trans (hread.trans (if_neg (Nat.ne_of_lt hi)))⟩

/-- One position goes up that could, and those before it stay. -/
theorem moved_of_next? (h : next? size chosen = some (some moved)) :
    moved.size = chosen.size ∧ ∃ place position, chosen[place]? = some position ∧
      position < size - chosen.size + place ∧ moved[place]? = some (position + 1) ∧
      ∀ i < place, moved[i]? = chosen[i]? := by
  obtain ⟨found, hfound, h⟩ := Option.bind_eq_some_iff.1 h
  cases found with
  | none => cases h
  | some place =>
    obtain ⟨position, hposition, h⟩ := Option.bind_eq_some_iff.1 h
    obtain ⟨raised, hput, h⟩ := Option.bind_eq_some_iff.1 h
    obtain ⟨lined, hline, h⟩ := Option.bind_eq_some_iff.1 h
    cases h
    obtain ⟨other, hother, hmoves⟩ := lt_of_lastMovable? hfound
    cases hposition.symm.trans hother
    obtain ⟨hsize, hraised⟩ := getElem?_of_put? hput place
    obtain ⟨hsize', hlined⟩ := getElem?_of_lineUp? hline (Nat.lt_succ_self place)
    refine ⟨hsize'.trans hsize, place, position, hposition, hmoves, ?_, ?_⟩
    · rw [hlined, hraised, if_pos rfl]
    · intro i hi
      rw [(getElem?_of_lineUp? hline (Nat.lt_succ_of_lt hi)).2, (getElem?_of_put? hput i).2,
        if_neg (Nat.ne_of_lt hi)]

/-- What is left depends on the places that are counted only. -/
theorem left_congr (hsize : moved.size = chosen.size) {places : Nat}
    (h : ∀ i < places, moved[i]? = chosen[i]?) :
    left size moved places = left size chosen places := by
  induction places with
  | zero => rfl
  | succ place ih =>
    rw [left, left, hsize, h place (Nat.lt_succ_self place),
      ih (fun i hi => h i (Nat.lt_succ_of_lt hi))]

/-- The next choice has fewer choices after it. -/
theorem left_lt_of_next? (h : next? size chosen = some (some moved)) :
    left size moved moved.size < left size chosen chosen.size := by
  obtain ⟨hsize, place, position, hposition, hmoves, hraised, hkept⟩ := moved_of_next? h
  have hlt : ∀ places ≤ chosen.size, place < places →
      left size moved places < left size chosen places := by
    intro places hplaces hplace
    induction places with
    | zero => omega
    | succ last ih =>
      rw [left, left, hsize]
      rcases Nat.lt_or_ge place last with hearlier | hhere
      · -- How far a later position can move weighs less than one more step of an earlier one.
        have hweight := Nat.mul_le_mul_right (size + chosen.size + 1)
          (ih (Nat.le_of_succ_le hplaces) hearlier)
        rw [Nat.succ_mul] at hweight
        omega
      · obtain rfl : place = last := by omega
        rw [left_congr hsize hkept, hposition, hraised]
        simp only [Option.getD_some]
        omega
  rw [hsize]
  exact hlt chosen.size (Nat.le_refl _) (Array.getElem?_eq_some_iff.1 hposition).1

/-! ## All choices -/

/-- Acts on the codes at the chosen positions, and then on those of all choices that come after. -/
def visitFrom? {σ : Type} (action : σ → List Nat → σ) (codes chosen : Array Nat) (state : σ) :
    Option σ :=
  match chosen.toList.mapM (codes[·]?) with
  | none => none
  | some interaction =>
      let state := action state interaction
      match _ : next? codes.size chosen with
      | none => none
      | some none => some state
      | some (some later) => visitFrom? action codes later state
termination_by left codes.size chosen chosen.size
decreasing_by exact left_lt_of_next? ‹_›

end ProductLine.Choice

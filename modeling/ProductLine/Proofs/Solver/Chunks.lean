import ProductLine.Proofs.Solver.Implied
/-!
# Implied literals are found in chunks as well

Candidates that are split into chunks and tested with a fresh solver for each chunk give the same
result as all candidates tested in a row.

* `Solver.flatten_share` says that splitting loses nothing, `Solver.length_share_le` that no thread
  is needed beyond those that there are, and `Solver.ne_nil_of_mem_share` that each has something to
  do;
* `Solver.implied_start` says what is found in one piece, in whatever world the test of it starts;
* `Solver.impliedInChunks_eq` says what is found in all of them, and
  `Solver.impliedInChunks_eq_implied` compares it with one test of the whole list.
-/
namespace ProductLine

namespace Solver

variable {ω α β : Type} {s : Solver ω} {good : ω → Prop}

/-! ## Splitting -/

/-- The first pieces joined are the first items. -/
theorem flatten_pieces (size n : Nat) (xs : List α) :
    ((List.range n).map (fun i => (xs.drop (i * size)).take size)).flatten =
      xs.take (n * size) := by
  induction n with
  | zero => simp
  | succ n ih =>
    rw [List.range_succ, List.map_append, List.flatten_append, ih, Nat.succ_mul, List.take_add]
    simp

/-- Nothing is lost or reordered by splitting. -/
theorem flatten_chunks {size : Nat} (hsize : 0 < size) (xs : List α) :
    (chunks size xs).flatten = xs := by
  rw [chunks, flatten_pieces]
  apply List.take_of_length_le
  -- Rounding up leaves room for all items.
  have hdiv := Nat.div_add_mod (xs.length + size - 1) size
  have hmod := Nat.mod_lt (xs.length + size - 1) hsize
  rw [Nat.mul_comm]
  omega

/-- The pieces of all threads together are the list. -/
theorem flatten_share (threads : Nat) (xs : List α) : (share threads xs).flatten = xs := by
  unfold share
  split
  · simp
  · rename_i hmany
    rw [not_or] at hmany
    exact flatten_chunks (Nat.div_pos (by omega) (by omega)) xs

/-- A piece has no other items than the list. -/
theorem mem_of_mem_share {threads : Nat} {xs piece : List α} (hpiece : piece ∈ share threads xs)
    {x : α} (hx : x ∈ piece) : x ∈ xs := by
  rw [← flatten_share threads xs]
  exact List.mem_flatten.2 ⟨piece, hpiece, hx⟩

/-- As many items as fit into `threads` pieces are split into no more pieces. -/
theorem length_chunks_le {size threads : Nat} {xs : List α} (hsize : 0 < size)
    (hroom : xs.length ≤ size * threads) : (chunks size xs).length ≤ threads := by
  rw [chunks, List.length_map, List.length_range]
  apply Nat.le_of_lt_succ
  apply Nat.div_lt_of_lt_mul
  rw [Nat.mul_succ]
  omega

/-- The rounded size leaves room for all items. -/
theorem length_le_mul_ceil {threads : Nat} (hthreads : 0 < threads) (n : Nat) :
    n ≤ (n + threads - 1) / threads * threads := by
  have hdiv := Nat.div_add_mod' (n + threads - 1) threads
  have hmod := Nat.mod_lt (n + threads - 1) hthreads
  omega

/-- There are no more pieces than threads, and one if there is no thread. -/
theorem length_share_le (threads : Nat) (xs : List α) :
    (share threads xs).length ≤ max threads 1 := by
  unfold share
  split
  · simp
  · rename_i hmany
    rw [not_or] at hmany
    refine (length_chunks_le ?_ (length_le_mul_ceil (by omega) _)).trans (Nat.le_max_left ..)
    exact Nat.div_pos (by omega) (by omega)

/-- A piece starts at an item that is there. -/
theorem ne_nil_of_mem_chunks {size : Nat} {xs piece : List α} (hsize : 0 < size)
    (h : piece ∈ chunks size xs) : piece ≠ [] := by
  obtain ⟨i, hi, rfl⟩ := List.mem_map.1 h
  have hfits : (i + 1) * size ≤ xs.length + size - 1 :=
    (Nat.le_div_iff_mul_le hsize).1 (List.mem_range.1 hi)
  rw [Nat.succ_mul] at hfits
  rw [← List.length_pos_iff, List.length_take, List.length_drop]
  omega

/-- No piece of a list with items is empty. -/
theorem ne_nil_of_mem_share {threads : Nat} {xs piece : List α} (hxs : xs ≠ [])
    (h : piece ∈ share threads xs) : piece ≠ [] := by
  unfold share at h
  split at h
  · rwa [List.mem_singleton.1 h]
  · rename_i hmany
    rw [not_or] at hmany
    exact ne_nil_of_mem_chunks (Nat.div_pos (by omega) (by omega)) h

/-! ## Running on each piece -/

/-- Where every run succeeds, the results are those of the runs in order. -/
theorem runEach_eq {run : α → SolverM ω β} {result : α → β} {xs : List α}
    (hrun : ∀ x ∈ xs, ∀ w, good w → ∃ st, run x (s.start w) = .ok (result x) st ∧ good st.world)
    {w : ω} (hw : good w) :
    ∃ w', s.runEach run xs w = ((xs.map result).map .ok, w') ∧ good w' := by
  induction xs generalizing w with
  | nil => exact ⟨w, rfl, hw⟩
  | cons x xs ih =>
    have hrun := List.forall_mem_cons.1 hrun
    obtain ⟨st, hfirst, hst⟩ := hrun.1 w hw
    obtain ⟨w', hrest, hw'⟩ := ih hrun.2 hst
    exact ⟨w', by simp [runEach, hfirst, hrest], hw'⟩

/-- Without failures the results are put together. -/
theorem gather_map_ok (xss : List (List α)) : gather (xss.map .ok) = .ok xss.flatten := by
  induction xss with
  | nil => rfl
  | cons xs xss ih =>
    rw [List.map_cons, gather, ih]
    rfl

/-! ## What is found -/

section Found

variable {monitor : Monitor ω} {ps : List Implication} {w : ω}
  (hb : s.backend.Correct good) (hmonitor : monitor.NeverCancels good) (hbase : s.base.Built)
  (hps : ∀ p ∈ ps, p.forcing.var < s.base.varCount ∧ p.forced.var < s.base.varCount)
include hb hmonitor hbase hps

open Classical in
/-- A fresh solver finds those candidates that the base implies, unless it has no model. -/
theorem implied_start (buffer : Nat) (hw : good w) :
    ∃ st, s.implied buffer monitor ps (s.start w) =
      .ok (if ∃ v, s.Models [] v then ps.filter (fun p => decide (s.Entails [] p)) else []) st ∧
        good st.world := by
  have hyields : Yields good False (s.start w) _ (s.implied buffer monitor ps (s.start w)) :=
    implied_yields hb hmonitor ⟨hbase, ConstraintStack.translated_nil⟩ hw hps buffer
  obtain ⟨_, st, hrun, rfl, hkept⟩ := hyields.exists_ok
  exact ⟨st, hrun, hkept.world⟩

open Classical in
/-- However many chunks there are, those candidates are found that the base implies, unless it has
no model. -/
theorem impliedInChunks_eq (threads buffer : Nat) (hw : good w) :
    ∃ w', s.impliedInChunks threads buffer monitor ps w =
      (.ok (if ∃ v, s.Models [] v then ps.filter (fun p => decide (s.Entails [] p)) else []), w') ∧
        good w' := by
  have hrun : ∀ piece ∈ share threads ps, ∀ w, good w → ∃ st,
      s.implied buffer monitor piece (s.start w) =
        .ok (if ∃ v, s.Models [] v then piece.filter (fun p => decide (s.Entails [] p))
          else []) st ∧ good st.world :=
    fun piece hpiece w hw => implied_start hb hmonitor hbase
      (fun p hp => hps p (mem_of_mem_share hpiece hp)) buffer hw
  obtain ⟨w', heach, hw'⟩ := runEach_eq hrun hw
  refine ⟨w', ?_, hw'⟩
  simp only [impliedInChunks, heach, gather_map_ok]
  congr 2
  split
  · rw [← List.filter_flatten, flatten_share]
  · simp

open Classical in
/-- **Splitting does not change what is found.**  With a correct backend and a monitor that never
cancels, a test in chunks finds the same candidates in the same order as one test of the whole list,
whatever the number of threads is and in whatever worlds the tests start.

The chunks are the list, cut into pieces of which none is empty unless the list is, and there are no
more of them than threads, or one if there is no thread.  What is found in a chunk does not depend
on what the other threads did before. -/
theorem impliedInChunks_eq_implied (threads buffer : Nat) {w' : ω} (hw : good w) (hw' : good w') :
    (share threads ps).flatten = ps ∧ (share threads ps).length ≤ max threads 1 ∧
    (ps ≠ [] → ∀ piece ∈ share threads ps, piece ≠ []) ∧
    ∃ found after st,
      s.impliedInChunks threads buffer monitor ps w = (.ok found, after) ∧
      s.implied buffer monitor ps (s.start w') = .ok found st ∧
      ∃ parts, parts.flatten = found ∧
        List.Forall₂ (fun piece part => ∀ w, good w → ∃ st,
          s.implied buffer monitor piece (s.start w) = .ok part st) (share threads ps) parts := by
  refine ⟨flatten_share threads ps, length_share_le threads ps,
    fun hne _ hpiece => ne_nil_of_mem_share hne hpiece, ?_⟩
  obtain ⟨after, hchunks, -⟩ := impliedInChunks_eq hb hmonitor hbase hps threads buffer hw
  obtain ⟨st, hwhole, -⟩ := implied_start hb hmonitor hbase hps buffer hw'
  refine ⟨_, after, st, hchunks, hwhole, (share threads ps).map (fun piece =>
    if ∃ v, s.Models [] v then piece.filter (fun p => decide (s.Entails [] p)) else []), ?_, ?_⟩
  · split
    · rw [← List.filter_flatten, flatten_share]
    · simp
  · rw [List.forall₂_map_right_iff, List.forall₂_same]
    intro piece hpiece w hw
    obtain ⟨st, hrun, -⟩ := implied_start hb hmonitor hbase
      (fun p hp => hps p (mem_of_mem_share hpiece hp)) buffer hw
    exact ⟨st, hrun⟩

end Found

/-- Two threads test three candidates in chunks of two and one.  A run finds the first and the last,
so one test of the whole list finds them as well. -/
theorem impliedInChunks_eq_implied_chain :
    chain.impliedInChunks 2 1 Monitor.never
        [⟨⟨0, true⟩, ⟨1, true⟩⟩, ⟨⟨1, true⟩, ⟨0, true⟩⟩, ⟨⟨1, false⟩, ⟨0, false⟩⟩] () =
      (.ok [⟨⟨0, true⟩, ⟨1, true⟩⟩, ⟨⟨1, false⟩, ⟨0, false⟩⟩], ()) ∧
    ∃ st, chain.implied 1 Monitor.never
        [⟨⟨0, true⟩, ⟨1, true⟩⟩, ⟨⟨1, true⟩, ⟨0, true⟩⟩, ⟨⟨1, false⟩, ⟨0, false⟩⟩]
        (chain.start ()) =
      .ok [⟨⟨0, true⟩, ⟨1, true⟩⟩, ⟨⟨1, false⟩, ⟨0, false⟩⟩] st := by
  have hrun : chain.impliedInChunks 2 1 Monitor.never
        [⟨⟨0, true⟩, ⟨1, true⟩⟩, ⟨⟨1, true⟩, ⟨0, true⟩⟩, ⟨⟨1, false⟩, ⟨0, false⟩⟩] () =
      (.ok [⟨⟨0, true⟩, ⟨1, true⟩⟩, ⟨⟨1, false⟩, ⟨0, false⟩⟩], ()) := by
    cbv
  refine ⟨hrun, ?_⟩
  obtain ⟨-, -, -, found, after, st, hchunks, hwhole, -⟩ := @impliedInChunks_eq_implied _ chain
    (fun _ => True) Monitor.never
    [⟨⟨0, true⟩, ⟨1, true⟩⟩, ⟨⟨1, true⟩, ⟨0, true⟩⟩, ⟨⟨1, false⟩, ⟨0, false⟩⟩] ()
    Backend.exhaustive_correct (fun _ _ => ⟨rfl, trivial⟩) ⟨by decide, rfl⟩ (by decide) 2 1 ()
    trivial trivial
  rw [hrun] at hchunks
  cases hchunks
  exact ⟨st, hwhole⟩

end Solver

end ProductLine

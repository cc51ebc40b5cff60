import Mathlib.Data.List.Forall2
import Mathlib.Data.List.Sort
import ProductLine.Proofs.Configuration
import ProductLine.Proofs.FirstOccurrences
import ProductLine.Sample
import ProductLine.Text.Natural
/-!
# Samples are the different selections

Of a solution only the set of the concrete names that it selects counts.  The sets that occur are
numbered in the order in which they occur first, and every other solution is a duplicate.

* `Sample.selectedNames` is the set that counts, and `Sample.selection_eq_iff` says that it is told
  by the list of names;
* `Sample.configurations_readFrom` and `Sample.duplicates_readFrom` follow the solutions one by one;
* `Sample.ofSolutions_distinct` is about whole samples, and about solutions that are replaced.
-/
namespace ProductLine

/-! ## Selections -/

namespace Sample

variable {concreteName? : Nat → Option String} {seen : List (List String)} {firstId : Nat}
  {solution solution' : List Lit} {solutions solutions' : List (List Lit)}

/-- The set of the concrete names that a solution selects. -/
def selectedNames (concreteName? : Nat → Option String) (solution : List Lit) : Finset String :=
  (solution.filterMap (fun l => if l.positive then concreteName? l.var else none)).toFinset

/-- A name is selected if the solution has a positive literal of a variable with that name. -/
theorem mem_selectedNames {name : String} : name ∈ selectedNames concreteName? solution ↔
    ∃ l ∈ solution, l.positive = true ∧ concreteName? l.var = some name := by
  rw [selectedNames, List.mem_toFinset, List.mem_filterMap]
  refine exists_congr (fun l => and_congr_right (fun _ => ?_))
  cases l.positive <;> simp

/-- The selection lists the selected names. -/
theorem toFinset_selection (concreteName? : Nat → Option String) (solution : List Lit) :
    (selection concreteName? solution).toFinset = selectedNames concreteName? solution := by
  ext name
  rw [mem_selectedNames, List.mem_toFinset, selection, mem_nameSet, List.mem_filterMap]
  simp only [List.mem_filter, and_assoc]

/-- The list of the names tells their set, and the other way round. -/
theorem selection_eq_iff : selection concreteName? solution = selection concreteName? solution' ↔
    selectedNames concreteName? solution = selectedNames concreteName? solution' := by
  rw [← toFinset_selection, ← toFinset_selection]
  refine ⟨congrArg List.toFinset, fun h => ?_⟩
  refine (pairwise_nameSet _).eq_of_mem_iff (pairwise_nameSet _) (fun name => ?_)
  have hmem := Finset.ext_iff.1 h name
  rwa [List.mem_toFinset, List.mem_toFinset] at hmem

/-- Order, repetitions, negative literals and variables that are not concrete do not count. -/
theorem selectedNames_congr
    (h : ∀ l : Lit, l.positive = true → (concreteName? l.var).isSome = true →
    (l ∈ solution ↔ l ∈ solution')) :
    selectedNames concreteName? solution = selectedNames concreteName? solution' := by
  ext name
  rw [mem_selectedNames, mem_selectedNames]
  refine exists_congr (fun l => and_congr_left (fun hl => h l hl.1 ?_))
  rw [hl.2, Option.isSome_some]

/-! ## Reading solutions one by one -/

/-- Configurations with the given features and consecutive numbers. -/
def numbered (firstId : Nat) (selections : List (List String)) : List Configuration :=
  (selections.zipIdx firstId).map (fun (names, id) => ⟨id, names⟩)

/-- The selections that were not seen become configurations where they occur first. -/
theorem configurations_readFrom (concreteName? : Nat → Option String) (seen : List (List String))
    (firstId : Nat) (solutions : List (List Lit)) :
    (readFrom concreteName? seen firstId solutions).configurations =
      numbered firstId
        ((solutions.map (selection concreteName?)).filter (· ∉ seen)).eraseDups := by
  induction solutions generalizing seen firstId with
  | nil => rfl
  | cons solution solutions ih =>
    simp only [readFrom]
    split
    · rename_i hseen
      rw [ih, List.map_cons, List.filter_cons_of_neg (by simpa using hseen)]
    · rename_i hnew
      have hlater : ∀ selections : List (List String),
          (selections.filter (· ∉ seen)).filter
            (fun names => !names == selection concreteName? solution)
            = selections.filter (· ∉ selection concreteName? solution :: seen) := by
        intro selections
        rw [List.filter_filter]
        apply List.filter_congr
        intro names _
        by_cases hsame : names = selection concreteName? solution <;> simp [hsame]
      rw [List.map_cons, List.filter_cons_of_pos (by simpa using hnew), List.eraseDups_cons, hlater,
        ih]
      rfl

/-- Every solution becomes a configuration or is a duplicate. -/
theorem duplicates_readFrom (concreteName? : Nat → Option String) (seen : List (List String))
    (firstId : Nat) (solutions : List (List Lit)) :
    (readFrom concreteName? seen firstId solutions).duplicates +
      (readFrom concreteName? seen firstId solutions).configurations.length = solutions.length := by
  induction solutions generalizing seen firstId with
  | nil => rfl
  | cons solution solutions ih =>
    simp only [readFrom]
    split
    · have hrest := ih seen firstId
      simp only [List.length_cons]
      omega
    · have hrest := ih (selection concreteName? solution :: seen) (firstId + 1)
      simp only [List.length_cons]
      omega

/-! ## Whole samples -/

/-- The configurations are the selections without repetitions, numbered from the first id. -/
theorem configurations_ofSolutions (concreteName? : Nat → Option String) (firstId : Nat)
    (solutions : List (List Lit)) :
    (ofSolutions concreteName? firstId solutions).configurations =
      numbered firstId (solutions.map (selection concreteName?)).eraseDups := by
  rw [ofSolutions, configurations_readFrom]
  simp

/-- Only the selections matter. -/
theorem ofSolutions_congr (h : solutions.map (selection concreteName?) =
    solutions'.map (selection concreteName?)) :
    ofSolutions concreteName? firstId solutions' = ofSolutions concreteName? firstId solutions := by
  have hconfigurations : (ofSolutions concreteName? firstId solutions').configurations =
      (ofSolutions concreteName? firstId solutions).configurations := by
    rw [configurations_ofSolutions, configurations_ofSolutions, h]
  have hlength : solutions.length = solutions'.length := by
    simpa using congrArg List.length h
  have hduplicates := duplicates_readFrom concreteName? [] firstId solutions
  have hduplicates' := duplicates_readFrom concreteName? [] firstId solutions'
  rw [← ofSolutions] at hduplicates hduplicates'
  rw [hconfigurations] at hduplicates'
  cases hsample : ofSolutions concreteName? firstId solutions
  cases hsample' : ofSolutions concreteName? firstId solutions'
  simp only [hsample, hsample'] at hconfigurations hduplicates hduplicates'
  rw [Sample.mk.injEq]
  exact ⟨hconfigurations, by omega⟩

theorem map_features_numbered (firstId : Nat) (selections : List (List String)) :
    (numbered firstId selections).map Configuration.features = selections := by
  rw [numbered, List.map_map]
  exact List.zipIdx_map_fst ..

theorem map_id_numbered (firstId : Nat) (selections : List (List String)) :
    (numbered firstId selections).map Configuration.id = List.range' firstId selections.length := by
  rw [numbered, List.map_map]
  exact List.zipIdx_map_snd ..

@[simp] theorem length_numbered (firstId : Nat) (selections : List (List String)) :
    (numbered firstId selections).length = selections.length := by
  simp [numbered]

/-- The configurations of a sample select what the solutions do, once each. -/
theorem map_selected_ofSolutions (concreteName? : Nat → Option String) (firstId : Nat)
    (solutions : List (List Lit)) :
    (ofSolutions concreteName? firstId solutions).configurations.map Configuration.selected =
      (solutions.map (selectedNames concreteName?)).eraseDups := by
  have hnames : solutions.map (selectedNames concreteName?) =
      (solutions.map (selection concreteName?)).map List.toFinset := by
    rw [List.map_map]
    exact List.map_congr_left (fun solution _ => (toFinset_selection concreteName? solution).symm)
  have hselected : Configuration.selected = List.toFinset ∘ Configuration.features := rfl
  have hapart : ∀ names ∈ solutions.map (selection concreteName?),
      ∀ names' ∈ solutions.map (selection concreteName?),
        names.toFinset = names'.toFinset → names = names' := by
    intro names hmem names' hmem' hsame
    obtain ⟨solution, -, rfl⟩ := List.mem_map.1 hmem
    obtain ⟨solution', -, rfl⟩ := List.mem_map.1 hmem'
    rw [toFinset_selection, toFinset_selection] at hsame
    exact selection_eq_iff.2 hsame
  rw [configurations_ofSolutions, hselected, ← List.map_map, map_features_numbered, hnames,
    eraseDups_map hapart]

/-- **A sample holds the different selections.**  The configurations of a sample are the different
sets of concrete names that the solutions select, in the order in which these occur first and with
consecutive numbers, none of which is too large for a machine word, nor is the one after it.  All
other solutions are duplicates.  Solutions can be replaced by others that select the same names, and
it is enough that they hold the same positive literals of concrete variables. -/
theorem ofSolutions_distinct (concreteName? : Nat → Option String) {firstId : Nat}
    {solutions : List (List Lit)} (hword : firstId + solutions.length < Text.wordBound) :
    let sample := ofSolutions concreteName? firstId solutions
    sample.configurations.map Configuration.selected =
        (solutions.map (selectedNames concreteName?)).eraseDups ∧
      (sample.configurations.map Configuration.selected).Nodup ∧
      (∀ c ∈ sample.configurations, c.features.Pairwise (· < ·)) ∧
      sample.configurations.map Configuration.id =
        List.range' firstId sample.configurations.length ∧
      (∀ c ∈ sample.configurations, c.id + 1 < Text.wordBound) ∧
      sample.duplicates + sample.configurations.length = solutions.length ∧
      (∀ solutions', List.Forall₂ (fun solution solution' =>
          selectedNames concreteName? solution = selectedNames concreteName? solution')
          solutions solutions' →
        ofSolutions concreteName? firstId solutions' = sample) ∧
      ∀ solution solution', (∀ l : Lit, l.positive = true → (concreteName? l.var).isSome = true →
          (l ∈ solution ↔ l ∈ solution')) →
        selectedNames concreteName? solution = selectedNames concreteName? solution' := by
  intro sample
  have hselected : sample.configurations.map Configuration.selected =
      (solutions.map (selectedNames concreteName?)).eraseDups :=
    map_selected_ofSolutions concreteName? firstId solutions
  have hnumbered : sample.configurations =
      numbered firstId (solutions.map (selection concreteName?)).eraseDups :=
    configurations_ofSolutions concreteName? firstId solutions
  have hids : sample.configurations.map Configuration.id =
      List.range' firstId sample.configurations.length := by
    rw [hnumbered, map_id_numbered, length_numbered]
  have hcount : sample.duplicates + sample.configurations.length = solutions.length :=
    duplicates_readFrom concreteName? [] firstId solutions
  refine ⟨hselected, hselected ▸ nodup_eraseDups _, ?_, hids, ?_, hcount, ?_,
    fun _ _ => selectedNames_congr⟩
  · intro c hc
    have hfeatures : c.features ∈ (solutions.map (selection concreteName?)).eraseDups := by
      rw [← map_features_numbered firstId (solutions.map (selection concreteName?)).eraseDups,
        ← hnumbered]
      exact List.mem_map_of_mem hc
    obtain ⟨solution, -, hsolution⟩ := List.mem_map.1 (List.mem_eraseDups.1 hfeatures)
    rw [← hsolution]
    exact pairwise_nameSet _
  · intro c hc
    have hid : c.id ∈ List.range' firstId sample.configurations.length := by
      rw [← hids]
      exact List.mem_map_of_mem hc
    obtain ⟨-, hlt⟩ := List.mem_range'_1.1 hid
    omega
  · intro solutions' hsame
    apply ofSolutions_congr
    rw [← List.forall₂_eq_eq_eq, List.forall₂_map_left_iff, List.forall₂_map_right_iff]
    exact hsame.imp (fun _ _ => selection_eq_iff.2)

/-- The first two of four solutions differ in an abstract feature alone, and the third can be
written in another order without its negative literals. -/
theorem ofSolutions_distinct_abstract :
    let concreteName? := fun var => [none, some "A", some "B", none][var]?.join
    let solutions : List (List Lit) := [
      [⟨0, true⟩, ⟨1, true⟩, ⟨2, false⟩, ⟨3, true⟩],
      [⟨0, true⟩, ⟨1, true⟩, ⟨2, false⟩, ⟨3, false⟩],
      [⟨0, true⟩, ⟨1, false⟩, ⟨2, true⟩, ⟨3, true⟩],
      [⟨0, false⟩, ⟨1, false⟩, ⟨2, false⟩, ⟨3, false⟩]]
    1 + solutions.length < Text.wordBound ∧
    (ofSolutions concreteName? 1 solutions).configurations.map Configuration.selected =
      [{"A"}, {"B"}, ∅] ∧
    (ofSolutions concreteName? 1 solutions).duplicates = 1 ∧
    ofSolutions concreteName? 1 (solutions.set 2 [⟨2, true⟩, ⟨0, true⟩]) =
      ofSolutions concreteName? 1 solutions := by
  intro concreteName? solutions
  have hword : 1 + solutions.length < Text.wordBound := by decide
  obtain ⟨hselected, -, -, -, -, hcount, hreplaced, -⟩ := ofSolutions_distinct concreteName? hword
  have hdistinct : (solutions.map (selectedNames concreteName?)).eraseDups = [{"A"}, {"B"}, ∅] := by
    decide
  rw [hdistinct] at hselected
  refine ⟨hword, hselected, ?_, hreplaced _ ?_⟩
  · have hlength := congrArg List.length hselected
    rw [List.length_map] at hlength
    rw [hlength] at hcount
    exact Nat.add_right_cancel hcount
  · have hthird : selectedNames concreteName? solutions[2] =
        selectedNames concreteName? [⟨2, true⟩, ⟨0, true⟩] := by decide
    exact .cons rfl (.cons rfl (.cons hthird (.cons rfl .nil)))

end Sample

end ProductLine

import Mathlib.Data.Finset.Powerset
import Mathlib.Data.List.Nodup
import Mathlib.Tactic.Common
import ProductLine.Proofs.Build.Choices
/-!
# Interactions are combinations of literals

Over different names, a configuration makes one literal of each name: the name with the answer
whether it is selected.  Its interactions are the choices of some of its literals, in the order of
the names and written down by their codes.

* `Configuration.codes?_eq` says what decisions are marked, and
  `Configuration.visitInteractions?_eq` on which choices of them is acted;
* `length_filter_combinations` counts choices as sets;
* `Configuration.decisions_eq` reads the codes of a configuration as literals;
* `Configuration.map_code_mem_interactions` says when two configurations share an interaction.
-/
namespace ProductLine

section Combinations

variable {α : Type}

/-- The choices of `k` items from different ones are the sets of `k` of them. -/
theorem length_filter_combinations [DecidableEq α] (k : Nat) {xs : List α} (h : xs.Nodup)
    (p : Finset α → Prop) [DecidablePred p] :
    ((combinations k xs).filter (fun l => decide (p l.toFinset))).length =
      ((xs.toFinset.powersetCard k).filter p).card := by
  rw [← List.toFinset_card_of_nodup ((nodup_combinations k h).filter _)]
  apply Finset.card_bij (fun l _ => l.toFinset)
  · intro l hl
    rw [List.mem_toFinset, List.mem_filter, mem_combinations, decide_eq_true_eq] at hl
    obtain ⟨⟨hsub, hlength⟩, hp⟩ := hl
    rw [Finset.mem_filter, Finset.mem_powersetCard,
      List.toFinset_card_of_nodup (h.sublist hsub)]
    exact ⟨⟨fun x hx => List.mem_toFinset.2 (hsub.subset (List.mem_toFinset.1 hx)), hlength⟩, hp⟩
  · intro l hl r hr heq
    rw [List.mem_toFinset, List.mem_filter, mem_combinations] at hl hr
    have hperm := List.toFinset_eq_iff_perm_dedup.1 heq
    rw [(h.sublist hl.1.1).dedup, (h.sublist hr.1.1).dedup] at hperm
    exact (h.perm_iff_eq_of_sublist hl.1.1 hr.1.1).1 hperm
  · intro s hs
    rw [Finset.mem_filter, Finset.mem_powersetCard] at hs
    obtain ⟨⟨hsub, hcard⟩, hp⟩ := hs
    have hset : (xs.filter (· ∈ s)).toFinset = s := by
      ext x
      rw [List.mem_toFinset, List.mem_filter, decide_eq_true_eq]
      exact ⟨And.right, fun hx => ⟨List.mem_toFinset.1 (hsub hx), hx⟩⟩
    refine ⟨xs.filter (· ∈ s), ?_, hset⟩
    rw [List.mem_toFinset, List.mem_filter, mem_combinations, hset, decide_eq_true_eq]
    refine ⟨⟨List.filter_sublist, ?_⟩, hp⟩
    rw [← List.toFinset_card_of_nodup (h.filter _), hset, hcard]

end Combinations

namespace Configuration

variable {c d : Configuration} {names : List String}

/-! ## Decisions -/

/-- The codes of the decisions about names whose positions count from `first`.  If a name occurs
more than once, only its last position can say that it is selected. -/
def decisionsFrom (c : Configuration) (first : Nat) : List String → List Nat
  | [] => []
  | n :: ns =>
      (if n ∈ c.features ∧ n ∉ ns then 2 * first else 2 * first + 1) ::
        c.decisionsFrom (first + 1) ns

/-- The codes of a configuration's decisions about some names. -/
def decisions (c : Configuration) (names : List String) : List Nat := c.decisionsFrom 0 names

/-- There is one decision for each name. -/
@[simp] theorem length_decisionsFrom (c : Configuration) (first : Nat) (names : List String) :
    (c.decisionsFrom first names).length = names.length := by
  induction names generalizing first with
  | nil => rfl
  | cons name names ih => rw [decisionsFrom, List.length_cons, ih, List.length_cons]

@[simp] theorem length_decisions (c : Configuration) (names : List String) :
    (c.decisions names).length = names.length :=
  c.length_decisionsFrom 0 names

/-- Without features nothing is selected. -/
theorem decisionsFrom_of_nil (h : c.features = []) (first : Nat) (names : List String) :
    c.decisionsFrom first names = (List.range' first names.length).map (2 * · + 1) := by
  induction names generalizing first with
  | nil => rfl
  | cons name names ih => simp [decisionsFrom, h, ih, List.range'_succ]

/-- One more feature changes the decision at the last position of its name, if it has one. -/
theorem decisionsFrom_concat {name : String} (h : d.features = c.features ++ [name]) (first : Nat)
    (names : List String) :
    (positionFrom? name first names = none ∧ name ∉ names ∧
      d.decisionsFrom first names = c.decisionsFrom first names) ∨
    ∃ i < names.length, positionFrom? name first names = some (first + i) ∧ name ∈ names ∧
      d.decisionsFrom first names = (c.decisionsFrom first names).set i (2 * (first + i)) := by
  induction names generalizing first with
  | nil => exact .inl ⟨rfl, List.not_mem_nil, rfl⟩
  | cons n names ih =>
    have hmem : n ∈ d.features ↔ n ∈ c.features ∨ n = name := by simp [h]
    rcases ih (first + 1) with ⟨hposition, hnew, hrest⟩ | ⟨i, hi, hposition, hlisted, hrest⟩
    · by_cases hn : n = name
      · subst hn
        refine .inr ⟨0, Nat.succ_pos _, ?_, List.mem_cons_self .., ?_⟩
        · rw [positionFrom?, hposition, if_pos rfl]
          rfl
        · rw [decisionsFrom, decisionsFrom, hrest, if_pos ⟨hmem.2 (.inr rfl), hnew⟩]
          rfl
      · refine .inl ⟨?_, by simp [Ne.symm hn, hnew], ?_⟩
        · rw [positionFrom?, hposition, if_neg hn]
          rfl
        · rw [decisionsFrom, decisionsFrom, hrest]
          simp only [hmem, hn, or_false]
    · -- The name comes once more later on, so this is not its last position.
      have hsame : (n ∈ d.features ∧ n ∉ names) ↔ (n ∈ c.features ∧ n ∉ names) := by
        refine and_congr_left (fun hn => hmem.trans (or_iff_left ?_))
        rintro rfl
        exact hn hlisted
      refine .inr ⟨i + 1, Nat.succ_lt_succ hi, ?_, List.mem_cons_of_mem n hlisted, ?_⟩
      · rw [positionFrom?, hposition, Option.some_or]
        congr 1
        omega
      · rw [decisionsFrom, decisionsFrom, hrest, List.set_cons_succ]
        simp only [hsame]
        congr 3
        omega

/-- One more feature is marked within the array. -/
theorem mark?_decisions {name : String} (h : d.features = c.features ++ [name])
    (names : List String) :
    mark? names (c.decisions names).toArray name = some (d.decisions names).toArray := by
  rw [mark?, decisions, decisions]
  rcases decisionsFrom_concat h 0 names with ⟨hposition, -, hd⟩ | ⟨i, hi, hposition, -, hd⟩
  · rw [hposition, hd]
  · rw [hposition, hd, Nat.zero_add]
    exact Choice.put?_toArray (by rwa [length_decisionsFrom]) _

/-- All features are marked within the array. -/
theorem codes?_eq (c : Configuration) (names : List String) :
    c.codes? names = some (c.decisions names).toArray := by
  have hmarks : ∀ (fs marked : List String),
      fs.foldlM (mark? names) ((⟨c.id, marked⟩ : Configuration).decisions names).toArray =
        some ((⟨c.id, marked ++ fs⟩ : Configuration).decisions names).toArray := by
    intro fs
    induction fs with
    | nil =>
      intro marked
      rw [List.append_nil]
      rfl
    | cons name fs ih =>
      intro marked
      have hmark := mark?_decisions (c := ⟨c.id, marked⟩) (d := ⟨c.id, marked ++ [name]⟩) rfl names
      rw [List.foldlM_cons, hmark, Option.bind_eq_bind, Option.bind_some, ih, List.append_assoc]
      rfl
  have hstart : (Array.range names.length).map (2 * · + 1) =
      ((⟨c.id, []⟩ : Configuration).decisions names).toArray := by
    apply Array.toList_inj.1
    rw [Array.toList_map, Array.toList_range, decisions, decisionsFrom_of_nil rfl,
      List.range_eq_range']
  rw [codes?, hstart, hmarks]
  rfl

/-! ## What is visited -/

/-- The search acts once on each choice of decisions, in the order of recursion. -/
theorem visitInteractions?_eq {σ : Type} (action : σ → List Nat → σ) (c : Configuration)
    (names : List String) (strength : Nat) (state : σ) :
    c.visitInteractions? action names strength state =
      some ((if min strength names.length = 0 then []
        else combinations (min strength names.length) (c.decisions names)).foldl action state) := by
  have hread : ∀ i < (c.decisions names).toArray.size,
      (c.decisions names).toArray[i]? = some (((c.decisions names)[i]?).getD 0) := by
    intro i hi
    rw [List.getElem?_toArray, List.getElem?_eq_getElem (by simpa using hi), Option.getD_some]
  have hall : (List.range names.length).map (fun i => ((c.decisions names)[i]?).getD 0) =
      c.decisions names := by
    apply List.ext_getElem
    · simp
    · intro i _ hi
      rw [List.getElem_map, List.getElem_range, List.getElem?_eq_getElem hi, Option.getD_some]
  rw [visitInteractions?, codes?_eq, Option.bind_eq_bind, Option.bind_some, List.size_toArray,
    length_decisions]
  dsimp only
  split
  · rfl
  · rw [Choice.visitFrom?_range hread (by simp), ← combinations_map, List.size_toArray,
      length_decisions, hall]

/-- The interactions of a configuration are the combinations of its decisions. -/
theorem interactions_eq_decisions (c : Configuration) (names : List String) (strength : Nat) :
    c.interactions names strength = if min strength names.length = 0 then []
      else combinations (min strength names.length) (c.decisions names) := by
  rw [interactions, visitInteractions?_eq, Option.getD_some, List.foldl_push_eq_append']
  simp

/-! ## Literals -/

/-- What a configuration says about a name: whether it is selected. -/
def literal (c : Configuration) (name : String) : String × Bool :=
  (name, decide (name ∈ c.features))

/-- What it says about some names. -/
def literals (c : Configuration) (names : List String) : List (String × Bool) :=
  names.map c.literal

/-- The code of a literal. -/
def code (names : List String) (l : String × Bool) : Nat :=
  2 * names.idxOf l.1 + if l.2 then 0 else 1

/-- No literal is listed twice if no name is. -/
theorem nodup_literals (h : names.Nodup) : (c.literals names).Nodup :=
  h.map (fun _ _ heq => congrArg Prod.fst heq)

/-- Literals are about the names they are made for. -/
theorem fst_mem_of_mem_literals {l : String × Bool} (hl : l ∈ c.literals names) :
    l.1 ∈ names := by
  obtain ⟨name, hname, rfl⟩ := List.mem_map.1 hl
  exact hname

/-- Decisions are the codes of literals, counted from the first position. -/
theorem decisionsFrom_eq (c : Configuration) (first : Nat) (h : names.Nodup) :
    c.decisionsFrom first names = (c.literals names).map (fun l => 2 * first + code names l) := by
  induction names generalizing first with
  | nil => rfl
  | cons name names ih =>
    obtain ⟨hname, hnames⟩ := List.nodup_cons.1 h
    rw [decisionsFrom, ih (first + 1) hnames, literals, literals, List.map_cons, List.map_cons]
    congr 1
    · by_cases hmem : name ∈ c.features <;> simp [code, literal, hmem, hname]
    · rw [← literals]
      apply List.map_congr_left
      intro l hl
      -- The names after the first one are one position further.
      have hne : name ≠ l.1 := fun heq => hname (heq ▸ fst_mem_of_mem_literals hl)
      rw [code, code, List.idxOf_cons_ne _ hne]
      omega

/-- Over different names, decisions are literals written down by their codes. -/
theorem decisions_eq (c : Configuration) (h : names.Nodup) :
    c.decisions names = (c.literals names).map (code names) := by
  rw [decisions, c.decisionsFrom_eq 0 h]
  simp

/-- Interactions take one or more literals, as many as the strength asks for, or all of them. -/
theorem interactions_eq (c : Configuration) (h : names.Nodup) {strength : Nat}
    (hpos : min strength names.length ≠ 0) : c.interactions names strength =
      (combinations (min strength names.length) (c.literals names)).map
        (List.map (code names)) := by
  rw [← combinations_map, ← c.decisions_eq h, interactions_eq_decisions, if_neg hpos]

/-- The literal with a code. -/
def ofCode (names : List String) (code : Nat) : String × Bool :=
  ((names[code / 2]?).getD "", code % 2 == 0)

/-- A literal can be read from its code. -/
theorem ofCode_code {l : String × Bool} (hl : l.1 ∈ names) : ofCode names (code names l) = l := by
  obtain ⟨name, positive⟩ := l
  have hindex : code names (name, positive) / 2 = names.idxOf name := by
    cases positive with
    | false =>
      show (2 * names.idxOf name + 1) / 2 = names.idxOf name
      omega
    | true =>
      show (2 * names.idxOf name + 0) / 2 = names.idxOf name
      omega
  have hsign : (code names (name, positive) % 2 == 0) = positive := by
    cases positive with
    | false =>
      show ((2 * names.idxOf name + 1) % 2 == 0) = false
      rw [beq_eq_false_iff_ne]
      omega
    | true =>
      show ((2 * names.idxOf name + 0) % 2 == 0) = true
      rw [beq_iff_eq]
      omega
  rw [ofCode, hindex, hsign, List.getElem?_idxOf hl, Option.getD_some]

/-- So literals can be read off their codes. -/
theorem map_ofCode_map_code {l : List (String × Bool)} (h : l ⊆ c.literals names) :
    (l.map (code names)).map (ofCode names) = l := by
  rw [List.map_map]
  refine (List.map_congr_left (fun x hx => ?_)).trans (List.map_id l)
  exact ofCode_code (fst_mem_of_mem_literals (h hx))

/-- What a configuration says of some names is said by another one in the same order, if it is said
by it at all. -/
theorem sublist_literals_of_subset {l : List (String × Bool)} (hl : l.Sublist (c.literals names))
    (h : l ⊆ d.literals names) : l.Sublist (d.literals names) := by
  obtain ⟨some, hsome, rfl⟩ := List.sublist_map_iff.1 hl
  have hsame : some.map c.literal = some.map d.literal := by
    apply List.map_congr_left
    intro name hname
    obtain ⟨other, -, heq⟩ := List.mem_map.1 (h (List.mem_map_of_mem hname))
    obtain rfl : other = name := congrArg Prod.fst heq
    exact heq.symm
  rw [hsame]
  exact hsome.map _

/-- **Two configurations share an interaction** exactly if the other one makes the same literals. -/
theorem map_code_mem_interactions (h : names.Nodup) {strength : Nat}
    (hpos : min strength names.length ≠ 0) {l : List (String × Bool)}
    (hl : l ∈ combinations (min strength names.length) (c.literals names)) :
    l.map (code names) ∈ d.interactions names strength ↔
      l.toFinset ⊆ (d.literals names).toFinset := by
  have hsub := (mem_combinations.1 hl).1
  rw [d.interactions_eq h hpos, List.mem_map]
  constructor
  · rintro ⟨r, hr, heq⟩
    have hsub' := (mem_combinations.1 hr).1
    have hsame : r = l := by
      rw [← map_ofCode_map_code hsub'.subset, heq, map_ofCode_map_code hsub.subset]
    subst hsame
    exact fun x hx => List.mem_toFinset.2 (hsub'.subset (List.mem_toFinset.1 hx))
  · intro hsubset
    refine ⟨l, mem_combinations.2 ⟨?_, (mem_combinations.1 hl).2⟩, rfl⟩
    apply sublist_literals_of_subset hsub
    intro x hx
    exact List.mem_toFinset.1 (hsubset (List.mem_toFinset.2 hx))

/-! ## Interactions by position -/

/-- The choices of as many positions below `size` as the strength asks for, or of all of them. -/
def choices (size strength : Nat) : List (List Nat) :=
  if min strength size = 0 then [] else combinations (min strength size) (List.range size)

/-- A choice has the right number of positions, each of them in range and after the one before. -/
theorem mem_choices {size strength : Nat} {l : List Nat} : l ∈ choices size strength ↔
    min strength size ≠ 0 ∧ l.length = min strength size ∧ l.Pairwise (· < ·) ∧
      ∀ i ∈ l, i < size := by
  rw [choices]
  split
  · rename_i hzero
    simp [hzero]
  · rename_i hpos
    rw [mem_combinations_range]
    exact (and_iff_right hpos).symm

/-- The choices are listed in lexicographic order. -/
theorem pairwise_choices (size strength : Nat) : (choices size strength).Pairwise (· < ·) := by
  rw [choices]
  split
  · exact .nil
  · exact pairwise_combinations _ List.pairwise_lt_range

/-- The code of the decision about the name at a position. -/
def codeAt (c : Configuration) (names : List String) (i : Nat) : Nat :=
  if ∃ name ∈ names[i]?, name ∈ c.features then 2 * i else 2 * i + 1

/-- A code tells its position. -/
theorem codeAt_div_two (c : Configuration) (names : List String) (i : Nat) :
    c.codeAt names i / 2 = i := by
  rw [codeAt]
  split <;> omega

/-- The codes at a position agree if both configurations have the feature there, or neither has. -/
theorem codeAt_eq_iff {i : Nat} : c.codeAt names i = d.codeAt names i ↔
    ∀ name, names[i]? = some name → (name ∈ c.features ↔ name ∈ d.features) := by
  rw [codeAt, codeAt]
  cases names[i]? with
  | none => simp
  | some name =>
    by_cases hc : name ∈ c.features <;> by_cases hd : name ∈ d.features <;> simp [hc, hd]

/-- Over different names, the decisions are made position by position. -/
theorem decisions_eq_codeAt (c : Configuration) (h : names.Nodup) :
    c.decisions names = (List.range names.length).map (c.codeAt names) := by
  rw [c.decisions_eq h]
  apply List.ext_getElem
  · simp [literals]
  · intro i hi _
    have hname : i < names.length := by simpa [literals] using hi
    have hindex : names.idxOf names[i] = i := h.idxOf_getElem i hname
    rw [List.getElem_map, List.getElem_map, List.getElem_range, codeAt,
      List.getElem?_eq_getElem hname]
    by_cases hmem : names[i] ∈ c.features <;> simp [literals, literal, code, hindex, hmem]

/-- An interaction has the codes at the chosen positions. -/
theorem interactions_eq_codeAt (c : Configuration) (h : names.Nodup) (strength : Nat) :
    c.interactions names strength =
      (choices names.length strength).map (List.map (c.codeAt names)) := by
  rw [interactions_eq_decisions, choices, c.decisions_eq_codeAt h]
  split
  · rfl
  · exact combinations_map ..

/-- **Interactions are visited in order.**  Over different names, each choice of as many positions
as the strength asks for, or of all, is visited once, in lexicographic order.  Whatever is done
there, the search reads and writes within its arrays and comes to its end, and what is done is done
with the codes of the decisions at these positions.  So another configuration has an interaction
exactly if it makes the same decisions there. -/
theorem visits_choices (h : names.Nodup) (c : Configuration) (strength : Nat) :
    (∀ l, l ∈ choices names.length strength ↔
      min strength names.length ≠ 0 ∧ l.length = min strength names.length ∧
        l.Pairwise (· < ·) ∧ ∀ i ∈ l, i < names.length) ∧
    (choices names.length strength).Pairwise (· < ·) ∧
    (∀ {σ : Type} (action : σ → List Nat → σ) (state : σ),
      c.visitInteractions? action names strength state =
        some ((choices names.length strength).foldl
          (fun state l => action state (l.map (c.codeAt names))) state)) ∧
    ∀ d : Configuration, ∀ l ∈ choices names.length strength,
      l.map (c.codeAt names) ∈ d.interactions names strength ↔
        ∀ i ∈ l, ∀ name, names[i]? = some name → (name ∈ c.features ↔ name ∈ d.features) := by
  refine ⟨fun _ => mem_choices, pairwise_choices .., ?_, ?_⟩
  · intro σ action state
    rw [visitInteractions?_eq, ← interactions_eq_decisions, c.interactions_eq_codeAt h,
      List.foldl_map]
  · intro d l hl
    rw [d.interactions_eq_codeAt h, List.mem_map]
    calc (∃ r ∈ choices names.length strength, r.map (d.codeAt names) = l.map (c.codeAt names))
        ↔ l.map (d.codeAt names) = l.map (c.codeAt names) := by
          refine ⟨?_, fun heq => ⟨l, hl, heq⟩⟩
          rintro ⟨r, -, heq⟩
          -- The positions can be read off the codes.
          have hpositions := congrArg (List.map (· / 2)) heq
          simp only [List.map_map, Function.comp_def, codeAt_div_two, List.map_id'] at hpositions
          rwa [hpositions] at heq
      _ ↔ ∀ i ∈ l, c.codeAt names i = d.codeAt names i := by
          rw [eq_comm, List.map_inj_left]
      _ ↔ ∀ i ∈ l, ∀ name, names[i]? = some name → (name ∈ c.features ↔ name ∈ d.features) :=
          forall₂_congr (fun _ _ => codeAt_eq_iff)

/-- Of three of four names there are four choices.  Two configurations that differ in the last name
alone share the first one, and no other. -/
theorem visits_choices_threeOfFour :
    ["A", "B", "C", "D"].Nodup ∧
    Configuration.visitInteractions? (fun visited interaction => visited ++ [interaction])
        ⟨1, ["B"]⟩ ["A", "B", "C", "D"] 3 [] =
      some [[1, 2, 5], [1, 2, 7], [1, 5, 7], [2, 5, 7]] ∧
    [0, 1, 2] ∈ choices 4 3 ∧
    [1, 2, 5] ∈ Configuration.interactions ⟨2, ["B", "D"]⟩ ["A", "B", "C", "D"] 3 ∧
    [0, 1, 3] ∈ choices 4 3 ∧
    [1, 2, 7] ∉ Configuration.interactions ⟨2, ["B", "D"]⟩ ["A", "B", "C", "D"] 3 := by
  have hnames : ["A", "B", "C", "D"].Nodup := by decide
  obtain ⟨-, -, hvisits, hshared⟩ := visits_choices hnames ⟨1, ["B"]⟩ 3
  have hfirst : [0, 1, 2] ∈ choices 4 3 := by decide
  have hsecond : [0, 1, 3] ∈ choices 4 3 := by decide
  refine ⟨hnames, (hvisits _ []).trans (by decide), hfirst, ?_, hsecond, ?_⟩
  · refine (hshared ⟨2, ["B", "D"]⟩ _ hfirst).2 ?_
    simp
  · intro hmem
    have hsame := (hshared ⟨2, ["B", "D"]⟩ _ hsecond).1 hmem 3 (by decide) "D" rfl
    simp at hsame

end Configuration

end ProductLine

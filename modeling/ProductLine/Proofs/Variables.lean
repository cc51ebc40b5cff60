import Mathlib.Data.List.Induction
import Mathlib.Data.List.Nodup
import Mathlib.Tactic.Common
import ProductLine.Proofs.FirstOccurrences
import ProductLine.Proofs.Solver.Stack
import ProductLine.Variables.Indexed
/-!
# Variables are numbered by first insertion

A name that is new gets the next variable, and no insertion changes what was there before.  So names
and index stay inverse to each other, and a literal is a formula over names whose only clause is the
literal.

* `Variables.find?_insert` says where a name is found after an insertion;
* `IndexedVariables.Agrees` says that the index gives each name its place, and
  `IndexedVariables.Agrees.insertAll` that all insertions keep it so;
* `IndexedVariables.ofNames_numbers` is about the tables of any names.
-/
namespace ProductLine

/-! ## Tables without an index -/

namespace Variables

variable {vs : Variables} {name n : String}

theorem isSome_find?_iff : (vs.find? name).isSome = true ↔ name ∈ vs.names := by
  rw [find?, ← Option.ne_none_iff_isSome, ne_eq, List.idxOf?_eq_none_iff, not_not]

/-- There is a name for each variable below the size. -/
theorem isSome_name?_iff {i : Nat} : (vs.name? i).isSome = true ↔ i < vs.size := by
  rw [name?, size]
  simp

/-- A name that is new is found at the end, and the others are found where they were. -/
theorem find?_insert (vs : Variables) (name n : String) :
    (vs.insert name).find? n = (vs.find? n).or (if name = n then some vs.size else none) := by
  by_cases hmem : name ∈ vs.names
  · rw [insert, if_pos hmem]
    split
    · rename_i heq
      obtain ⟨i, hi⟩ := Option.isSome_iff_exists.1 (isSome_find?_iff.2 (heq ▸ hmem))
      rw [hi, Option.some_or]
    · rw [Option.or_none]
  · rw [insert, if_neg hmem]
    simp only [find?, List.idxOf?, List.findIdx?_append, List.findIdx?_singleton, beq_iff_eq]
    split <;> simp [size]

/-- A new name comes last, and a known one is not inserted again. -/
theorem names_insert (vs : Variables) (name : String) :
    (vs.insert name).names = if name ∈ vs.names then vs.names else vs.names ++ [name] := by
  rw [insert]
  split <;> rfl

/-- The names of a table are the different ones that it was given. -/
theorem names_ofNames (names : List String) : (ofNames names).names = names.eraseDups := by
  induction names using List.reverseRecOn with
  | nil => rfl
  | append_singleton names name ih =>
    have hlast : ofNames (names ++ [name]) = (ofNames names).insert name := by
      rw [ofNames, List.foldl_append]
      rfl
    rw [hlast, names_insert, ih, eraseDups_concat]
    simp only [List.mem_eraseDups]

/-- Names that are not repeated are a table as they are. -/
theorem ofNames_eq {names : List String} (h : names.Nodup) : ofNames names = ⟨names⟩ :=
  congrArg Variables.mk ((names_ofNames names).trans (eraseDups_of_nodup h))

end Variables

/-! ## Tables with an index -/

namespace IndexedVariables

variable {s : IndexedVariables} {name n : String} {i : Nat} {l : Lit}

/-- The index has each name in its place, and no name has two. -/
structure Agrees (s : IndexedVariables) : Prop where
  index : ∀ name, s.find? name = s.table.find? name
  names : s.table.names.Nodup

@[simp] theorem size_table (s : IndexedVariables) : s.table.size = s.size := rfl

@[simp] theorem name?_table (s : IndexedVariables) (i : Nat) : s.table.name? i = s.name? i :=
  Array.getElem?_toList

theorem agrees_empty : Agrees {} := by
  refine ⟨fun name => ?_, .nil⟩
  exact Std.HashMap.getElem?_empty

/-- A name that the index has stays as it is, and a new one goes to the end. -/
theorem insert_cases (s : IndexedVariables) (name : String) :
    (∃ i, s.find? name = some i ∧ s.insert name = (i, s)) ∨
    (s.find? name = none ∧ s.insert name =
      (s.size, { names := s.names.push name, vars := s.vars.insert name s.size })) := by
  rw [insert]
  cases h : s.find? name with
  | some i => exact .inl ⟨i, rfl, rfl⟩
  | none => exact .inr ⟨rfl, rfl⟩

/-- A name that is new is entered into the index, and the others stay in it as they are. -/
theorem find?_insert (s : IndexedVariables) (name n : String) :
    (s.insert name).2.find? n = (s.find? n).or (if name = n then some s.size else none) := by
  rcases s.insert_cases name with ⟨i, hfind, hinsert⟩ | ⟨hfind, hinsert⟩
  · rw [hinsert]
    split
    · rename_i heq
      rw [← heq, hfind, Option.some_or]
    · rw [Option.or_none]
  · rw [hinsert, find?, Std.HashMap.getElem?_insert]
    by_cases heq : name = n
    · rw [← heq, hfind]
      simp
    · simp [heq, find?]

namespace Agrees

/-- With an index in agreement a name is found exactly if it is in the table. -/
theorem isSome_find?_iff (h : s.Agrees) (name : String) :
    (s.find? name).isSome = true ↔ name ∈ s.table.names := by
  rw [h.index, Variables.isSome_find?_iff]

/-- Looking up a name and looking up a variable undo each other. -/
theorem find?_eq_some_iff (h : s.Agrees) : s.find? name = some i ↔ s.name? i = some name := by
  rw [h.index, ← name?_table]
  exact ⟨Variables.name?_of_find?, Variables.find?_of_name? h.names⟩

/-- With an index, insertion does to the table what it does without. -/
theorem table_insert (h : s.Agrees) (name : String) :
    (s.insert name).2.table = s.table.insert name := by
  have hmem := h.isSome_find?_iff name
  rcases s.insert_cases name with ⟨i, hfind, hinsert⟩ | ⟨hfind, hinsert⟩
  · rw [hfind, Option.isSome_some] at hmem
    rw [hinsert, Variables.insert, if_pos (hmem.1 rfl)]
  · rw [hfind, Option.isSome_none] at hmem
    have hnew : name ∉ s.table.names := by simpa using hmem
    rw [hinsert, Variables.insert, if_neg hnew, table, Array.toList_push]
    rfl

/-- Insertion tells the variable that the name has from then on. -/
theorem fst_insert (h : s.Agrees) (name : String) :
    (s.table.insert name).find? name = some (s.insert name).1 := by
  rw [Variables.find?_insert, if_pos rfl, ← h.index, size_table]
  rcases s.insert_cases name with ⟨i, hfind, hinsert⟩ | ⟨hfind, hinsert⟩
  all_goals
    rw [hfind, hinsert]
    rfl

/-- Inserting a name keeps the index in agreement. -/
theorem insert (h : s.Agrees) (name : String) : (s.insert name).2.Agrees where
  index n := by
    rw [h.table_insert, IndexedVariables.find?_insert, Variables.find?_insert, h.index, size_table]
  names := by
    rw [h.table_insert, Variables.names_insert]
    split
    · exact h.names
    · rename_i hnew
      exact List.concat_eq_append ▸ h.names.concat hnew

/-- A name that has a variable keeps it. -/
theorem find?_insertAll (h : s.Agrees) (hfind : s.find? n = some i) (names : List String) :
    (s.insertAll names).find? n = some i := by
  induction names generalizing s with
  | nil => exact hfind
  | cons name names ih =>
    refine ih (h.insert name) ?_
    rw [find?_insert, hfind, Option.some_or]

/-- All insertions do to the table what they do without an index, and the index follows. -/
theorem insertAll (h : s.Agrees) (names : List String) :
    (s.insertAll names).Agrees ∧
      (s.insertAll names).table = names.foldl Variables.insert s.table := by
  induction names generalizing s with
  | nil => exact ⟨h, rfl⟩
  | cons name names ih =>
    obtain ⟨hagrees, htable⟩ := ih (h.insert name)
    refine ⟨hagrees, htable.trans ?_⟩
    rw [h.table_insert, List.foldl_cons]

/-- The literals of the variables of a table are formulas of one clause, and there are no others. -/
theorem literalFormula_cases (h : s.Agrees) (l : Lit) :
    if l.var < s.size then
      ∃ f, s.literalFormula l = .ok f ∧ ∀ limit, f.clauseForm s.table limit = .ok ⟨s.size, [[l]]⟩
    else s.literalFormula l = .error (.unknownLiteral l) := by
  have hknown : (s.name? l.var).isSome = true ↔ l.var < s.size := by
    rw [← name?_table, Variables.isSome_name?_iff, size_table]
  rw [literalFormula]
  cases hname : s.name? l.var with
  | none =>
    rw [hname, Option.isSome_none] at hknown
    rw [if_neg (by simpa using hknown)]
  | some name =>
    rw [hname, Option.isSome_some] at hknown
    rw [if_pos (hknown.1 rfl)]
    refine ⟨_, rfl, fun limit => Solver.clauseForm_literal limit ?_⟩
    rw [← h.index]
    exact h.find?_eq_some_iff.2 hname

/-- Names have the literals that they have without an index. -/
theorem lit_eq (h : s.Agrees) (name : String) (polarity : Bool) :
    s.lit name polarity = s.table.lit name polarity := by
  have hfind := h.index name
  unfold lit Variables.lit
  cases htable : s.table.find? name <;> simp only [hfind, htable]

end Agrees

/-- A table made from names agrees with its index. -/
theorem agrees_ofNames (names : List String) : (ofNames names).Agrees :=
  (agrees_empty.insertAll names).1

/-- The names of a table made with an index are those of one made without. -/
theorem table_ofNames (names : List String) : (ofNames names).table = .ofNames names :=
  (agrees_empty.insertAll names).2

/-- **Names are numbered by first insertion.**  After any insertions the table has the different
names in the order in which they came first, with and without an index.  A name is found exactly at
the variable that it is the name of, the names that are found are those that were inserted, and the
variables with a name are those below the number of variables.  One more insertion tells the
variable of its name, and no insertions change the variable of a name that was inserted before.  A
literal of a variable of the table is a formula over the names, and its clause form has just the
literal whatever the limit is; a literal of another variable is refused. -/
theorem ofNames_numbers (names later : List String) :
    let s := ofNames names
    s.table = .ofNames names ∧
    (∀ name polarity, s.lit name polarity = s.table.lit name polarity) ∧
    (∀ i, s.name? i = names.eraseDups[i]?) ∧ s.size = names.eraseDups.length ∧
    (∀ name i, s.find? name = some i ↔ s.name? i = some name) ∧
    (∀ name, (s.find? name).isSome = true ↔ name ∈ names) ∧
    (∀ i, (s.name? i).isSome = true ↔ i < s.size) ∧
    (∀ name, (s.insert name).2.find? name = some (s.insert name).1) ∧
    (∀ name ∈ names, (s.insertAll later).find? name = s.find? name) ∧
    ∀ l : Lit,
      if l.var < s.size then
        ∃ f, s.literalFormula l = .ok f ∧ ∀ limit, f.clauseForm s.table limit = .ok ⟨s.size, [[l]]⟩
      else s.literalFormula l = .error (.unknownLiteral l) := by
  intro s
  have hs : s.Agrees := agrees_ofNames names
  have htable : s.table = .ofNames names := table_ofNames names
  have hnames : s.table.names = names.eraseDups := by
    rw [htable, Variables.names_ofNames]
  have hfound : ∀ name, (s.find? name).isSome = true ↔ name ∈ names := by
    intro name
    rw [hs.isSome_find?_iff, hnames, List.mem_eraseDups]
  refine ⟨htable, hs.lit_eq, ?_, ?_, fun _ _ => hs.find?_eq_some_iff, hfound, ?_, ?_, ?_,
    hs.literalFormula_cases⟩
  · intro i
    rw [← name?_table, Variables.name?, hnames]
  · rw [← size_table, Variables.size, hnames]
  · intro i
    rw [← name?_table, Variables.isSome_name?_iff, size_table]
  · intro name
    rw [(hs.insert name).index, hs.table_insert, hs.fst_insert]
  · intro name hname
    obtain ⟨i, hi⟩ := Option.isSome_iff_exists.1 ((hfound name).2 hname)
    rw [hs.find?_insertAll hi, hi]

/-- The second of two names keeps its variable when it comes once more after another one. -/
theorem ofNames_numbers_repeated :
    "B" ∈ ["A", "B", "A"] ∧
    ((ofNames ["A", "B", "A"]).insertAll ["C", "B"]).find? "B" = some 1 ∧
    (∃ f, (ofNames ["A", "B", "A"]).literalFormula ⟨1, false⟩ = .ok f ∧
      ∀ limit, f.clauseForm (.ofNames ["A", "B", "A"]) limit = .ok ⟨2, [[⟨1, false⟩]]⟩) ∧
    (ofNames ["A", "B", "A"]).literalFormula ⟨2, true⟩ = .error (.unknownLiteral ⟨2, true⟩) := by
  obtain ⟨htable, -, hname, hsize, hfind, -, -, -, hkept, hliteral⟩ :=
    ofNames_numbers ["A", "B", "A"] ["C", "B"]
  have hdistinct : ["A", "B", "A"].eraseDups = ["A", "B"] := by decide
  rw [hdistinct] at hsize
  have hmem : "B" ∈ ["A", "B", "A"] := by decide
  refine ⟨hmem, ?_, ?_, ?_⟩
  · rw [hkept "B" hmem, hfind, hname, hdistinct]
    rfl
  · have hknown := hliteral ⟨1, false⟩
    rw [hsize, htable] at hknown
    exact hknown
  · have hunknown := hliteral ⟨2, true⟩
    rw [hsize] at hunknown
    exact hunknown

end IndexedVariables

end ProductLine

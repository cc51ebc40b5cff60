import Mathlib
import ProductLine.NamedCnf
import ProductLine.Proofs.Clause
import ProductLine.Proofs.Solver.Counting
/-!
# Named variables stand for the variables of the input

Clauses are read by number, stated by name, and asked for by number again.  Nothing is lost on the
way because no two variables get the same name.

* `NamedCnf.unclash_not_mem` says that the search for a free name ends at one, and
  `NamedCnf.nodup_chooseNames` that the names of an input differ, whatever its comments say;
* `Formula.clauseForm_or_literals` says that a disjunction of literals has a clause form within
  every limit;
* `NamedCnf.ofBytes?_faithful` puts them together for all inputs that can be read, whatever parser
  reads their clauses.
-/
namespace ProductLine

/-! ## Names that are free -/

namespace NamedCnf

/-- A name with underscores in front. -/
def underscored : Nat → String → String
  | 0, name => name
  | n + 1, name => underscored n ("_" ++ name)

theorem length_underscored (n : Nat) (name : String) :
    (underscored n name).length = n + name.length := by
  induction n generalizing name with
  | zero => simp [underscored]
  | succ n ih =>
    rw [underscored, ih, String.length_append, show "_".length = 1 from rfl]
    omega

/-- Names with different numbers of underscores are different. -/
theorem underscored_injective (name : String) : Function.Injective (underscored · name) := by
  intro m n h
  have hlength := congrArg String.length h
  simpa [length_underscored] using hlength

/-- The search for a free name goes on only as long as names are taken. -/
theorem forall_mem_of_unclash_mem {taken : List String} {most : Nat} {name : String}
    (h : unclash taken most name ∈ taken) : ∀ n ≤ most, underscored n name ∈ taken := by
  induction most generalizing name with
  | zero =>
    intro n hn
    rw [Nat.le_zero.1 hn]
    exact h
  | succ most ih =>
    rw [unclash] at h
    split at h
    · rename_i hname
      intro n hn
      cases n with
      | zero => exact hname
      | succ n => exact ih h n (Nat.le_of_succ_le_succ hn)
    · rename_i hname
      exact absurd h hname

/-- The search ends at a name that is free: more different names are tried than are taken. -/
theorem unclash_not_mem (taken : List String) (name : String) :
    unclash taken taken.length name ∉ taken := by
  intro h
  have hnodup : ((List.range (taken.length + 1)).map (underscored · name)).Nodup :=
    List.nodup_range.map (underscored_injective name)
  have hsub : (List.range (taken.length + 1)).map (underscored · name) ⊆ taken := by
    intro tried htried
    obtain ⟨n, hn, rfl⟩ := List.mem_map.1 htried
    exact forall_mem_of_unclash_mem h n (Nat.lt_succ_iff.1 (List.mem_range.1 hn))
  have hlength := (hnodup.subperm hsub).length_le
  rw [List.length_map, List.length_range] at hlength
  omega

/-- A variable gets a name that none before it has. -/
theorem chooseName_not_mem (given : List (Nat × String)) (taken : List String) (var : Nat) :
    (chooseName given taken var).1 ∉ taken := by
  unfold chooseName
  split
  · split
    · exact unclash_not_mem taken _
    · assumption
  · exact unclash_not_mem taken _

theorem length_chooseNames (given : List (Nat × String)) (count : Nat) :
    (chooseNames given count).length = count := by
  induction count with
  | zero => rfl
  | succ count ih => simp [chooseNames, ih]

/-- **All variables have different names**, whatever names are given. -/
theorem nodup_chooseNames (given : List (Nat × String)) (count : Nat) :
    ((chooseNames given count).map Prod.fst).Nodup := by
  induction count with
  | zero => exact List.nodup_nil
  | succ count ih =>
    rw [chooseNames, List.map_append, List.map_singleton, ← List.concat_eq_append]
    exact ih.concat (chooseName_not_mem given _ count)

end NamedCnf

/-! ## Clauses as formulas -/

/-- The clause set is true exactly where the clause is. -/
def ClauseSet.Restates (set : ClauseSet) (c : Clause) : Prop := ∀ v, set.eval v = c.eval v

/-- Clause sets that restate clauses have the same models. -/
theorem ClauseSet.eval_iff_of_restates {sets : List ClauseSet} {clauses : List Clause}
    (h : List.Forall₂ Restates sets clauses) (v : Nat → Bool) :
    (∀ set ∈ sets, set.eval v = true) ↔ ∀ c ∈ clauses, c.eval v = true := by
  induction h with
  | nil => simp
  | cons hset _ ih => rw [List.forall_mem_cons, List.forall_mem_cons, hset v, ih]

namespace Nnf

/-- To join a literal to at most one clause gives at most one. -/
theorem joinAll_literal {limit : Nat} (hlimit : 1 ≤ limit) (l : Lit) {product : List Clause}
    (hproduct : product.length ≤ 1) :
    ∃ joined, joinAll limit [[l]] 0 [] product = .ok joined ∧ joined.length ≤ 1 := by
  match product, hproduct with
  | [], _ => exact ⟨[], rfl, Nat.zero_le 1⟩
  | [c], _ =>
    have hle : ([[l]].filterMap c.merge?).length ≤ 1 := List.length_filterMap_le ..
    refine ⟨(([[l]].filterMap c.merge?).reverse ++ []).reverse, ?_, by simpa using hle⟩
    rw [joinAll, if_neg (by omega), joinAll]

/-- So a disjunction of literals has at most one clause all the way. -/
theorem disjoin_literals {limit : Nat} (hlimit : 1 ≤ limit) (ls : List Lit) {product : List Clause}
    (hproduct : product.length ≤ 1) :
    ∃ cs, disjoin limit product (ls.map lit) = .ok cs := by
  induction ls generalizing product with
  | nil => exact ⟨product, by rw [List.map_nil, disjoin]⟩
  | cons l ls ih =>
    obtain ⟨joined, hjoined, hlength⟩ := joinAll_literal hlimit l hproduct
    obtain ⟨cs, hcs⟩ := ih hlength
    refine ⟨cs, ?_⟩
    rw [List.map_cons, disjoin, clauses]
    exact bind_eq_ok.2 ⟨[[l]], rfl, bind_eq_ok.2 ⟨joined, hjoined, hcs⟩⟩

/-- A disjunction of literals is true as the clause of them is. -/
theorem evalAny_literals (v : Nat → Bool) (c : Clause) : evalAny v (c.map lit) = c.eval v := by
  induction c with
  | nil => rfl
  | cons l c ih => rw [List.map_cons, evalAny, eval, ih, Clause.eval_cons]

end Nnf

namespace NamedCnf

variable {vs : Variables}

/-- The literals of the variables in a table have formulas, which are normalized back to them. -/
theorem litFormulas_faithful (hvs : vs.names.Nodup) {c : Clause} (hc : c.InRange vs.size) :
    ∃ fs, litFormulas vs c = .ok fs ∧ Formula.normalizeAll vs true fs = .ok (c.map .lit) := by
  induction c with
  | nil => exact ⟨[], rfl, by rw [Formula.normalizeAll, List.map_nil]⟩
  | cons l c ih =>
    obtain ⟨hl, hc⟩ := List.forall_mem_cons.1 hc
    obtain ⟨fs, hfs, hnormal⟩ := ih hc
    obtain ⟨name, hname⟩ : ∃ name, vs.name? l.var = some name :=
      ⟨_, List.getElem?_eq_getElem hl⟩
    have hformula : vs.literalFormula l = .ok (.literal name l.positive) := by
      rw [Variables.literalFormula, hname]
    refine ⟨.literal name l.positive :: fs, ?_, ?_⟩
    · exact bind_eq_ok.2 ⟨_, hformula, bind_eq_ok.2 ⟨fs, hfs, rfl⟩⟩
    · rw [Formula.normalizeAll]
      exact bind_eq_ok.2 ⟨_,
        Formula.normalize_literal (Variables.find?_of_name? hvs hname) l.positive,
        bind_eq_ok.2 ⟨_, hnormal, rfl⟩⟩

end NamedCnf

/-- A disjunction whose parts are literals has a clause form within every limit, and it says what
the clause of these literals says. -/
theorem Formula.clauseForm_or_literals {vs : Variables} {fs : List Formula} {c : Clause}
    (hfs : normalizeAll vs true fs = .ok (c.map .lit)) {limit : Nat} (hlimit : 1 ≤ limit) :
    ∃ set, clauseForm vs limit (.or fs) = .ok set ∧ set.Restates c := by
  have hempty : [([] : Clause)].length ≤ 1 := Nat.le_refl 1
  obtain ⟨cs, hcs⟩ := Nnf.disjoin_literals hlimit c hempty
  have hnormal : normalize vs true (.or fs) = .ok (.or (c.map .lit)) := by
    rw [normalize]
    exact bind_eq_ok.2 ⟨_, hfs, rfl⟩
  refine ⟨⟨vs.size, cs⟩, clauseForm_eq_ok.2 ⟨_, hnormal, cs, by rw [Nnf.clauses, hcs], rfl⟩, ?_⟩
  intro v
  rw [ClauseSet.eval, Nnf.eval_disjoin v limit hcs, Nnf.evalAny_literals]
  rfl

namespace NamedCnf

variable {vs : Variables} {clauses : List Clause}

/-- Each clause has its constraint, which is brought into a clause form that says the same. -/
theorem clauseFormulas_faithful (hvs : vs.names.Nodup)
    (hclauses : ∀ c ∈ clauses, c.InRange vs.size) :
    ∃ fs, clauseFormulas vs clauses = .ok fs ∧ fs.length = clauses.length ∧
      ∀ first limit, 1 ≤ limit → ∃ sets,
        BaseFormula.clauseForms vs limit (Constraint.stateAll first fs) = .ok sets ∧
          List.Forall₂ ClauseSet.Restates sets clauses := by
  induction clauses with
  | nil => exact ⟨[], rfl, rfl, fun first limit _ => ⟨[], rfl, .nil⟩⟩
  | cons c clauses ih =>
    obtain ⟨hc, hclauses⟩ := List.forall_mem_cons.1 hclauses
    obtain ⟨fs, hfs, hlength, hforms⟩ := ih hclauses
    obtain ⟨lits, hlits, hnormal⟩ := litFormulas_faithful hvs hc
    refine ⟨.or lits :: fs, ?_, by simp [hlength], ?_⟩
    · exact bind_eq_ok.2 ⟨lits, hlits, bind_eq_ok.2 ⟨fs, hfs, rfl⟩⟩
    · intro first limit hlimit
      obtain ⟨set, hset, heval⟩ := Formula.clauseForm_or_literals hnormal hlimit
      obtain ⟨sets, hsets, hevals⟩ := hforms (first + 1) limit hlimit
      refine ⟨set :: sets, ?_, .cons heval hevals⟩
      exact bind_eq_ok.2 ⟨set, hset, bind_eq_ok.2 ⟨sets, hsets, rfl⟩⟩

/-- Whatever names are given, the variables of some clauses get different names, each clause becomes
a constraint, and within every limit the constraints say by number what the clauses say. -/
theorem ofClauses_faithful (given : List (Nat × String)) {s : ClauseSet}
    (hs : s.InRange s.varCount) :
    ∃ cnf, ofClauses given s = .ok cnf ∧ cnf.vars.names.Nodup ∧
      cnf.vars.size = max s.varCount (namedCount given) ∧
      cnf.clauses.length = s.clauses.length ∧
      ∀ limit, 1 ≤ limit → ∃ base, cnf.baseFormula limit = .ok base ∧
        List.Forall₂ ClauseSet.Restates base.formulas s.clauses := by
  let chosen := chooseNames given (max s.varCount (namedCount given))
  let vs : Variables := ⟨chosen.map Prod.fst⟩
  have hsize : vs.size = max s.varCount (namedCount given) := by
    rw [Variables.size, List.length_map, length_chooseNames]
  have hrange : ∀ c ∈ s.clauses, c.InRange vs.size := by
    intro c hc l hl
    rw [hsize]
    exact (hs c hc l hl).trans_le (Nat.le_max_left ..)
  obtain ⟨fs, hfs, hlength, hforms⟩ := clauseFormulas_faithful (nodup_chooseNames _ _) hrange
  refine ⟨⟨vs, chosen.map Prod.snd, Constraint.stateAll 0 fs⟩, bind_eq_ok.2 ⟨fs, hfs, rfl⟩,
    nodup_chooseNames _ _, hsize, by simp [hlength], ?_⟩
  intro limit hlimit
  obtain ⟨sets, hsets, hevals⟩ := hforms 0 limit hlimit
  exact ⟨_, BaseFormula.build_eq_ok.2 ⟨sets, hsets, rfl⟩, hevals⟩

end NamedCnf

/-! ## Questions about the input -/

/-- What a solution says of clauses over the first variables: it gives a literal for each variable,
among which there is one of every clause, or there is nothing to give. -/
def Solver.Solution.Answers (varCount : Nat) (clauses : List Clause) : Solution → Prop
  | .sat a => a.size = varCount ∧ ∀ c ∈ clauses, ∃ l ∈ c, l ∈ a.lits
  | .unsat => ∀ v, ∃ c ∈ clauses, c.eval v = false
  | .unknown => False

/-- The values that some variables have where clauses are true. -/
def Clause.Restrictions (clauses : List Clause) (vars : List Nat) : Set (List Bool) :=
  {values | ∃ v, (∀ c ∈ clauses, c.eval v = true) ∧ values = vars.map v}

namespace Solver

variable {ω : Type} {s : Solver ω} {good : ω → Prop} {clauses : List Clause}

/-- A base that says by number what some clauses say has the models that these clauses have. -/
theorem models_iff_of_restates (hbase : s.base.Built)
    (h : List.Forall₂ ClauseSet.Restates s.base.formulas clauses) (v : Nat → Bool) :
    s.Models [] v ↔ ∀ c ∈ clauses, c.eval v = true := by
  have hready : s.Ready [] := ⟨hbase, ConstraintStack.translated_nil⟩
  rw [hready.models_iff, hready.told_eq, ConstraintStack.formulas, List.map_nil, List.append_nil,
    ClauseSet.eval_iff_of_restates h]

/-- A solution over restated clauses answers the question about the clauses. -/
theorem solve_of_restates (hb : s.backend.Correct good) (hbase : s.base.Built)
    (h : List.Forall₂ ClauseSet.Restates s.base.formulas clauses)
    (hclauses : ∀ c ∈ clauses, c.InRange s.base.varCount) {w : ω} (hw : good w) :
    ∃ answer st, s.solve (s.start w) = .ok answer st ∧
      answer.Answers s.base.varCount clauses := by
  have hready : s.Ready (s.start w).stack := ⟨hbase, ConstraintStack.translated_nil⟩
  obtain ⟨answer, st, hrun, htells, -⟩ := (solve_yields hb hready hw).exists_ok
  refine ⟨answer, st, hrun, ?_⟩
  cases answer with
  | sat a =>
    obtain ⟨hmodels, hsize⟩ := htells
    refine ⟨hsize, ?_⟩
    intro c hc
    have heval := (models_iff_of_restates hbase h _).1 hmodels c hc
    obtain ⟨l, hl, htrue⟩ := List.any_eq_true.1 heval
    exact ⟨l, hl, Assignment.mem_lits.2 ⟨hsize ▸ hclauses c hc l hl, htrue⟩⟩
  | unsat =>
    intro v
    have hfalse := (not_congr (models_iff_of_restates hbase h v)).1 (htells v)
    simpa using hfalse
  | unknown => exact htells

/-- A count over restated clauses is the number of restrictions that their models have, up to the
limit. -/
theorem count_of_restates (hb : s.backend.Correct good) (hbase : s.base.Built)
    (h : List.Forall₂ ClauseSet.Restates s.base.formulas clauses)
    {monitor : Monitor ω} (hmonitor : monitor.NeverCancels good) {vars : List Nat}
    (hvars : ∀ i ∈ vars, i < s.base.varCount) (most : Nat) {w : ω} (hw : good w) :
    ∃ st, s.count vars most monitor (s.start w) =
      .ok (if (Clause.Restrictions clauses vars).ncard < most
        then .exact (Clause.Restrictions clauses vars).ncard else .atLeast most) st := by
  have hsame : s.Restrictions [] vars = Clause.Restrictions clauses vars := by
    simp only [Restrictions, Clause.Restrictions, models_iff_of_restates hbase h]
  have hready : s.Ready (s.start w).stack := ⟨hbase, ConstraintStack.translated_nil⟩
  obtain ⟨c, st, hrun, hc, -⟩ :=
    (count_yields hb hmonitor.trusted hvars most hready hw).exists_ok
  exact ⟨st, by rw [hrun, hc.eq, show (s.start w).stack = [] from rfl, hsame]⟩

end Solver

namespace NamedCnf

/-- A text is read back from its bytes. -/
theorem fromUTF8?_toUTF8 (text : String) : String.fromUTF8? text.toUTF8 = some text :=
  dif_pos text.isValidUTF8

/-- Bytes from which a text is read are those of the text. -/
theorem toUTF8_of_fromUTF8? {bytes : ByteArray} {text : String}
    (h : String.fromUTF8? bytes = some text) : text.toUTF8 = bytes := by
  unfold String.fromUTF8? at h
  split at h <;> cases h
  rfl

/-- A text is read with the clauses that the parser finds in it and the names that its comments
give. -/
theorem ofBytes?_toUTF8 {ε : Type} {parse : ClauseParser ε} {text : String} {s : ClauseSet}
    {cnf : NamedCnf} (hs : parse text.toUTF8.data.toList = .ok s)
    (hcnf : ofClauses (givenNames text.toList) s = .ok cnf) :
    ofBytes? parse text.toUTF8 = .ok cnf := by
  rw [ofBytes?, fromUTF8?_toUTF8]
  dsimp only
  rw [ofText?, hs]
  dsimp only
  rw [hcnf]

/-- **An input is asked about itself.**  Take a parser that counts the variables of its clauses, and
any text whose clauses it can read, whatever the comments say.  It is read successfully.  There are
as many variables as the clauses, the header and the names need, and each has a name that no other
one has.  Every clause has its constraint, in order.

Within every limit these have a base, whose formulas say by number what the clauses say.  So with
every correct backend a solution lists a literal of each clause if there is one, and a count counts
the values of the variables that take part in configurations in the models of the clauses. -/
theorem ofBytes?_faithful {ε : Type} {parse : ClauseParser ε} (hparse : parse.Counts)
    {bytes : ByteArray} {text : String} (htext : String.fromUTF8? bytes = some text) {s : ClauseSet}
    (hs : parse bytes.data.toList = .ok s) :
    ∃ cnf, ofBytes? parse bytes = .ok cnf ∧
      cnf.vars.size = max s.varCount (namedCount (givenNames text.toList)) ∧
      (∀ i < cnf.vars.size, ∃ name, cnf.vars.name? i = some name ∧
        ∀ j, cnf.vars.name? j = some name → j = i) ∧
      cnf.clauses.length = s.clauses.length ∧
      ∀ limit, 1 ≤ limit → ∃ base, cnf.baseFormula limit = .ok base ∧
        base.constraints = cnf.clauses ∧ base.varCount = cnf.vars.size ∧
        List.Forall₂ ClauseSet.Restates base.formulas s.clauses ∧
        ∀ {ω : Type} {backend : Backend ω} {good : ω → Prop} {w : ω},
          backend.Correct good → good w →
          (∃ answer st, Solver.solve ⟨backend, base⟩ (Solver.start ⟨backend, base⟩ w) =
              .ok answer st ∧ answer.Answers cnf.vars.size s.clauses) ∧
          ∀ {monitor : Monitor ω}, monitor.NeverCancels good → ∀ most, ∃ st,
            Solver.count ⟨backend, base⟩ cnf.concreteVars most monitor
                (Solver.start ⟨backend, base⟩ w) =
              .ok (if (Clause.Restrictions s.clauses cnf.concreteVars).ncard < most
                then .exact (Clause.Restrictions s.clauses cnf.concreteVars).ncard
                else .atLeast most) st := by
  obtain rfl := toUTF8_of_fromUTF8? htext
  have hrange : s.InRange s.varCount := hparse hs
  obtain ⟨cnf, hcnf, hnodup, hsize, hlength, hbases⟩ :=
    ofClauses_faithful (givenNames text.toList) hrange
  refine ⟨cnf, ofBytes?_toUTF8 hs hcnf, hsize, ?_, hlength, ?_⟩
  · intro i hi
    have hname : cnf.vars.name? i = some cnf.vars.names[i] := List.getElem?_eq_getElem hi
    exact ⟨_, hname, fun j hj => Variables.eq_of_name? hnodup hj hname⟩
  · intro limit hlimit
    obtain ⟨base, hbase, hevals⟩ := hbases limit hlimit
    have hbuilt : base.Built := BaseFormula.built_of_build hnodup hbase
    obtain ⟨hvars, hconstraints⟩ : base.vars = cnf.vars ∧ base.constraints = cnf.clauses := by
      obtain ⟨sets, -, rfl⟩ := BaseFormula.build_eq_ok.1 hbase
      exact ⟨rfl, rfl⟩
    have hvarCount : base.varCount = cnf.vars.size := by rw [BaseFormula.varCount, hvars]
    refine ⟨base, hbase, hconstraints, hvarCount, hevals, ?_⟩
    intro ω backend good w hb hw
    refine ⟨?_, ?_⟩
    · rw [← hvarCount]
      refine Solver.solve_of_restates hb hbuilt hevals ?_ hw
      intro c hc l hl
      rw [hvarCount, hsize]
      exact (hrange c hc l hl).trans_le (Nat.le_max_left ..)
    · intro monitor hmonitor most
      refine Solver.count_of_restates hb hbuilt hevals hmonitor ?_ most hw
      intro i hi
      rw [hvarCount]
      exact List.mem_range.1 (List.mem_filter.1 hi).1

/-- The parser that can read one text only, and knows its clauses. -/
def onlyText (known : String) (s : ClauseSet) : ClauseParser Unit := fun bytes =>
  if bytes = known.toUTF8.data.toList then .ok s else .error ()

/-- The parser of one text accepts that text. -/
theorem onlyText_known (known : String) (s : ClauseSet) :
    onlyText known s known.toUTF8.data.toList = .ok s := if_pos rfl

/-- It counts the variables of its clauses if these are in range. -/
theorem onlyText_counts {known : String} {s : ClauseSet} (hs : s.InRange s.varCount) :
    (onlyText known s).Counts := by
  intro bytes s' h
  rw [onlyText] at h
  split at h <;> cases h
  exact hs

/-- An input whose comments call the first two variables by names that the third one would have, and
name a variable that is in no clause. -/
def clashing : String := "c 1 3\nc 2 _3\nc 3 3\nc 5 x\np cnf 3 2\n1 -2 0\n2 3 0\n"

/-- What is read of it: the third variable is called by its number behind two underscores. -/
def clashingRead : NamedCnf where
  vars := ⟨["3", "_3", "__3", "4", "x"]⟩
  named := [true, true, false, false, true]
  clauses := [⟨0, .or [.var "3", .not (.var "_3")]⟩, ⟨1, .or [.var "_3", .var "__3"]⟩]

/-- The base of its constraints, none of which needs more than one clause. -/
def clashingBase : BaseFormula where
  vars := clashingRead.vars
  constraints := clashingRead.clauses
  formulas := [⟨5, [[⟨0, true⟩, ⟨1, false⟩]]⟩, ⟨5, [[⟨1, true⟩, ⟨2, true⟩]]⟩]
  clauseLimit := 1
  propagated := ⟨#[none, none, none, none, none], false⟩

/-- The base says what the clauses of the input say, a solution satisfies these, and a count is one
of the values of the three variables whose names are given. -/
theorem ofBytes?_faithful_clashing :
    let clauses : List Clause := [[⟨0, true⟩, ⟨1, false⟩], [⟨1, true⟩, ⟨2, true⟩]]
    let parse := onlyText clashing ⟨3, clauses⟩
    let s : Solver Unit := ⟨.exhaustive, clashingBase⟩
    ofBytes? parse clashing.toUTF8 = .ok clashingRead ∧
    clashingRead.baseFormula 1 = .ok clashingBase ∧
    List.Forall₂ ClauseSet.Restates clashingBase.formulas clauses ∧
    (∃ answer st, s.solve (s.start ()) = .ok answer st ∧ answer.Answers 5 clauses) ∧
    clashingRead.concreteVars = [0, 1, 4] ∧ (Clause.Restrictions clauses [0, 1, 4]).ncard = 6 := by
  intro clauses parse s
  have hcounts : parse.Counts := by
    have hneeded : ∀ c ∈ clauses, c.varCount ≤ 3 := by decide
    exact onlyText_counts fun c hc => Clause.inRange_iff.2 (hneeded c hc)
  have hparse : parse clashing.toUTF8.data.toList = .ok ⟨3, clauses⟩ := onlyText_known ..
  have hread : ofBytes? parse clashing.toUTF8 = .ok clashingRead :=
    ofBytes?_toUTF8 hparse (by cbv)
  have hbuilt : clashingRead.baseFormula 1 = .ok clashingBase := by cbv
  have hcounted : s.count [0, 1, 4] 7 Monitor.never (s.start ()) = .ok (.exact 6) ⟨[], 2, ()⟩ := by
    cbv
  obtain ⟨cnf, hcnf, -, -, -, hbases⟩ := ofBytes?_faithful hcounts (fromUTF8?_toUTF8 _) hparse
  obtain rfl : clashingRead = cnf := Except.ok.inj (hread.symm.trans hcnf)
  obtain ⟨base, hbase, -, -, hevals, hrun⟩ := hbases 1 (Nat.le_refl 1)
  obtain rfl : clashingBase = base := Except.ok.inj (hbuilt.symm.trans hbase)
  obtain ⟨hsolve, hcount⟩ := hrun (w := ()) Backend.exhaustive_correct trivial
  obtain ⟨st, hcount⟩ := @hcount Monitor.never (fun _ _ => ⟨rfl, trivial⟩) 7
  refine ⟨hread, hbuilt, hevals, hsolve, by decide, ?_⟩
  have heq := (EStateM.Result.ok.inj (hcounted.symm.trans hcount)).1
  split at heq
  · exact (Count.exact.inj heq).symm
  · cases heq

end NamedCnf

end ProductLine

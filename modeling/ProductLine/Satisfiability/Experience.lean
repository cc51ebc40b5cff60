import ProductLine.Satisfiability.Learner.Round
/-!
# Searches with experience

A search for a model proceeds in rounds.  A new round begins with the clauses that were learned and
with the preferences, but without choices.  When too many clauses have been learned, the longer half
of them is forgotten.

The experience of a search is of use in the next one if the clauses are the same and perhaps some
more.  Under other assumptions only those learned clauses are kept that do not use an assumption
which is made no more.

* `Experience.search` is a whole search;
* `Memory` keeps the experience of one search, and `Memory.resume` makes use of it in another.
-/
namespace ProductLine

/-! ## Experience -/

/-- What is kept of the searches for models of the given clauses. -/
structure Experience (given : List Clause) where
  varCount : Nat
  /-- The assumptions of the last search. -/
  assumptions : List LitCode
  /-- A learner at level zero. -/
  learner : Learner given

namespace Experience

variable {given : List Clause}

/-- How many contradictions there are in a round. -/
def roundLength : Nat := 100

/-- How many learned clauses are kept in a round. -/
def capacity (round : Nat) : Nat := 500 + 10 * round

/-- The clauses that are kept for a round: all of them, or the shorter ones if there are too
many. -/
def select (round : Nat) (cs : List (Consequence given)) : List (Consequence given) :=
  if cs.length ≤ capacity round then cs
  else
    ((cs.map (fun c => (c.lits.length, c))).mergeSort (fun a b => a.1 ≤ b.1)
      |>.take (capacity round / 2)).map Prod.snd

/-- A learner at the beginning of a round, with some learned clauses. -/
def beginRound (varCount : Nat) (assumptions : List LitCode) (learned : List (Consequence given))
    (preferences : Preferences) : Learner given :=
  let s : Learner given := .start given varCount preferences
  let s := (assumptions.map .assumed).foldl (Learner.insert false) s
  let s := (given.attach.map (fun c => .ofMem c.1 c.2)).foldl (Learner.insert false) s
  learned.foldl (Learner.insert true) s

/-- The experience with given clauses before the first search, which is made under the
assumptions. -/
def start (given : List Clause) (varCount : Nat) (assumptions : List LitCode) : Experience given :=
  ⟨varCount, assumptions, beginRound varCount assumptions [] (.start varCount given)⟩

/-- The experience at the beginning of a round, with some of the learned clauses. -/
def restart (round : Nat) (e : Experience given) (learned : List (Consequence given)) :
    Experience given :=
  { e with
    learner :=
      beginRound e.varCount e.assumptions (select round learned) e.learner.preferences }

/-- Searches in at most as many more rounds as given. -/
def searchFor : (rounds round : Nat) → Experience given → Finding given × Experience given
  | 0, _, e => (.nothing, e)
  | rounds + 1, round, ⟨varCount, assumptions, s⟩ =>
      let (found, s) := s.explore roundLength
      let e : Experience given := ⟨varCount, assumptions, s.backTo 0⟩
      match found with
      | .nothing => searchFor rounds (round + 1) (e.restart (round + 1) e.learner.learned)
      | _ => (found, e)

/-- Searches for a model. -/
def search (e : Experience given) : Finding given × Experience given :=
  searchFor 1000000 0
    (if e.learner.lessons.length ≤ capacity 0 then e else e.restart 0 e.learner.learned)

/-- The experience when more clauses are given. -/
def extend {more : List Clause} (h : given ⊆ more) (e : Experience given)
    (new : List (Consequence more)) : Experience more where
  varCount := e.varCount
  assumptions := e.assumptions
  learner := new.foldl (Learner.insert false) (e.learner.weaken h)

/-- The experience under other assumptions. -/
def assume (e : Experience given) (assumptions : List LitCode) : Experience given :=
  if e.assumptions = assumptions then e
  else
    let allowed := LitSet.ofList assumptions
    let learned := e.learner.contradiction.toList ++ e.learner.learned
    { e with assumptions := assumptions }.restart 0
      (learned.filter (·.uses.isSubset allowed))

end Experience

/-! ## Memory -/

/-- The experience of the last search. -/
structure Memory where
  given : List Clause
  experience : Experience given

namespace Memory

/-- No experience. -/
def empty : Memory := ⟨[], .start [] 0 []⟩

/-- Whether a list of clauses starts with others. -/
def startsWith : List Clause → List Clause → Bool
  | _, [] => true
  | [], _ :: _ => false
  | c :: cs, d :: ds =>
      withPtrEq c d (fun _ => decide (c = d)) (by simp) && startsWith cs ds

theorem subset_of_startsWith {cs ds : List Clause} (h : startsWith cs ds) : ds ⊆ cs := by
  induction cs generalizing ds with
  | nil => cases ds <;> simp_all [startsWith]
  | cons c cs ih =>
      cases ds with
      | nil => simp
      | cons d ds =>
          simp only [startsWith, withPtrEq, Bool.and_eq_true, decide_eq_true_eq] at h
          obtain ⟨rfl, h⟩ := h
          exact List.cons_subset_cons _ (ih h)

/-- The experience with which a search begins.  That of the last search is used if only more clauses
have been added, and there are no more variables. -/
def resume (m : Memory) (given : List Clause) (assumptions : List Lit) : Experience given :=
  let codes := assumptions.map Lit.code
  let new := given.attach.drop m.given.length
  let varCount := max (Clause.varCountOf (new.map Subtype.val)) (Clause.varCount assumptions)
  if h : varCount ≤ m.experience.varCount ∧ startsWith given m.given then
    (m.experience.extend (subset_of_startsWith h.2)
      (new.map (fun c => .ofMem c.1 c.2))).assume codes
  else .start given (max (Clause.varCountOf given) (Clause.varCount assumptions)) codes

end Memory

end ProductLine

import ProductLine.Satisfiability.Derivation
import ProductLine.Satisfiability.Search
/-!
# Deciding clauses under assumptions

An engine decides whether clauses have a model in which some assumed literals are true.  It
answers with a model, or with assumptions that fail together.  What it remembers of one question
may help it with the next.

* `Engine.search` is an engine of our own, which searches for a model;
* `Engine.blame` chooses the assumptions that it blames.
-/
namespace ProductLine

/-- Something that decides clauses under assumptions. -/
structure Engine (μ : Type) where
  /-- What it remembers before the first question. -/
  fresh : μ
  decide : μ → (clauses : List Clause) → (assumptions : List Lit) → Outcome × μ

namespace Engine

/-- Assumptions that fail together with the clauses, when those of a list do.  Those are blamed that
a derivation finds, if they do fail. -/
def blame (m : Memory) (cs : List Clause) (ls failed : List Lit) : List Lit × Memory :=
  match Derivation.blame? ls (cs.length + ls.length) cs with
  | none => (failed, m)
  | some derived =>
      match m.decide cs derived with
      | (.sat _, m) => (failed, m)
      | (.unsat _, m) => (derived, m)

/-- The engine that searches for a model. -/
def search : Engine Memory where
  fresh := .empty
  decide m clauses assumptions :=
    match m.decide clauses assumptions with
    | (.sat model, m) => (.sat model, m)
    | (.unsat failed, m) =>
        let (failed, m) := blame m clauses assumptions failed
        (.unsat failed, m)

end Engine

end ProductLine

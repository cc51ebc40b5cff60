import ProductLine.Dimacs
import ProductLine.NamedCnf
import ProductLine.Options.Toml
import ProductLine.Solver
/-!
# Reports

What the tool prints: lines, and the exit code that goes with them.  A failure is reported at the
end, after what was printed before.
-/
namespace ProductLine

/-- Why the tool fails. -/
inductive ToolError where
  /-- A file cannot be read. -/
  | unreadable (reason : String)
  /-- Settings are not a document that the tool can read. -/
  | malformedSettings
  /-- A setting is refused, in a document that names the place. -/
  | setting (cause : SettingError) (position : Text.Position)
  | input (cause : NamedCnf.ReadError Dimacs.ParseError)
  | solutions (cause : Dimacs.ParseError)
  /-- A candidate implication has no colon. -/
  | malformedPair (text : String)
  | clauseForm (cause : ClauseFormError)
  | analysis (cause : AnalysisError)
deriving DecidableEq, Repr

/-- The wording of a failure. -/
def ToolError.message : ToolError → String
  | unreadable reason => reason
  | malformedSettings => "Malformed settings"
  | setting cause position => cause.message ++ " at " ++ position.text
  | input cause => cause.message Dimacs.ParseError.message
  | solutions cause => cause.message
  | malformedPair text => "Expected a pair FORCING:FORCED, got '" ++ text ++ "'"
  | clauseForm cause => cause.message
  | analysis cause => cause.message

/-- What the tool prints and how it exits. -/
structure Report where
  exitCode : Nat
  lines : List String
deriving DecidableEq, Repr

namespace Report

/-- The report of a success that has no exit code of its own. -/
def success (lines : List String) : Report := ⟨0, lines⟩

/-- The report of a failure after some lines were printed.  What is quoted from the input may break
the line. -/
def failure (printed : List String) (cause : ToolError) : Report :=
  ⟨1, printed ++ Text.splitLines ("c ERROR: " ++ cause.message)⟩

/-- The report of a result that may be a failure. -/
def ofResult : Except ToolError Report → Report
  | .ok report => report
  | .error cause => failure [] cause

end Report

end ProductLine

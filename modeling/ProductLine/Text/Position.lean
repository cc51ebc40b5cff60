/-!
# Places in texts

A place in a text is told by its line and its column, both counted from one.  A column is counted
in bytes.
-/
namespace ProductLine.Text

/-- A place in a text. -/
structure Position where
  line : Nat := 1
  column : Nat := 1
deriving DecidableEq, Repr, Inhabited

namespace Position

/-- The place behind some characters. -/
def after (cs : List Char) : Position where
  line := 1 + cs.count '\n'
  column := (cs.reverse.takeWhile (· ≠ '\n')).foldl (fun n c => n + c.utf8Size) 1

/-- The wording of a place. -/
def text (p : Position) : String :=
  "line " ++ toString p.line ++ " column " ++ toString p.column

end Position

end ProductLine.Text

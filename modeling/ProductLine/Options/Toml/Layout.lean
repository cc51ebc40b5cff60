/-!
# Layout of TOML documents

A document is a sequence of lines.  Between the parts of a line there may be gaps, and a comment
after them.

* `endLine?` and `skipLines?` read up to the next part behind the end of a line;
* `skipMark?` reads a mark with gaps around it, and `readWord?` reads a word.
-/
namespace ProductLine.Toml

/-- Writes every line break as a single line feed. -/
def foldBreaks : List Char → List Char
  | '\r' :: '\n' :: cs => '\n' :: foldBreaks cs
  | c :: cs => c :: foldBreaks cs
  | [] => []

/-- The text without a byte order mark. -/
def dropMark : List Char → List Char
  | '\uFEFF' :: cs => cs
  | cs => cs

/-- Whether a character may stand between the parts of a line. -/
def isGap (c : Char) : Bool := c == ' ' || c == '\t'

/-- The text without gaps at its start. -/
def skipGaps (cs : List Char) : List Char := cs.dropWhile isGap

/-- Whether a character may be part of a word: a name without quotes, or a value other than a
string. -/
def isWordChar (c : Char) : Bool := c.isAlphanum || c == '-' || c == '_'

/-- What follows the line, of which only a comment may be left. -/
def endLine? (cs : List Char) : Option (List Char) :=
  match skipGaps cs with
  | [] => some []
  | '\n' :: rest => some rest
  | '#' :: comment =>
      match comment.dropWhile (fun c => c == '\t' || decide (' ' ≤ c)) with
      | [] => some []
      | '\n' :: rest => some rest
      | _ => none
  | _ => none

/-- What follows blank lines and comments, if there are any. -/
def skipLines? : (most : Nat) → List Char → Option (List Char)
  | 0, _ => none
  | most + 1, cs =>
      match skipGaps cs with
      | '\n' :: rest => skipLines? most rest
      | '#' :: rest => (endLine? ('#' :: rest)).bind (skipLines? most)
      | cs => some cs

/-- What follows a mark, with gaps around it. -/
def skipMark? (mark : Char) (cs : List Char) : Option (List Char) :=
  match skipGaps cs with
  | c :: rest => if c = mark then some (skipGaps rest) else none
  | [] => none

/-- Splits a word off; `none` if there is none. -/
def readWord? (cs : List Char) : Option (List Char × List Char) :=
  let word := cs.takeWhile isWordChar
  if word.isEmpty then none else some (word, cs.dropWhile isWordChar)

end ProductLine.Toml

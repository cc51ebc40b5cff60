/-!
# Blanks and words

The blank characters are those with the property White_Space in the Unicode character database.
A text is a sequence of words, which have no blanks, with blanks between them.

* `words` splits a text at its blanks;
* `trim` takes the blanks off both ends of a text;
* `lines` splits a text at its line feeds, and `splitLines` at its line breaks.
-/
namespace ProductLine.Text

/-- The characters with the property White_Space, as ranges of code points. -/
def blankRanges : List (Nat × Nat) := [
  (0x09, 0x0D), (0x20, 0x20), (0x85, 0x85), (0xA0, 0xA0), (0x1680, 0x1680), (0x2000, 0x200A),
  (0x2028, 0x2029), (0x202F, 0x202F), (0x205F, 0x205F), (0x3000, 0x3000)]

/-- Whether a character has the property White_Space. -/
def isBlank (c : Char) : Bool :=
  blankRanges.any (fun (first, last) => decide (first ≤ c.toNat ∧ c.toNat ≤ last))

/-- The words of a text, in order. -/
def words : List Char → List (List Char)
  | [] => []
  | c :: cs =>
      if isBlank c then words cs
      else
        match cs with
        | [] => [[c]]
        | d :: _ =>
            if isBlank d then [c] :: words cs
            else
              match words cs with
              | [] => [[c]]
              | w :: ws => (c :: w) :: ws

/-- The text without the blanks at its start. -/
def trimStart (cs : List Char) : List Char := cs.dropWhile isBlank

/-- The text without the blanks at its ends. -/
def trim (cs : List Char) : List Char := (trimStart (trimStart cs).reverse).reverse

/-- The lines of a text.  What follows the last line feed is a line of its own. -/
def lines : List Char → List (List Char)
  | [] => [[]]
  | c :: cs =>
      if c = '\n' then [] :: lines cs
      else
        match lines cs with
        | [] => [[c]]
        | l :: ls => (c :: l) :: ls

/-- The text without a carriage return at its end. -/
def dropReturn (cs : List Char) : List Char := if cs.getLast? = some '\r' then cs.dropLast else cs

/-- The lines of a text, where a carriage return before a line feed is part of the break. -/
def splitLines (text : String) : List String :=
  (lines text.toList).map (fun line => String.ofList (dropReturn line))

end ProductLine.Text

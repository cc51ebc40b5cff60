import ProductLine.Options.Toml.Layout
import ProductLine.Options.Toml.Number
/-!
# Strings in TOML documents

A string stands between quotes.  Between double quotes a backslash says that the next character
stands for another one; between single quotes all characters stand for themselves.  A string with
three quotes at both ends may go over several lines.

* `readQuoted?` reads a string, and `readName?` reads a name, which needs no quotes if it is a
  word.
-/
namespace ProductLine.Toml

/-! ## Characters -/

/-- Whether a character may stand in a string as it is. -/
def isPrintable (c : Char) : Bool := c == '\t' || (decide (' ' ≤ c) && c != '\x7F')

/-- The character with a code point in hexadecimal. -/
def readCodePoint? (digits : List Char) : Option Char := do
  if digits.contains '_' then none
  let n ← readDigits? 16 0 false digits
  if n.isValidChar then some (Char.ofNat n) else none

/-- The character that a letter stands for after a backslash. -/
def escaped? : Char → Option Char
  | '"' => some '"'
  | '\\' => some '\\'
  | 'b' => some '\x08'
  | 'f' => some '\x0C'
  | 'n' => some '\n'
  | 'r' => some '\r'
  | 't' => some '\t'
  | _ => none

/-- How a string is written. -/
structure StringStyle where
  quote : Char
  /-- Whether line breaks may stand in the string, which then ends at three quotes. -/
  multiline : Bool
deriving DecidableEq, Repr

/-- Whether a backslash at the end of a line is at work: it takes the line break away, and the
gaps around it. -/
inductive Fold where
  | none
  | beforeBreak
  | afterBreak
deriving DecidableEq, Repr

/-- Splits off the quotes that belong to a string although they follow three quotes at its end; at
most two may do so. -/
def splitQuotes (quote : Char) (cs : List Char) : List Char × List Char :=
  let quotes := (cs.take 2).takeWhile (· = quote)
  (quotes, cs.drop quotes.length)

/-- Reads a string up to its end.  Gives its characters and what follows it. -/
def readString? (style : StringStyle) (fold : Fold) :
    List Char → Option (List Char × List Char)
  | [] => none
  | c :: cs =>
      if fold ≠ .none ∧ isGap c then readString? style fold cs
      else if fold ≠ .none ∧ c = '\n' then readString? style .afterBreak cs
      else if fold = .beforeBreak then none
      else if c = style.quote then
        -- In a string of several lines, fewer than three quotes are characters of it.
        if style.multiline then
          match cs with
          | a :: b :: rest =>
              if a = c ∧ b = c then some (splitQuotes c rest)
              else (readString? style .none (a :: b :: rest)).map (fun (s, r) => (c :: s, r))
          | _ => none
        else some ([], cs)
      else if c = '\n' ∧ ¬ style.multiline then none
      else if c = '\\' ∧ style.quote = '"' then
        match cs with
        | 'u' :: d1 :: d2 :: d3 :: d4 :: rest => do
            let e ← readCodePoint? [d1, d2, d3, d4]
            let (s, r) ← readString? style .none rest
            return (e :: s, r)
        | 'U' :: d1 :: d2 :: d3 :: d4 :: d5 :: d6 :: d7 :: d8 :: rest => do
            let e ← readCodePoint? [d1, d2, d3, d4, d5, d6, d7, d8]
            let (s, r) ← readString? style .none rest
            return (e :: s, r)
        | e :: rest =>
            if style.multiline ∧ isGap e then readString? style .beforeBreak rest
            else if style.multiline ∧ e = '\n' then readString? style .afterBreak rest
            else do
              let e ← escaped? e
              let (s, r) ← readString? style .none rest
              return (e :: s, r)
        | [] => none
      else if c = '\n' ∨ isPrintable c then
        (readString? style .none cs).map (fun (s, r) => (c :: s, r))
      else none

/-- Reads a string from its quotes on; `none` if there is no quote, or no string after it. -/
def readQuoted? (allowMultiline : Bool) (cs : List Char) : Option (List Char × List Char) :=
  match cs with
  | q :: a :: b :: rest =>
      if q ≠ '"' ∧ q ≠ '\'' then none
      else if a = q ∧ b = q then
        if !allowMultiline then none
        else
          match rest with
          | '\n' :: rest => readString? ⟨q, true⟩ .none rest
          | rest => readString? ⟨q, true⟩ .none rest
      else readString? ⟨q, false⟩ .none (a :: b :: rest)
  | q :: rest =>
      if q ≠ '"' ∧ q ≠ '\'' then none else readString? ⟨q, false⟩ .none rest
  | [] => none

/-! ## Names -/

/-- Reads a name. -/
def readName? (cs : List Char) : Option (String × List Char) :=
  ((readWord? cs).or (readQuoted? false cs)).map (fun (name, rest) => (String.ofList name, rest))

end ProductLine.Toml

import ProductLine.Options.Settings
import ProductLine.Options.Toml.Value
/-!
# Settings as TOML documents

A document has a setting on each line: a name, an equals sign and a value.  A choice is a table with
a single entry, an empty table.  Below the header of a table, the lines are entries of that table.

No option takes a table with a header, but if the header is all there is in the document, it is a
choice of what it names last, for the option that it names first.

* `readLines?` reads the lines of a document, and `tables?` puts them together;
* `Document.ofText?` reads a document.
-/
namespace ProductLine.Toml

/-! ## Lines -/

/-- A line of a document, if it is not blank. -/
inductive Line where
  | entry (path : List String) (value : Value)
  /-- The header of a table, by its place and by what it names first and last. -/
  | header (position : Text.Position) (first last : String)
deriving Repr

/-- Reads a header from behind its opening bracket on.  The header of a table in an array has a
second pair of brackets. -/
def readHeader? (position : Text.Position) (cs : List Char) : Option (Line × List Char) := do
  let (inArray, cs) := match cs with
    | '[' :: cs => (true, cs)
    | cs => (false, cs)
  let (path, rest) ← readPath? (cs.length + 1) (skipGaps cs)
  let line := .header position (path.headD "") (path.getLastD "")
  match inArray, rest with
  | true, ']' :: ']' :: rest | false, ']' :: rest => return (line, rest)
  | _, _ => none

/-- Reads at most as many lines as given, up to the end of the document.  The whole document tells
where they are. -/
def readLines? (document : List Char) : (most : Nat) → List Char → Option (List Line)
  | 0, _ => none
  | most + 1, cs =>
      match skipGaps cs with
      | [] => some []
      | '\n' :: rest => readLines? document most rest
      | '#' :: rest => (endLine? ('#' :: rest)).bind (readLines? document most)
      | '[' :: rest => do
          -- The place of a header is that of its opening bracket.
          let read := document.take (document.length - (rest.length + 1))
          let (line, rest) ← readHeader? (.after read) rest
          let lines ← readLines? document most (← endLine? rest)
          return line :: lines
      | cs => do
          let (path, rest) ← readPath? (cs.length + 1) cs
          let rest ← skipMark? '=' rest
          let (value, rest) ← readValue? (2 * rest.length + 2) rest
          let lines ← readLines? document most (← endLine? rest)
          return .entry path value :: lines

/-! ## Tables -/

/-- A table with a header, or the part of a document before all headers. -/
structure Table where
  position : Text.Position
  /-- What the header names first and last. -/
  first : String
  last : String
  entries : List (String × Value)
deriving Repr

/-- The part of a document before all headers, when nothing has been read of it. -/
def Table.root : Table := ⟨⟨1, 1⟩, "", "", []⟩

/-- The tables that some lines make, of which the first has been begun already. -/
def tables? (t : Table) : List Line → Option (List Table)
  | [] => some [t]
  | .entry path value :: lines => do
      tables? { t with entries := ← insertAt? value path t.entries } lines
  | .header position first last :: lines =>
      (tables? ⟨position, first, last, []⟩ lines).map (t :: ·)

/-! ## Settings -/

/-- What a value says as the value of a setting. -/
def Value.setting : Value → SettingValue
  | integer n => .integer n
  | boolean b => .boolean b
  | text s => .text s
  | table [(name, table [])] => .choice name
  | table [(name, _)] => .detailedChoice name
  | table _ | implied _ | other => .other

/-- The setting that a table with a header is if there is nothing else in its document. -/
def Table.setting (t : Table) : Setting :=
  (t.first, if t.entries.isEmpty then .choice t.last else .detailedChoice t.last)

/-- The settings of some entries. -/
def settingsOf (entries : List (String × Value)) : List Setting :=
  entries.map (fun (name, value) => (name, value.setting))

/-- A document with settings. -/
structure Document where
  settings : List Setting
  /-- Where a setting is said to be that is refused: at the last header, or at the start. -/
  position : Text.Position
deriving Repr

namespace Document

/-- The document that some tables make, after the part before all headers. -/
def ofTables (root : Table) : List Table → Document
  | [] => ⟨settingsOf root.entries, root.position⟩
  | [t] =>
      if root.entries.isEmpty then ⟨[t.setting], t.position⟩
      else ⟨settingsOf root.entries ++ [(t.first, .other)], t.position⟩
  | t :: ts =>
      ⟨settingsOf root.entries ++ [(t.first, .other)], (ts.getLastD t).position⟩

/-- Reads a document.  Every line but the last ends with a character of its own, so there is at most
one more line than there are characters. -/
def ofText? (text : String) : Option Document := do
  let document := foldBreaks text.toList
  let lines ← readLines? document (document.length + 1) (dropMark document)
  match ← tables? .root lines with
  | [] => none
  | root :: tables => return ofTables root tables

end Document

end ProductLine.Toml

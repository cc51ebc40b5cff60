import ProductLine.Options.Toml.Quoted
/-!
# Values in TOML documents

A value is a scalar, or it is made of other values: an array or a table.  The entries of a table
have paths of names.  All but the last name of a path are those of tables within the table, which
arise from their entries.

* `insertAt?` adds an entry to a table;
* `readPath?` reads a path, and `readValue?` a value.
-/
namespace ProductLine.Toml

/-- A value in a document. -/
inductive Value where
  | integer (value : Int)
  | boolean (value : Bool)
  | text (value : String)
  /-- A table between braces. -/
  | table (entries : List (String × Value))
  /-- A table that arises from the paths of its entries. -/
  | implied (entries : List (String × Value))
  /-- A fraction, a date or an array. -/
  | other
deriving Repr, Inhabited

/-! ## Entries -/

/-- Changes the first entry with a name. -/
def setFirst (name : String) (value : Value) :
    List (String × Value) → List (String × Value)
  | [] => []
  | e :: es => if e.1 = name then (name, value) :: es else e :: setFirst name value es

/-- Adds an entry with a path.  There may be several entries with the same name, but an entry that
is not an implied table has no entries of its own. -/
def insertAt? (value : Value) :
    (path : List String) → List (String × Value) → Option (List (String × Value))
  | [], _ => none
  | [name], es => some (es ++ [(name, value)])
  | name :: path, es =>
      match es.lookup name with
      | none => (insertAt? value path []).map (fun inner => es ++ [(name, .implied inner)])
      | some (.implied inner) =>
          (insertAt? value path inner).map (fun inner => setFirst name (.implied inner) es)
      -- A scalar, and a table between braces, has no further entries.
      | some _ => none

/-- Reads a path of at most as many names as given, with periods between them. -/
def readPath? : (most : Nat) → List Char → Option (List String × List Char)
  | 0, _ => none
  | most + 1, cs => do
      let (name, rest) ← readName? cs
      match skipMark? '.' rest with
      | some rest => (readPath? most rest).map (fun (path, rest) => (name :: path, rest))
      | none => some ([name], skipGaps rest)

/-! ## Scalars -/

/-- Reads a number that starts with a word. -/
def readNumber? (word cs : List Char) : Option (Value × List Char) :=
  if hasBase word then (readInteger? word).map (fun n => (.integer n, cs))
  else if word.contains 'e' || word.contains 'E' || cs.head? == some '.' then
    (skipFraction? word cs).map (fun rest => (.other, rest))
  else
    match word with
    | ['i', 'n', 'f'] | ['-', 'i', 'n', 'f'] | ['n', 'a', 'n'] | ['-', 'n', 'a', 'n'] =>
        some (.other, cs)
    | word => (readInteger? word).map (fun n => (.integer n, cs))

/-- Reads a number or a date that starts with a word. -/
def readNumberOrDate? (word cs : List Char) : Option (Value × List Char) :=
  if isDate word || cs.head? == some ':' then
    (skipTime? cs).map (fun rest => (.other, rest))
  else readNumber? word cs

/-- Whether a number may start with a word: it starts with a digit or a minus sign, or names an
infinite number or none. -/
def mayBeNumber : List Char → Bool
  | ['i', 'n', 'f'] | ['n', 'a', 'n'] => true
  | c :: _ => c == '-' || decide (digitValue c < 10)
  | [] => false

/-- Reads a value that is not made of other values. -/
def readScalar? (cs : List Char) : Option (Value × List Char) :=
  match cs with
  | '+' :: cs => do
      let (word, rest) ← readWord? cs
      readNumber? word rest
  | cs =>
      match readWord? cs with
      | some (['t', 'r', 'u', 'e'], rest) => some (.boolean true, rest)
      | some (['f', 'a', 'l', 's', 'e'], rest) => some (.boolean false, rest)
      | some (word, rest) => if mayBeNumber word then readNumberOrDate? word rest else none
      | none => (readQuoted? true cs).map (fun (s, rest) => (.text (String.ofList s), rest))

/-! ## All values -/

mutual

/-- Reads a value, in at most as many steps as given. -/
def readValue? : (steps : Nat) → List Char → Option (Value × List Char)
  | 0, _ => none
  | steps + 1, cs =>
      match cs with
      | '[' :: cs => (skipElements? steps cs).map (fun rest => (.other, rest))
      | '{' :: cs =>
          match skipGaps cs with
          | '}' :: rest => some (.table [], rest)
          | cs => (readEntries? steps [] cs).map (fun (es, rest) => (.table es, rest))
      | cs => readScalar? cs

/-- What follows the elements of an array and its closing bracket. -/
def skipElements? : (steps : Nat) → List Char → Option (List Char)
  | 0, _ => none
  | steps + 1, cs => do
      match ← skipLines? (steps + 1) cs with
      | ']' :: rest => some rest
      | cs =>
          let (_, rest) ← readValue? steps cs
          match ← skipLines? (steps + 1) rest with
          | ',' :: rest => skipElements? steps rest
          | ']' :: rest => some rest
          | _ => none

/-- Reads more entries of a table, up to its closing brace. -/
def readEntries? : (steps : Nat) → List (String × Value) → List Char →
    Option (List (String × Value) × List Char)
  | 0, _, _ => none
  | steps + 1, es, cs => do
      let (path, rest) ← readPath? (steps + 1) cs
      let (value, rest) ← readValue? steps (← skipMark? '=' rest)
      let es ← insertAt? value path es
      match skipGaps rest with
      | '}' :: rest => some (es, rest)
      | ',' :: rest => readEntries? steps es (skipGaps rest)
      | _ => none

end

end ProductLine.Toml

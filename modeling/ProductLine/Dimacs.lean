import ProductLine.Clause
import ProductLine.Text.Blank
import ProductLine.Text.Natural
import ProductLine.Text.Utf8
/-!
# Reading clauses in DIMACS syntax

A clause is written as the signed numbers of its literals with a zero at the end.  Numbers stand
apart by blanks and line breaks.  A line that starts with `c` is a comment, and one line that
starts with `p` may announce the numbers of variables and clauses.

The reader takes one byte at a time.

* `Reader.step` takes a byte and `Reader.finish` the end of the input;
* `parse` reads a whole input.
-/
namespace ProductLine.Dimacs

/-! ## Causes of failure -/

/-- Why an input cannot be read. -/
inductive ParseError where
  /-- There is a byte where it has no meaning. -/
  | unexpectedByte (line : Nat) (byte : UInt8)
  /-- A number is greater than every variable; it starts with these digits, followed by one. -/
  | literalTooLarge (line : Nat) (digits digit : Nat)
  | invalidHeader (line : Nat) (header : String)
  /-- The input ends within a clause. -/
  | unterminatedClause (line : Nat)
  | variableCount (actual announced : Nat)
  | clauseCount (actual announced : Nat)
deriving DecidableEq, Repr

/-- The wording of a cause that has a place in the input. -/
def located (line : Nat) (cause : String) : String :=
  "line " ++ toString line ++ ": " ++ cause

/-- The wording of a count that the header contradicts. -/
def miscount (what : String) (actual announced : Nat) : String :=
  "Formula has " ++ toString actual ++ " " ++ what ++ " while the header specifies " ++
    toString announced ++ " " ++ what

/-- The wording of a failure to read an input.  A byte is shown as the character with its number. -/
def ParseError.message : ParseError → String
  | unexpectedByte line byte =>
      located line ("Unexpected character in DIMACS CNF input: '" ++
        String.singleton (Char.ofNat byte.toNat) ++ "'")
  | literalTooLarge line digits digit =>
      located line ("Literal index is too large: " ++ toString digits ++ toString digit ++ "...")
  | invalidHeader line header => located line ("Invalid header syntax: " ++ header)
  | unterminatedClause line => located line "Unterminated clause"
  | variableCount actual announced => miscount "variables" actual announced
  | clauseCount actual announced => miscount "clauses" actual announced

/-! ## Headers -/

/-- The greatest number that a variable may have. -/
def maxVariable : Nat := 268435456

/-- The numbers that a header announces. -/
structure Header where
  varCount : Nat
  clauseCount : Nat
deriving DecidableEq, Repr

/-- Reads a header line, from its `p` on. -/
def Header.parse (line : Nat) (bytes : List UInt8) : Except ParseError Header :=
  let text := Text.decode bytes
  let invalid : ParseError := .invalidHeader line (String.ofList text)
  match text with
  | 'p' :: ' ' :: rest =>
      match Text.words rest with
      | ['c', 'n', 'f'] :: vars :: counts =>
          match Text.natural? vars with
          | none => .error invalid
          | some varCount =>
              -- This is reported even if the rest of the header is wrong as well.
              if maxVariable < varCount then
                .error (.literalTooLarge line (varCount / 10) (varCount % 10))
              else
                match counts with
                | [clauses] =>
                    match Text.natural? clauses with
                    | none => .error invalid
                    | some clauseCount => .ok ⟨varCount, clauseCount⟩
                | _ => .error invalid
      | _ => .error invalid
  | _ => .error invalid

/-! ## Reading -/

/-- What the line that is being read is. -/
inductive LineKind where
  /-- It may hold literals. -/
  | literals
  | comment
  /-- It holds the header, of which these bytes were read, last first. -/
  | header (bytes : List UInt8)
deriving DecidableEq, Repr

/-- What was read of an input. -/
structure Reader where
  /-- The number of the line. -/
  line : Nat := 1
  kind : LineKind := .literals
  /-- Whether nothing of the line was read. -/
  atStart : Bool := true
  /-- Whether a minus sign was read of a literal. -/
  minus : Bool := false
  /-- The number that was read of a literal, once there is a digit. -/
  number : Option Nat := none
  /-- The literals of the clause that is being read, last first. -/
  clause : List Lit := []
  /-- The clauses that were read, last first. -/
  clauses : List Clause := []
  /-- The number of variables of the header and of the clauses that were read. -/
  varCount : Nat := 0
  header : Option Header := none
deriving DecidableEq, Repr

namespace Reader

/-- A literal is complete.  Zero ends the clause. -/
def endLiteral (r : Reader) : Reader :=
  match r.number with
  | none => { r with minus := false }
  | some 0 =>
      let clause := r.clause.reverse
      { r with
        minus := false
        number := none
        clause := []
        clauses := clause :: r.clauses
        varCount := max r.varCount (Clause.varCount clause) }
  | some (n + 1) =>
      { r with minus := false, number := none, clause := ⟨n, !r.minus⟩ :: r.clause }

/-- The header line is complete. -/
def endHeader (r : Reader) (bytes : List UInt8) : Except ParseError Reader := do
  let header ← Header.parse r.line bytes.reverse
  return { r with header := some header, varCount := max r.varCount header.varCount }

/-- Takes a digit of a literal. -/
def addDigit (r : Reader) (digit : Nat) : Except ParseError Reader :=
  let digits := r.number.getD 0
  let number := 10 * digits + digit
  if maxVariable < number then .error (.literalTooLarge r.line digits digit)
  else .ok { r with number := some number, atStart := false }

/-- Takes a byte of a line that may hold literals. -/
def stepLiterals (r : Reader) (b : UInt8) : Except ParseError Reader :=
  if '0'.toUInt8 ≤ b ∧ b ≤ '9'.toUInt8 then r.addDigit (b - '0'.toUInt8).toNat
  else if b = '-'.toUInt8 ∧ ¬ r.minus ∧ r.number.isNone then
    .ok { r with minus := true, atStart := false }
  -- No blank stands between a minus sign and the digits of its number.
  else if (b = ' '.toUInt8 ∨ b = '\n'.toUInt8 ∨ b = '\r'.toUInt8) ∧
      (¬ r.minus ∨ r.number.isSome) then
    .ok { r.endLiteral with atStart := b ≠ ' '.toUInt8 }
  else if b = 'c'.toUInt8 ∧ r.atStart then .ok { r with kind := .comment }
  else if b = 'p'.toUInt8 ∧ r.atStart ∧ r.header.isNone then .ok { r with kind := .header [b] }
  else .error (.unexpectedByte r.line b)

/-- Takes a byte.  A line feed counts for the line that it starts. -/
def step (r : Reader) (b : UInt8) : Except ParseError Reader :=
  let r := if b = '\n'.toUInt8 then { r with line := r.line + 1 } else r
  let ends := b = '\n'.toUInt8 ∨ b = '\r'.toUInt8
  match r.kind with
  | .literals => r.stepLiterals b
  | .comment => .ok (if ends then { r with kind := .literals, atStart := true } else r)
  | .header bytes =>
      if ends then do
        let r ← r.endHeader bytes
        return { r with kind := .literals, atStart := true }
      else .ok { r with kind := .header (b :: bytes) }

/-- Takes bytes up to the first that has no meaning. -/
def steps (r : Reader) : List UInt8 → Except ParseError Reader
  | [] => .ok r
  | b :: bs => do
      let r ← r.step b
      steps r bs

/-- Whether the counts are as announced. -/
def checkCounts (r : Reader) : Except ParseError Unit :=
  match r.header with
  | none => .ok ()
  | some header =>
      if r.varCount ≠ header.varCount then .error (.variableCount r.varCount header.varCount)
      else if r.clauses.length ≠ header.clauseCount then
        .error (.clauseCount r.clauses.length header.clauseCount)
      else .ok ()

/-- The clauses of the whole input.  A minus sign at the very end has no meaning. -/
def finish (r : Reader) : Except ParseError ClauseSet := do
  -- The header may be the last line, without a line break.
  let r ← match r.kind with
    | .header bytes => r.endHeader bytes
    | .literals | .comment => .ok r
  let r := r.endLiteral
  if !r.clause.isEmpty then throw (.unterminatedClause r.line)
  r.checkCounts
  return ⟨r.varCount, r.clauses.reverse⟩

end Reader

/-- The clauses that an input lists, over the variables that they need and the header announces. -/
def parse (bytes : List UInt8) : Except ParseError ClauseSet := do
  let r ← Reader.steps {} bytes
  r.finish

end ProductLine.Dimacs

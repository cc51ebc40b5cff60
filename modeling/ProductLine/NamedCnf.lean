import ProductLine.BaseFormula
import ProductLine.Text.Blank
import ProductLine.Text.Natural
/-!
# Clauses over named variables

Comment lines of an input in DIMACS syntax may give names to variables: `c`, the number of the
variable, and its name.  The first name that is given to a variable counts.  A variable without a
name, or whose name is taken by an earlier variable, is called by its number; if that is taken as
well, underscores are put in front.  So all variables have different names.

The clauses themselves are read by any `ClauseParser`.

* `NamedCnf.ofText?` reads a text, and `NamedCnf.ofBytes?` bytes that should be one;
* `NamedCnf.concreteVars` lists the variables that take part in configurations;
* `NamedCnf.parseLit` and `showLit` read and write literals by name.
-/
namespace ProductLine

/-- Clauses over variables of which some got their name from the input. -/
structure NamedCnf where
  vars : Variables
  /-- For each variable whether its name was given by a comment. -/
  named : List Bool
  /-- Each clause as a disjunction of named literals. -/
  clauses : List Constraint

namespace NamedCnf

/-! ## Causes of failure -/

/-- Why an input cannot be read. -/
inductive ReadError (ε : Type) where
  /-- The bytes of the input are not UTF-8. -/
  | notText
  /-- The parser finds no clauses. -/
  | dimacs (cause : ε)
  | clauseForm (cause : ClauseFormError)
deriving DecidableEq, Repr

/-- The wording of a failure to read an input, from the wordings that the parser has for its own. -/
def ReadError.message {ε : Type} (wording : ε → String) : ReadError ε → String
  | notText => "stream did not contain valid UTF-8"
  | dimacs cause => wording cause
  | clauseForm cause => cause.message

/-! ## Names -/

/-- The variable and the name that a line gives to it, if it does. -/
def nameOfLine? (line : List Char) : Option (Nat × String) :=
  match Text.words line with
  | ['c'] :: number :: first :: rest =>
      -- Variables are numbered from one, so zero is the number of none.
      match Text.natural? number with
      | some (var + 1) => some (var, String.ofList (List.intercalate [' '] (first :: rest)))
      | some 0 | none => none
  | _ => none

/-- The names that the lines of a text give, in order. -/
def givenNames (text : List Char) : List (Nat × String) :=
  (Text.lines text).filterMap nameOfLine?

/-- The number of variables that are needed for the given names. -/
def namedCount (given : List (Nat × String)) : Nat :=
  given.foldl (fun n (var, _) => max n (var + 1)) 0

/-- Puts as many underscores in front of a name as are needed until it is not taken, but at most
`most`. -/
def unclash (taken : List String) : (most : Nat) → String → String
  | 0, name => name
  | most + 1, name => if name ∈ taken then unclash taken most ("_" ++ name) else name

/-- The name of a variable whose name is not given. -/
def numbered (taken : List String) (var : Nat) : String :=
  unclash taken taken.length (toString (var + 1))

/-- The name of a variable, and whether it is the given one. -/
def chooseName (given : List (Nat × String)) (taken : List String) (var : Nat) : String × Bool :=
  match given.lookup var with
  | some name => if name ∈ taken then (numbered taken var, false) else (name, true)
  | none => (numbered taken var, false)

/-- The names of the first variables, and whether they are given. -/
def chooseNames (given : List (Nat × String)) : (count : Nat) → List (String × Bool)
  | 0 => []
  | var + 1 =>
      let chosen := chooseNames given var
      chosen ++ [chooseName given (chosen.map Prod.fst) var]

/-! ## Clauses -/

/-- The formulas of some literals. -/
def litFormulas (vs : Variables) : List Lit → Except ClauseFormError (List Formula)
  | [] => .ok []
  | l :: ls => do
      let f ← vs.literalFormula l
      let fs ← litFormulas vs ls
      return f :: fs

/-- The disjunctions of some clauses. -/
def clauseFormulas (vs : Variables) : List Clause → Except ClauseFormError (List Formula)
  | [] => .ok []
  | c :: cs => do
      let lits ← litFormulas vs c
      let fs ← clauseFormulas vs cs
      return .or lits :: fs

/-! ## Reading -/

/-- Names the variables of some clauses. -/
def ofClauses (given : List (Nat × String)) (s : ClauseSet) :
    Except ClauseFormError NamedCnf := do
  -- Comments may name variables that no clause has.
  let chosen := chooseNames given (max s.varCount (namedCount given))
  let vs : Variables := ⟨chosen.map Prod.fst⟩
  let formulas ← clauseFormulas vs s.clauses
  return ⟨vs, chosen.map Prod.snd, Constraint.stateAll 0 formulas⟩

/-- Reads a text in DIMACS syntax with names in its comments. -/
def ofText? {ε : Type} (parse : ClauseParser ε) (text : String) : Except (ReadError ε) NamedCnf :=
  match parse text.toUTF8.data.toList with
  | .error cause => .error (.dimacs cause)
  | .ok s =>
      match ofClauses (givenNames text.toList) s with
      | .error cause => .error (.clauseForm cause)
      | .ok cnf => .ok cnf

/-- Reads bytes that should be the UTF-8 form of a text. -/
def ofBytes? {ε : Type} (parse : ClauseParser ε) (bytes : ByteArray) :
    Except (ReadError ε) NamedCnf :=
  match String.fromUTF8? bytes with
  | some text => ofText? parse text
  | none => .error .notText

/-! ## Use -/

/-- The clauses as the base of queries. -/
def baseFormula (cnf : NamedCnf) (limit : Nat) : Except ClauseFormError BaseFormula :=
  BaseFormula.build cnf.vars limit cnf.clauses

/-- Whether a variable takes part in configurations: if it is named, or if none is. -/
def isConcrete (cnf : NamedCnf) (var : Nat) : Bool :=
  cnf.named[var]?.any (fun isNamed => isNamed || !cnf.named.contains true)

/-- The name of a variable that takes part in configurations. -/
def concreteName? (cnf : NamedCnf) (var : Nat) : Option String :=
  if cnf.isConcrete var then cnf.vars.name? var else none

/-- The variables that take part in configurations. -/
def concreteVars (cnf : NamedCnf) : List Nat :=
  (List.range cnf.vars.size).filter cnf.isConcrete

/-- Splits the sign off a literal that is given as text: a minus or an exclamation mark negates. -/
def splitSign : List Char → Bool × List Char
  | '-' :: rest => (false, rest)
  | '!' :: rest => (false, rest)
  | rest => (true, rest)

/-- Reads a literal whose variable is given by its name or else by its number. -/
def parseLit (cnf : NamedCnf) (text : String) : Except ClauseFormError Lit :=
  let (positive, rest) := splitSign (Text.trim text.toList)
  match cnf.vars.find? (String.ofList rest) with
  | some var => .ok ⟨var, positive⟩
  | none =>
      -- A number counts only if no variable is called so.
      match Text.natural? rest with
      | some (var + 1) =>
          if var < cnf.vars.size then .ok ⟨var, positive⟩
          else .error (.unknownVariable (String.ofList rest))
      | some 0 | none => .error (.unknownVariable (String.ofList rest))

/-- A literal by the name of its variable, or as a signed number if that has none. -/
def showLit (cnf : NamedCnf) (l : Lit) : String :=
  match cnf.vars.literalFormula l with
  | .ok f => f.text
  | .error _ => l.text

end NamedCnf

end ProductLine

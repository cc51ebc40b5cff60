import ProductLine.Options.Toml.Layout
/-!
# Numbers and dates in TOML documents

Numbers are written in decimal, with single underscores between digits, or as integers in another
base.  No option takes a fraction or a date, so of these it is only read what follows them.

* `readInteger?` reads an integer;
* `skipFraction?` and `skipTime?` read fractions and times.
-/
namespace ProductLine.Toml

/-! ## Digits -/

/-- The value of a digit, where letters go on after nine. -/
def digitValue (c : Char) : Nat :=
  if '0' ≤ c ∧ c ≤ '9' then c.toNat - '0'.toNat
  else if 'a' ≤ c ∧ c ≤ 'f' then c.toNat - 'a'.toNat + 10
  else if 'A' ≤ c ∧ c ≤ 'F' then c.toNat - 'A'.toNat + 10
  else 16

/-- The number that digits stand for after the digits of `value`.  Single underscores may stand
between digits; `afterDigit` says whether the last character was a digit. -/
def readDigits? (base value : Nat) (afterDigit : Bool) : List Char → Option Nat
  | [] => if afterDigit then some value else none
  | c :: cs =>
      if c = '_' then if afterDigit then readDigits? base value false cs else none
      else if digitValue c < base then readDigits? base (base * value + digitValue c) true cs
      else none

/-- A decimal number, which does not start with zero unless it is zero. -/
def readDecimal? : List Char → Option Nat
  | '0' :: _ :: _ => none
  | cs => readDigits? 10 0 false cs

/-! ## Integers -/

/-- An integer in decimal, or without a sign in another base that is named in front.  It must fit
into a signed machine word. -/
def readInteger? (word : List Char) : Option Int :=
  let value : Option Int :=
    match word with
    | '0' :: 'x' :: digits => (readDigits? 16 0 false digits).map Int.ofNat
    | '0' :: 'o' :: digits => (readDigits? 8 0 false digits).map Int.ofNat
    | '0' :: 'b' :: digits => (readDigits? 2 0 false digits).map Int.ofNat
    | '-' :: digits => (readDecimal? digits).map (fun n => -(n : Int))
    | digits => (readDecimal? digits).map Int.ofNat
  value.filter (fun n => decide (-9223372036854775808 ≤ n ∧ n < 9223372036854775808))

/-- Whether a word names the base of the integer that it is. -/
def hasBase : List Char → Bool
  | '0' :: c :: _ => c == 'x' || c == 'o' || c == 'b'
  | _ => false

/-! ## Fractions -/

/-- Whether a number is small enough for a fraction of 64 bits, which is below the middle between
the largest one and the next power of two.  The number has some digits, of which a power of ten is
taken. -/
def isFinite (digits : Nat) (exponent : Int) : Bool :=
  let magnitude := (Nat.toDigits 10 digits).length + exponent
  let bound := 1 <<< 1024 - 1 <<< 970
  if digits = 0 ∨ magnitude < 200 then true
  else if 400 < magnitude then false
  else decide (digits * Nat.pow 10 exponent.toNat < bound * Nat.pow 10 (-exponent).toNat)

/-- Splits a run of decimal digits and underscores off. -/
def splitRun (cs : List Char) : List Char × List Char :=
  cs.span (fun c => c == '_' || decide (digitValue c < 10))

/-- The number that all of a word stands for. -/
def readRun? (word : List Char) : Option Nat := readDigits? 10 0 false word

/-- Reads the exponent from the letter in front of it on, which may be the end of its word, the rest
being in the next word after a plus sign.  There may be none. -/
def readExponent? : (suffix : List Char) → List Char → Option (Int × List Char)
  | [], cs => some (0, cs)
  | c :: digits, cs =>
      if c = 'e' ∨ c = 'E' then
        match digits, cs with
        | [], '+' :: cs => do
            let (word, rest) ← readWord? cs
            return ((← readRun? word : Nat), rest)
        | '-' :: digits, cs => (readRun? digits).map (fun n => (-(n : Int), cs))
        | digits, cs => (readRun? digits).map (fun n => ((n : Int), cs))
      else none

/-- What follows a fraction that starts with a word. -/
def skipFraction? (word : List Char) (cs : List Char) : Option (List Char) := do
  let (run, suffix) := splitRun (match word with
    | '-' :: digits => digits
    | digits => digits)
  let whole ← readDecimal? run
  match suffix, cs with
  | [], '.' :: cs => do
      let (word, rest) ← readWord? cs
      let (run, suffix) := splitRun word
      let digits ← readDigits? 10 whole false run
      let (exponent, rest) ← readExponent? suffix rest
      -- Every digit behind the point makes the exponent smaller by one.
      if isFinite digits (exponent - run.countP (· ≠ '_')) then some rest else none
  | suffix, cs => do
      let (exponent, rest) ← readExponent? suffix cs
      if isFinite whole exponent then some rest else none

/-! ## Dates -/

/-- Whether a word has a negative exponent. -/
def hasNegativeExponent : List Char → Bool
  | 'e' :: '-' :: _ | 'E' :: '-' :: _ => true
  | _ :: cs => hasNegativeExponent cs
  | [] => false

/-- Whether a word is a date, perhaps with an hour. -/
def isDate (word : List Char) : Bool :=
  word.contains 'T' || word.contains 't' ||
    ((word.drop 1).contains '-' && !hasNegativeExponent word)

/-- What follows a word after a mark, if the text starts with the mark. -/
def skipMarked? (mark : Char) : List Char → Option (List Char)
  | [] => some []
  | c :: cs => if c = mark then (readWord? cs).map Prod.snd else some (c :: cs)

/-- What follows a word after a single blank, if there is one. -/
def skipHour : List Char → List Char
  | ' ' :: cs => (readWord? cs).elim (' ' :: cs) Prod.snd
  | cs => cs

/-- What follows minutes, seconds, and perhaps a fraction and an offset. -/
def skipMinutes? (cs : List Char) : Option (List Char) := do
  let (_, cs) ← readWord? cs
  match cs with
  | ':' :: cs => do
      let (_, cs) ← readWord? cs
      skipMarked? ':' (← skipMarked? '+' (← skipMarked? '.' cs))
  | _ => none

/-- What follows a date, or an hour with a colon. -/
def skipTime? (cs : List Char) : Option (List Char) :=
  match cs with
  | ':' :: cs => skipMinutes? (skipHour cs)
  | cs =>
      match skipHour cs with
      | ':' :: cs => skipMinutes? cs
      | cs => some cs

end ProductLine.Toml

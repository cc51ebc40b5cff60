/-!
# Natural numbers in decimal

A number is written with the digits of ASCII and perhaps a plus sign in front.  Leading zeros do
not matter, but the number must fit into a machine word of 64 bits.
-/
namespace ProductLine.Text

/-- Numbers from this one on do not fit into a machine word. -/
def wordBound : Nat := 18446744073709551616

/-- The value of a digit of ASCII. -/
def digit? (c : Char) : Option Nat :=
  if '0' ≤ c ∧ c ≤ '9' then some (c.toNat - '0'.toNat) else none

/-- The number that some digits stand for after the digits of `value`; `none` if a character is
not a digit. -/
def digitsValue? (value : Nat) : List Char → Option Nat
  | [] => some value
  | c :: cs => (digit? c).bind (fun d => digitsValue? (10 * value + d) cs)

/-- The text without a plus sign in front. -/
def dropPlus : List Char → List Char
  | '+' :: cs => cs
  | cs => cs

/-- The number that a text stands for, if it fits into a machine word. -/
def natural? (cs : List Char) : Option Nat :=
  match dropPlus cs with
  | [] => none
  | c :: digits => (digitsValue? 0 (c :: digits)).filter (· < wordBound)

end ProductLine.Text

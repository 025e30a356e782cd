/-
Decimal numerals. A numeral is one or more of the ten ASCII digits, with an
optional plus or minus sign in front when it stands for a signed word. A numeral
that does not fit the word is no numeral of that word.
-/

namespace JavaMinus.Text

/-- The value of an ASCII digit. -/
def digit? (char : Char) : Option Nat :=
  if '0' ≤ char ∧ char ≤ '9' then some (char.toNat - '0'.toNat) else none

/-- Read digits onto a number that was read so far. -/
def readDigits (value : Nat) : List Char → Option Nat
  | [] => some value
  | char :: rest => (digit? char).bind fun digit => readDigits (10 * value + digit) rest

/-- The number a text of one or more digits stands for. -/
def nat? : List Char → Option Nat
  | [] => none
  | text => readDigits 0 text

/-- The integer a text of digits behind an optional sign stands for. -/
def int? : List Char → Option Int
  | '-' :: rest => (nat? rest).map fun value => -value
  | '+' :: rest => (nat? rest).map fun value => value
  | text => (nat? text).map fun value => value

/-- The 32-bit word that a text stands for, if it is a numeral in the range of the word. -/
def int32? (text : String) : Option Int32 :=
  (int? text.toList).bind fun value =>
    if Int32.minValue.toInt ≤ value ∧ value ≤ Int32.maxValue.toInt then some (Int32.ofInt value)
    else none

end JavaMinus.Text

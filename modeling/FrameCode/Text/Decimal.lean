/-! Decimal numbers: ASCII digits, an optional sign for signed words, and no value
outside the range of its type. -/

namespace FrameCode.Text.Decimal

/-- A nonempty run of ASCII digits, of any length. -/
def natural? (cs : List Char) : Option Nat :=
  if cs ≠ [] ∧ cs.all Char.isDigit then some (Nat.ofDigitChars 10 cs 0) else none

/-- A number from 1 to 2^64 - 1, without a sign. -/
def order? (cs : List Char) : Option Nat :=
  (natural? cs).filter fun n => 1 ≤ n && n < UInt64.size

/-- Digits after an optional sign. -/
def integer? : List Char → Option Int
  | '-' :: cs => (natural? cs).map fun n => -(n : Int)
  | '+' :: cs => (natural? cs).map fun n => (n : Int)
  | cs => (natural? cs).map fun n => (n : Int)

/-- A signed 64-bit integer. -/
def word? (cs : List Char) : Option Int64 :=
  (integer? cs).bind fun n =>
    if Int64.minValue.toInt ≤ n ∧ n ≤ Int64.maxValue.toInt then some (Int64.ofInt n) else none

def ofNat (n : Nat) : String := String.ofList (Nat.toDigits 10 n)

/-- A minus sign for negative numbers, then the digits without leading zeros. -/
def ofWord (n : Int64) : String :=
  if n < 0 then "-" ++ ofNat n.toInt.natAbs else ofNat n.toInt.natAbs

/-- The number with blanks before it up to the given width. -/
def padded (width n : Nat) : String :=
  let digits := Nat.toDigits 10 n
  String.ofList (List.replicate (width - digits.length) ' ' ++ digits)

end FrameCode.Text.Decimal

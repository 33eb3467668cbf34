/-! Escapes in string operands: a backslash and the three decimal digits of a code
point stand for that character. -/

namespace FrameCode.Text.Escape

/-- Characters that a source line cannot hold as they are, and the backslash. -/
def isSpecial (c : Char) : Bool := c.toNat ≤ 32 || c == '#' || c == '\\'

/-- A backslash and the code point in three digits. -/
def code (c : Char) : List Char :=
  let n := c.toNat
  ['\\', Nat.digitChar (n / 100), Nat.digitChar (n / 10 % 10), Nat.digitChar (n % 10)]

def encode (cs : List Char) : List Char :=
  cs.flatMap fun c => if isSpecial c then code c else [c]

/-- Reads each backslash that three digits follow as one character, from left to
right. Every other backslash stands for itself. -/
def decode : List Char → List Char
  | '\\' :: a :: b :: c :: rest =>
    if a.isDigit && b.isDigit && c.isDigit then
      Char.ofNat (Nat.ofDigitChars 10 [a, b, c] 0) :: decode rest
    else '\\' :: decode (a :: b :: c :: rest)
  | c :: rest => c :: decode rest
  | [] => []

def encodeText (text : String) : String := String.ofList (encode text.toList)

def decodeText (text : String) : String := String.ofList (decode text.toList)

end FrameCode.Text.Escape

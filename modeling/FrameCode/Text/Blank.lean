/-! Blank characters, trimming and cutting. Three sets of blanks are in use:
those between the words of a source line, those around an operand's text, and
the White_Space property for opcode names and lines that are read. -/

namespace FrameCode.Text

/-- What parts the words of a source line. The vertical tab is no such blank. -/
def isWordBlank (c : Char) : Bool :=
  c == ' ' || c == '\t' || c == '\n' || c == '\x0c' || c == '\r'

/-- What may surround an operand's text: word blanks, NUL and the vertical tab. -/
def isPadding (c : Char) : Bool :=
  isWordBlank c || c == '\x00' || c == '\x0b'

/-- The Unicode property White_Space, as ranges of code points. -/
def whiteSpace : List (Nat × Nat) :=
  [(0x09, 0x0D), (0x20, 0x20), (0x85, 0x85), (0xA0, 0xA0), (0x1680, 0x1680), (0x2000, 0x200A),
    (0x2028, 0x2029), (0x202F, 0x202F), (0x205F, 0x205F), (0x3000, 0x3000)]

def isWhiteSpace (c : Char) : Bool :=
  whiteSpace.any fun (lo, hi) => lo ≤ c.toNat && c.toNat ≤ hi

/-- Drops the characters of a set from both ends. -/
def trim (set : Char → Bool) (cs : List Char) : List Char :=
  ((cs.dropWhile set).reverse.dropWhile set).reverse

/-- What stands before and after the first `sep`, if there is one. -/
def cut? (sep : Char) : List Char → Option (List Char × List Char)
  | [] => none
  | c :: rest =>
    if c = sep then some ([], rest)
    else (cut? sep rest).map fun (before, after) => (c :: before, after)

/-- Equality up to the case of ASCII letters. -/
def sameLetters (a b : String) : Bool :=
  a.toList.map Char.toLower == b.toList.map Char.toLower

end FrameCode.Text

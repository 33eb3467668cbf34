/-! Reading bytes as UTF-8. Bytes that are no encoding are replaced: each maximal
run that begins an encoding but does not finish it, and each byte that begins
none, gives one U+FFFD. -/

namespace FrameCode.Text.Utf8

def replacement : Char := Char.ofNat 0xFFFD

def isContinuation (b : UInt8) : Bool := 0x80 ≤ b && b ≤ 0xBF

/-- The second bytes that may follow the lead `a` of three bytes: no overlong
form and no surrogate. -/
def second3 (a b : UInt8) : Bool :=
  if a = 0xE0 then 0xA0 ≤ b && b ≤ 0xBF
  else if a = 0xED then 0x80 ≤ b && b ≤ 0x9F
  else isContinuation b

/-- The second bytes that may follow the lead `a` of four bytes: no overlong form
and nothing above U+10FFFF. -/
def second4 (a b : UInt8) : Bool :=
  if a = 0xF0 then 0x90 ≤ b && b ≤ 0xBF
  else if a = 0xF4 then 0x80 ≤ b && b ≤ 0x8F
  else isContinuation b

/-- The six payload bits of a continuation byte. -/
def payload (b : UInt8) : Nat := b.toNat % 64

def char2 (a b : UInt8) : Char := Char.ofNat (a.toNat % 32 * 64 + payload b)

def char3 (a b c : UInt8) : Char := Char.ofNat (a.toNat % 16 * 4096 + payload b * 64 + payload c)

def char4 (a b c d : UInt8) : Char :=
  Char.ofNat (a.toNat % 8 * 262144 + payload b * 4096 + payload c * 64 + payload d)

/-- Reads bytes to their end, replacing what is no encoding. -/
def decode : List UInt8 → List Char
  | [] => []
  | a :: rest =>
    if a < 0x80 then Char.ofNat a.toNat :: decode rest
    else if 0xC2 ≤ a && a ≤ 0xDF then
      match rest with
      | [] => [replacement]
      | b :: rest =>
        if isContinuation b then char2 a b :: decode rest
        else replacement :: decode (b :: rest)
    else if 0xE0 ≤ a && a ≤ 0xEF then
      match rest with
      | [] => [replacement]
      | b :: rest =>
        if second3 a b then
          match rest with
          | [] => [replacement]
          | c :: rest =>
            if isContinuation c then char3 a b c :: decode rest
            else replacement :: decode (c :: rest)
        else replacement :: decode (b :: rest)
    else if 0xF0 ≤ a && a ≤ 0xF4 then
      match rest with
      | [] => [replacement]
      | b :: rest =>
        if second4 a b then
          match rest with
          | [] => [replacement]
          | c :: rest =>
            if isContinuation c then
              match rest with
              | [] => [replacement]
              | d :: rest =>
                if isContinuation d then char4 a b c d :: decode rest
                else replacement :: decode (d :: rest)
            else replacement :: decode (c :: rest)
        else replacement :: decode (b :: rest)
    else replacement :: decode rest

end FrameCode.Text.Utf8

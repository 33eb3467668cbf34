import FrameCode.Value
import FrameCode.Text.Blank

/-! Operations on values and the faults they can end in. An operand form and a
stack form of one opcode share its operator. -/

namespace FrameCode

/-- Why an operation rejects its values. -/
inductive Fault where
  | wrongType (expected found : TypeTag)
  | incompatibleTypes (left right : TypeTag)
  | emptyReplacement
  | divisionByZero
  | invalidExitCode (code : Int64)
  | indexOutOfRange (index : Int64) (length : Nat)
  | invalidCharCode (code : Int64)
deriving DecidableEq, Repr

namespace Value

def expectInt : Value → Except Fault Int64
  | int n => .ok n
  | v => .error (.wrongType .int v.type)

def expectBool : Value → Except Fault Bool
  | bool b => .ok b
  | v => .error (.wrongType .bool v.type)

def expectStr : Value → Except Fault String
  | str s => .ok s
  | v => .error (.wrongType .string v.type)

/-- The character at an index that counts from zero. -/
def charAt (s : String) (index : Int64) : Except Fault Char :=
  match if index < 0 then none else s.toList[index.toNatClampNeg]? with
  | some c => .ok c
  | none => .error (.indexOutOfRange index s.length)

def concat (left right : Value) : Except Fault Value := do
  let a ← left.expectStr
  let b ← right.expectStr
  return str (a ++ b)

def strlen (v : Value) : Except Fault Value := do
  let s ← v.expectStr
  return int (Int64.ofNat s.length)

def getChar (string index : Value) : Except Fault Value := do
  let s ← string.expectStr
  let i ← index.expectInt
  let c ← charAt s i
  return str (String.ofList [c])

/-- Replaces the character at an index by the first one of `replacement`. -/
def setChar (target index replacement : Value) : Except Fault Value := do
  let s ← target.expectStr
  let i ← index.expectInt
  let _ ← charAt s i
  match (← replacement.expectStr).toList with
  | [] => .error .emptyReplacement
  | c :: _ => return str (String.ofList (s.toList.set i.toNatClampNeg c))

/-- Whether two values are equal, for a conditional jump. -/
def equals (left right : Value) : Except Fault Bool :=
  match left.looseEq? right with
  | some b => .ok b
  | none => .error (.incompatibleTypes left.type right.type)

/-- The order of two values, for a relational operation. -/
def order (left right : Value) : Except Fault Ordering :=
  match left.compare? right with
  | some o => .ok o
  | none => .error (.incompatibleTypes left.type right.type)

/-- The exit status that a value stands for: an integer from 0 to 9. -/
def exitStatus (v : Value) : Except Fault Nat := do
  let n ← v.expectInt
  if 0 ≤ n ∧ n ≤ 9 then return n.toNatClampNeg else .error (.invalidExitCode n)

/-- A line of input read as a type: `nil` where there is no line, or the line is no
text of that type. -/
def ofInput (line : Option String) (tag : TypeTag) : Value :=
  match line, tag with
  | some line, .string => str line
  | some line, .int =>
    match Text.Decimal.word? (Text.trim Text.isWhiteSpace line.toList) with
    | some n => int n
    | none => nil
  | some line, .bool =>
    let word := String.ofList (Text.trim Text.isWhiteSpace line.toList)
    if Text.sameLetters word "true" then bool true
    else if Text.sameLetters word "false" then bool false
    else nil
  | _, _ => nil

end Value

/-- Operators of one value that have a stack form. -/
inductive Unary where
  | not
  | int2Char
deriving DecidableEq, Repr

namespace Unary

def name : Unary → String
  | not => "NOT"
  | int2Char => "INT2CHAR"

def eval : Unary → Value → Except Fault Value
  | not, v => do
    let b ← v.expectBool
    return .bool !b
  | int2Char, v => do
    let n ← v.expectInt
    if 0 ≤ n ∧ n ≤ 255 then return .str (String.ofList [Char.ofNat n.toNatClampNeg])
    else .error (.invalidCharCode n)

end Unary

/-- Operators of two values that have a stack form. -/
inductive Binary where
  | add
  | sub
  | mul
  | idiv
  | lt
  | gt
  | eq
  | and
  | or
  | stri2Int
deriving DecidableEq, Repr

namespace Binary

def name : Binary → String
  | add => "ADD"
  | sub => "SUB"
  | mul => "MUL"
  | idiv => "IDIV"
  | lt => "LT"
  | gt => "GT"
  | eq => "EQ"
  | and => "AND"
  | or => "OR"
  | stri2Int => "STRI2INT"

/-- Integer operations wrap around; division truncates toward zero. -/
def arithmetic (f : Int64 → Int64 → Except Fault Int64) (left right : Value) :
    Except Fault Value := do
  let a ← left.expectInt
  let b ← right.expectInt
  return .int (← f a b)

def logical (f : Bool → Bool → Bool) (left right : Value) : Except Fault Value := do
  let a ← left.expectBool
  let b ← right.expectBool
  return .bool (f a b)

def eval : Binary → Value → Value → Except Fault Value
  | add => arithmetic fun a b => .ok (a + b)
  | sub => arithmetic fun a b => .ok (a - b)
  | mul => arithmetic fun a b => .ok (a * b)
  | idiv => arithmetic fun a b => if b = 0 then .error .divisionByZero else .ok (a / b)
  | lt => fun left right => do return .bool ((← left.order right) == .lt)
  | gt => fun left right => do return .bool ((← left.order right) == .gt)
  | eq => fun left right => do return .bool (← left.equals right)
  | and => logical Bool.and
  | or => logical Bool.or
  | stri2Int => fun string index => do
    let s ← string.expectStr
    let i ← index.expectInt
    let c ← Value.charAt s i
    return .int (Int64.ofNat c.toNat)

end Binary

end FrameCode

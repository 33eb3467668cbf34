import FrameCode.Text.Decimal

/-! Values and their types. Integers are 64-bit words; strings are ordered by code
point. -/

namespace FrameCode

inductive TypeTag where
  | int
  | bool
  | string
  | nil
deriving DecidableEq, Repr

namespace TypeTag

def all : List TypeTag := [.int, .bool, .string, .nil]

def name : TypeTag → String
  | int => "int"
  | bool => "bool"
  | string => "string"
  | nil => "nil"

/-- Names match exactly, letter case included. -/
def ofName? (name : String) : Option TypeTag := all.find? fun t => t.name == name

/-- The types that a line of input can be read as. -/
def isReadable (t : TypeTag) : Bool := t != .nil

end TypeTag

inductive Value where
  | int (n : Int64)
  | bool (b : Bool)
  | str (s : String)
  | nil
deriving DecidableEq, Repr

namespace Value

def type : Value → TypeTag
  | int _ => .int
  | bool _ => .bool
  | str _ => .string
  | nil => .nil

/-- The canonical text of a value. -/
def text : Value → String
  | int n => Text.Decimal.ofWord n
  | bool true => "true"
  | bool false => "false"
  | str s => s
  | nil => "nil"

/-- The text that writing a value gives: `nil` writes nothing. -/
def outputText : Value → String
  | nil => ""
  | v => v.text

/-- Order within one type other than `nil`. -/
def compare? : Value → Value → Option Ordering
  | int a, int b => some (compare a b)
  | bool a, bool b => some (compare a b)
  | str a, str b => some (compare a b)
  | _, _ => none

/-- Equality within one type; `nil` may be compared with everything. -/
def looseEq? (a b : Value) : Option Bool :=
  if a.type = b.type ∨ a = .nil ∨ b = .nil then some (a == b) else none

end Value

end FrameCode

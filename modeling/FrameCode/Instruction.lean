import FrameCode.Opcode
import FrameCode.Text.Escape
import FrameCode.Variable

/-! Operands and instructions, with the text that the assembler reads back. -/

namespace FrameCode

inductive Operand where
  | var (v : Variable)
  | const (value : Value)
  | label (name : String)
  | type (tag : TypeTag)
deriving DecidableEq, Repr

namespace Operand

/-- Strings are written with escapes; labels and types bare. -/
def text : Operand → String
  | var v => v.text
  | const (.str s) => "string@" ++ Text.Escape.encodeText s
  | const value => value.type.name ++ "@" ++ value.text
  | label name => name
  | type tag => tag.name

def label? : Operand → Option String
  | label name => some name
  | _ => none

end Operand

structure Instruction where
  position : Nat
  opcode : Opcode
  operands : List Operand
deriving DecidableEq, Repr

namespace Instruction

/-- The mnemonic and the operands, with one blank before each operand. -/
def text (i : Instruction) : String :=
  i.opcode.mnemonic ++ String.join (i.operands.map fun o => " " ++ o.text)

/-- Operands count from zero. -/
def operand? (i : Instruction) (index : Nat) : Option Operand := i.operands[index]?

/-- The name that a LABEL instruction defines. -/
def definedLabel? (i : Instruction) : Option String :=
  match i.opcode, i.operands with
  | .label, .label name :: _ => some name
  | _, _ => none

end Instruction

end FrameCode

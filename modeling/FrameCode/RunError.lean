import FrameCode.ErrorClass
import FrameCode.Opcode
import FrameCode.Variable

/-! Errors of a running program: the cause and the position of the instruction. -/

namespace FrameCode

inductive Cause where
  | undefinedFrame (kind : FrameKind)
  | undefinedVariable (v : Variable)
  | redefinition (v : Variable)
  | undefinedLabel (name : String)
  | unsetVariable (v : Variable)
  | emptyStack
  | emptyCallStack
  | malformedOperand (opcode : Opcode) (index : Nat)
  | rejected (opcode : Opcode) (fault : Fault)
  | host (message : String)
deriving DecidableEq, Repr

structure RunError where
  position : Nat
  cause : Cause
deriving DecidableEq, Repr

namespace Fault

def text (op : Opcode) : Fault → String
  | wrongType expected found => s!"{op.mnemonic} expects {expected.name}, found {found.name}"
  | incompatibleTypes left right =>
    s!"{op.mnemonic} cannot combine {left.name} and {right.name}"
  | emptyReplacement => "SETCHAR replacement is empty"
  | divisionByZero => "division by zero"
  | invalidExitCode code => s!"exit code {Text.Decimal.ofWord code} out of range 0..=9"
  | indexOutOfRange index length =>
    s!"index {Text.Decimal.ofWord index} out of range for string of length {length}"
  | invalidCharCode code => s!"{Text.Decimal.ofWord code} is not a valid character code"

def errorClass : Fault → ErrorClass
  | wrongType .. | incompatibleTypes .. | emptyReplacement => .operandType
  | divisionByZero | invalidExitCode _ => .operandValue
  | indexOutOfRange .. | invalidCharCode _ => .stringOperation

end Fault

namespace Cause

/-- What happened, up to the position. -/
def text : Cause → String
  | undefinedFrame kind => s!"frame {kind.mark} does not exist"
  | undefinedVariable v => s!"variable {v.text} is not defined"
  | redefinition v => s!"variable {v.text} redefined"
  | undefinedLabel name => s!"undefined label '{name}'"
  | unsetVariable v => s!"variable {v.text} has no value"
  | emptyStack => "operand stack is empty"
  | emptyCallStack => "call stack is empty"
  | malformedOperand op index => s!"malformed operand {index} for {op.mnemonic}"
  | rejected op fault => fault.text op
  | host _ => "i/o failure"

/-- What the host adds, after the position. -/
def detail : Cause → String
  | host message => ": " ++ message
  | _ => ""

def errorClass : Cause → ErrorClass
  | malformedOperand .. => .structural
  | redefinition _ | undefinedLabel _ => .semantic
  | undefinedVariable _ => .undefinedVariable
  | undefinedFrame _ => .undefinedFrame
  | unsetVariable _ | emptyStack | emptyCallStack => .missingValue
  | rejected _ fault => fault.errorClass
  | host _ => .internal

end Cause

namespace RunError

def message (e : RunError) : String :=
  e.cause.text ++ s!" at instruction {e.position}" ++ e.cause.detail

def errorClass (e : RunError) : ErrorClass := e.cause.errorClass

end RunError

end FrameCode

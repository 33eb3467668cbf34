/-! Classes of errors, with the exit code that each one gives a command. -/

namespace FrameCode

inductive ErrorClass where
  | structural
  | semantic
  | operandType
  | undefinedVariable
  | undefinedFrame
  | missingValue
  | operandValue
  | stringOperation
  | internal
deriving DecidableEq, Repr

namespace ErrorClass

def all : List ErrorClass :=
  [.structural, .semantic, .operandType, .undefinedVariable, .undefinedFrame, .missingValue,
    .operandValue, .stringOperation, .internal]

def name : ErrorClass → String
  | structural => "structural error"
  | semantic => "semantic error"
  | operandType => "operand type error"
  | undefinedVariable => "undefined variable"
  | undefinedFrame => "undefined frame"
  | missingValue => "missing value"
  | operandValue => "wrong operand value"
  | stringOperation => "string operation error"
  | internal => "internal error"

def code : ErrorClass → Nat
  | structural => 32
  | semantic => 52
  | operandType => 53
  | undefinedVariable => 54
  | undefinedFrame => 55
  | missingValue => 56
  | operandValue => 57
  | stringOperation => 58
  | internal => 99

end ErrorClass

end FrameCode

import FrameCode.Instruction
import FrameCode.Node

/-! From one node to an instruction: its opcode, its arguments in order, and each
argument read as the operand that the opcode's signature asks for. -/

namespace FrameCode

/-- Why a node is no instruction, its order aside. -/
inductive NodeFault where
  | missingOpcode
  | unknownOpcode (name : String)
  | unexpectedChild (tag : String)
  | duplicateChild (tag : String)
  | argumentGap (tag : String)
  | wrongOperandCount (opcode : Opcode) (found : Nat)
  | missingOperandKind (tag : String)
  | unknownOperandKind (kind : String)
  | operandKindMismatch (opcode : Opcode) (index : Nat) (kind : String)
  | invalidVariable (text : String)
  | invalidInt (text : String)
  | invalidBool (text : String)
  | invalidNil (text : String)
  | emptyLabel
  | invalidTypeName (text : String)
  | duplicateLabel (name : String)
deriving DecidableEq, Repr

/-- What an argument says that it is. -/
inductive OperandKind where
  | var
  | value (tag : TypeTag)
  | label
  | type
deriving DecidableEq, Repr

namespace OperandKind

def ofName? (name : String) : Option OperandKind :=
  if name = "var" then some .var
  else if name = "label" then some .label
  else if name = "type" then some .type
  else (TypeTag.ofName? name).map .value

/-- A symbol is a variable or a value. -/
def fits : OperandKind → Slot → Bool
  | var, .var | var, .symb => true
  | value _, .symb => true
  | label, .label => true
  | type, .type => true
  | _, _ => false

end OperandKind

namespace Operand

/-- Reads an operand's text, the padding around it removed. An empty integer is zero. -/
def read (kind : OperandKind) (text : List Char) : Except NodeFault Operand :=
  let word := String.ofList text
  match kind with
  | .var =>
    match Variable.ofText? word with
    | some v => .ok (.var v)
    | none => .error (.invalidVariable word)
  | .value .int =>
    if text = [] then .ok (.const (.int 0))
    else match Text.Decimal.word? text with
      | some n => .ok (.const (.int n))
      | none => .error (.invalidInt word)
  | .value .bool =>
    if word = "true" then .ok (.const (.bool true))
    else if word = "false" then .ok (.const (.bool false))
    else .error (.invalidBool word)
  | .value .string => .ok (.const (.str (Text.Escape.decodeText word)))
  | .value .nil => if word = "nil" then .ok (.const .nil) else .error (.invalidNil word)
  | .label => if text = [] then .error .emptyLabel else .ok (.label word)
  | .type =>
    match (TypeTag.ofName? word).filter TypeTag.isReadable with
    | some tag => .ok (.type tag)
    | none => .error (.invalidTypeName word)

end Operand

namespace Argument

/-- The operand that an argument gives for a slot of an opcode's signature; `index`
counts the slots from one. -/
def operand (a : Argument) (opcode : Opcode) (index : Nat) (slot : Slot) :
    Except NodeFault Operand :=
  match a.kind with
  | none => .error (.missingOperandKind a.tag)
  | some name =>
    match OperandKind.ofName? name with
    | none => .error (.unknownOperandKind name)
    | some kind =>
      if kind.fits slot then Operand.read kind (Text.trim Text.isPadding a.text.toList)
      else .error (.operandKindMismatch opcode index name)

end Argument

namespace Node

def argumentTags : List String := ["arg1", "arg2", "arg3"]

/-- Every child has an argument's tag, and no two have the same. -/
def checkTags (seen : List String) : List Argument → Except NodeFault Unit
  | [] => .ok ()
  | a :: rest =>
    if a.tag ∉ argumentTags then .error (.unexpectedChild a.tag)
    else if a.tag ∈ seen then .error (.duplicateChild a.tag)
    else checkTags (a.tag :: seen) rest

/-- The arguments in the order of their tags, with none left out. -/
def arguments (n : Node) : Except NodeFault (List Argument) := do
  checkTags [] n.children
  let named := fun tag => n.children.find? fun a => a.tag == tag
  match named "arg1", named "arg2", named "arg3" with
  | none, none, none => return []
  | some a, none, none => return [a]
  | some a, some b, none => return [a, b]
  | some a, some b, some c => return [a, b, c]
  | _, _, some _ => .error (.argumentGap "arg3")
  | _, some _, none => .error (.argumentGap "arg2")

/-- The operands for the slots of a signature, from the first to the last. -/
def operands (opcode : Opcode) (index : Nat) :
    List Slot → List Argument → Except NodeFault (List Operand)
  | slot :: slots, a :: rest => do
    let operand ← a.operand opcode index slot
    return operand :: (← operands opcode (index + 1) slots rest)
  | _, _ => .ok []

/-- Blanks around the opcode's name do not matter. -/
def opcodeOf (n : Node) : Except NodeFault Opcode :=
  match n.opcode with
  | none => .error .missingOpcode
  | some name =>
    match Opcode.ofMnemonic? (String.ofList (Text.trim Text.isWhiteSpace name.toList)) with
    | some op => .ok op
    | none => .error (.unknownOpcode name)

/-- The instruction that a node stands for, placed at `position`. -/
def decode (n : Node) (position : Nat) : Except NodeFault Instruction := do
  let opcode ← n.opcodeOf
  let arguments ← n.arguments
  if arguments.length ≠ opcode.arity then
    .error (.wrongOperandCount opcode arguments.length)
  else
    let operands ← operands opcode 1 opcode.signature arguments
    return { position, opcode, operands }

end Node

end FrameCode

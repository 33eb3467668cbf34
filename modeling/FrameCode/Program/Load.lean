import FrameCode.ErrorClass
import FrameCode.Node.Decode
import FrameCode.Program
import Std.Data.ExtTreeSet

/-! From nodes to a program. Nodes are checked as they are written down, and the
first error ends the loading. What passes is put in the order that the nodes state
and numbered from one without gaps. -/

namespace FrameCode

inductive LoadError where
  | missingOrder (index : Nat)
  | invalidOrder (text : String)
  | duplicateOrder (order : Nat)
  | node (order : Nat) (fault : NodeFault)
deriving DecidableEq, Repr

namespace NodeFault

/-- What follows the instruction's order in a message. -/
def text : NodeFault → String
  | missingOpcode => " has no opcode attribute"
  | unknownOpcode name => s!": unknown opcode '{name}'"
  | unexpectedChild tag => s!": unexpected element '{tag}'"
  | duplicateChild tag => s!": duplicate element '{tag}'"
  | argumentGap tag => s!": '{tag}' present without preceding arguments"
  | wrongOperandCount op found =>
    s!": {op.mnemonic} expects {op.arity} operand(s), found {found}"
  | missingOperandKind tag => s!": {tag} has no type attribute"
  | unknownOperandKind kind => s!": unknown operand type '{kind}'"
  | operandKindMismatch op index kind =>
    s!": {op.mnemonic} operand {index} cannot be of type '{kind}'"
  | invalidVariable text => s!": invalid variable '{text}'"
  | invalidInt text => s!": invalid integer literal '{text}'"
  | invalidBool text => s!": invalid bool literal '{text}'"
  | invalidNil text => s!": invalid nil literal '{text}'"
  | emptyLabel => ": empty label name"
  | invalidTypeName text => s!": invalid type name '{text}'"
  | duplicateLabel name => s!": label '{name}' already defined"

/-- Only a label that is defined twice is a semantic error. -/
def errorClass : NodeFault → ErrorClass
  | duplicateLabel _ => .semantic
  | _ => .structural

end NodeFault

namespace LoadError

def message : LoadError → String
  | missingOrder index => s!"instruction #{index} has no order attribute"
  | invalidOrder text => s!"invalid order attribute '{text}'"
  | duplicateOrder order => s!"duplicate order {order}"
  | node order fault => s!"instruction {order}" ++ fault.text

def errorClass : LoadError → ErrorClass
  | node _ fault => fault.errorClass
  | _ => .structural

end LoadError

/-- The instructions of the nodes checked so far, at the orders that they state, and
the labels that these define. The instructions are sorted all along; to sort them at the
end, and to look up each label's position by its order, gives the same program
(`Program.load_eq_renumbered`). -/
structure Draft where
  checked : Std.ExtTreeMap Nat Instruction := ∅
  labels : Std.ExtTreeSet String := ∅

namespace Draft

/-- The order that the next node states: a number that no node before it has. -/
def orderOf (d : Draft) (n : Node) : Except LoadError Nat :=
  match n.order with
  | none => .error (.missingOrder (d.checked.size + 1))
  | some text =>
    match Text.Decimal.order? text.toList with
    | none => .error (.invalidOrder text)
    | some order => if order ∈ d.checked then .error (.duplicateOrder order) else .ok order

/-- Enters a label; a name is defined once. -/
def define (d : Draft) (name : String) : Except NodeFault Draft :=
  if name ∈ d.labels then .error (.duplicateLabel name)
  else .ok { d with labels := d.labels.insert name }

/-- Checks one more node. -/
def add (d : Draft) (n : Node) : Except LoadError Draft := do
  let order ← d.orderOf n
  let i ← (n.decode order).mapError (.node order)
  let d ← match i.definedLabel? with
    | some name => (d.define name).mapError (.node order)
    | none => .ok d
  return { d with checked := d.checked.insert order i }

/-- The instructions in their stated order, numbered from one. -/
def instructions (d : Draft) : List Instruction :=
  d.checked.toList.zipIdx.map fun ((_, i), k) => { i with position := k + 1 }

/-- The program, with each label at the position of its instruction. -/
def program (d : Draft) : Program where
  instructions := d.instructions.toArray
  labels := d.instructions.foldl (fun t i =>
    match i.definedLabel? with
    | some name => t.insertNew name i.position
    | none => t) .empty

end Draft

namespace Program

/-- The program that nodes stand for. -/
def load (nodes : List Node) : Except LoadError Program := do
  let d ← nodes.foldlM Draft.add {}
  return d.program

end Program

end FrameCode

import FrameCode.Frame
import FrameCode.Host
import FrameCode.Program
import FrameCode.RunError
import FrameCode.Stack

/-! The state of a running program, and how it is read and written. Reading never
changes it, and a write that fails gives no new state. -/

namespace FrameCode

/-- `executed` counts the instructions that have been started. It is a number without a bound,
where a counter of 64 bits would overflow after 2 ^ 64 instructions. -/
structure Machine where
  globals : Frame := {}
  temporary : Option Frame := none
  locals : Stack Frame := []
  data : Stack Value := []
  calls : Stack Nat := []
  position : Nat := 1
  executed : Nat := 0
  host : Host := {}

namespace Machine

/-- The state in which every program starts. -/
def start (host : Host) : Machine := { host }

/-- An error at the instruction that is running. -/
def error (m : Machine) (cause : Cause) : RunError := ⟨m.position, cause⟩

/-! ## Frames and variables -/

def frame? (m : Machine) : FrameKind → Option Frame
  | .globals => some m.globals
  | .locals => m.locals.top?
  | .temporary => m.temporary

def setFrame (m : Machine) (kind : FrameKind) (f : Frame) : Machine :=
  match kind with
  | .globals => { m with globals := f }
  | .locals => { m with locals := (m.locals.setTop? f).getD m.locals }
  | .temporary => { m with temporary := some f }

def frame (m : Machine) (kind : FrameKind) : Except RunError Frame :=
  match m.frame? kind with
  | some f => .ok f
  | none => .error (m.error (.undefinedFrame kind))

/-- The cell of a variable that has been declared. -/
def cell (m : Machine) (v : Variable) : Except RunError Cell := do
  match (← m.frame v.frame).get? v.name with
  | some cell => return cell
  | none => .error (m.error (.undefinedVariable v))

/-- The value of a variable that has one. -/
def value (m : Machine) (v : Variable) : Except RunError Value := do
  match (← m.cell v).value with
  | some value => return value
  | none => .error (m.error (.unsetVariable v))

def assign (m : Machine) (v : Variable) (value : Value) : Except RunError Machine := do
  match (← m.frame v.frame).set? v.name (some value) with
  | some f => return m.setFrame v.frame f
  | none => .error (m.error (.undefinedVariable v))

def declare (m : Machine) (v : Variable) : Except RunError Machine := do
  match (← m.frame v.frame).declare? v.name with
  | some f => return m.setFrame v.frame f
  | none => .error (m.error (.redefinition v))

/-! ## Operands

An operand that is missing or of another sort than its use asks for is malformed.
The error names the position that the instruction states. -/

def malformed (i : Instruction) (index : Nat) : RunError :=
  ⟨i.position, .malformedOperand i.opcode (index + 1)⟩

def destination (i : Instruction) (index : Nat) : Except RunError Variable :=
  match i.operand? index with
  | some (.var v) => .ok v
  | _ => .error (malformed i index)

/-- The value of a symbol: a constant's own, or the one that a variable has. -/
def symbol (m : Machine) (i : Instruction) (index : Nat) : Except RunError Value :=
  match i.operand? index with
  | some (.const value) => .ok value
  | some (.var v) => m.value v
  | _ => .error (malformed i index)

/-- The position that a label stands for. -/
def target (m : Machine) (labels : LabelTable) (i : Instruction) (index : Nat) :
    Except RunError Nat :=
  match i.operand? index with
  | some (.label name) =>
    match labels.resolve? name with
    | some position => .ok position
    | none => .error (m.error (.undefinedLabel name))
  | _ => .error (malformed i index)

/-- The result of an operation on values, or its fault as an error of the instruction. -/
def accept {α : Type} (m : Machine) (i : Instruction) (result : Except Fault α) :
    Except RunError α :=
  result.mapError fun fault => m.error (.rejected i.opcode fault)

/-- A description of the state in seven lines. -/
def report (m : Machine) : String :=
  let temporary := match m.temporary with
    | some f => Text.Decimal.ofNat f.size
    | none => "undefined"
  s!"position: {m.position}\nexecuted: {m.executed}\nglobal frame: {m.globals.size}\n" ++
    s!"temporary frame: {temporary}\nlocal frames: {m.locals.length}\n" ++
    s!"operand stack: {m.data.length}\ncall stack: {m.calls.length}\n"

end Machine

end FrameCode

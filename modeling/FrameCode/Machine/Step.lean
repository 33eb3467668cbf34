import FrameCode.Machine

/-! What one instruction does. An instruction fails before it changes anything, with
two exceptions: values that it popped are gone, and the host has seen the read or
write that it refused. -/

namespace FrameCode

/-- Where a program goes on after an instruction. -/
inductive Flow where
  | next
  | jump (position : Nat)
  | halt (status : Nat)
deriving DecidableEq, Repr

/-- The state after an instruction, whether it succeeded or failed. -/
structure Step where
  machine : Machine
  result : Except RunError Flow

namespace Machine

/-! ## Outcomes -/

def fail (m : Machine) (e : RunError) : Step := ⟨m, .error e⟩

/-- Goes on with the new state, or fails in the old one. -/
def update (m : Machine) : Except RunError Machine → Step
  | .ok m => ⟨m, .ok .next⟩
  | .error e => m.fail e

/-- Goes where the result says, or fails; the state stays. -/
def go (m : Machine) : Except RunError Flow → Step
  | .ok flow => ⟨m, .ok flow⟩
  | .error e => m.fail e

/-! ## Operand forms: the destination has to be declared before the operands are read -/

def unary (m : Machine) (i : Instruction) (f : Value → Except Fault Value) :
    Except RunError Machine := do
  let v ← destination i 0
  let _ ← m.cell v
  let x ← m.symbol i 1
  m.assign v (← m.accept i (f x))

def binary (m : Machine) (i : Instruction) (f : Value → Value → Except Fault Value) :
    Except RunError Machine := do
  let v ← destination i 0
  let _ ← m.cell v
  let x ← m.symbol i 1
  let y ← m.symbol i 2
  m.assign v (← m.accept i (f x y))

/-- The destination is also the string that is changed, so it needs a value. -/
def setChar (m : Machine) (i : Instruction) : Except RunError Machine := do
  let v ← destination i 0
  let string ← m.value v
  let index ← m.symbol i 1
  let replacement ← m.symbol i 2
  m.assign v (← m.accept i (string.setChar index replacement))

/-- The name of a type; a variable without a value gives the empty string. -/
def type (m : Machine) (i : Instruction) : Except RunError Machine := do
  let v ← destination i 0
  let _ ← m.cell v
  match i.operand? 1 with
  | some (.const value) => m.assign v (.str value.type.name)
  | some (.var source) =>
    match (← m.cell source).value with
    | some value => m.assign v (.str value.type.name)
    | none => m.assign v (.str "")
  | _ => .error (m.error (.malformedOperand i.opcode 2))

/-! ## Stack forms: the right operand is on top -/

/-- Hands the top value on, with the state from which it is gone. -/
def popping (m : Machine) (k : Value → Machine → Step) : Step :=
  match m.data.pop? with
  | none => m.fail (m.error .emptyStack)
  | some (x, rest) => k x { m with data := rest }

def push (m : Machine) (value : Value) : Machine := { m with data := m.data.push value }

def unaryStack (m : Machine) (i : Instruction) (f : Value → Except Fault Value) : Step :=
  m.popping fun x m => m.update ((m.accept i (f x)).map m.push)

def binaryStack (m : Machine) (i : Instruction) (f : Value → Value → Except Fault Value) : Step :=
  m.popping fun y m => m.popping fun x m => m.update ((m.accept i (f x y)).map m.push)

def pop (m : Machine) (i : Instruction) : Step :=
  m.popping fun x m => m.update do m.assign (← destination i 0) x

/-! ## Jumps and calls -/

/-- A jump that is taken when the values are equal, or when they are not. -/
def branch (m : Machine) (i : Instruction) (equal : Bool) (target : Nat) (x y : Value) :
    Except RunError Flow := do
  let same ← m.accept i (x.equals y)
  return if same == equal then .jump target else .next

def jumpIf (m : Machine) (labels : LabelTable) (i : Instruction) (equal : Bool) :
    Except RunError Flow := do
  let target ← m.target labels i 0
  let x ← m.symbol i 1
  let y ← m.symbol i 2
  m.branch i equal target x y

def jumpIfStack (m : Machine) (labels : LabelTable) (i : Instruction) (equal : Bool) : Step :=
  match m.target labels i 0 with
  | .error e => m.fail e
  | .ok target => m.popping fun y m => m.popping fun x m => m.go (m.branch i equal target x y)

def call (m : Machine) (labels : LabelTable) (i : Instruction) : Step :=
  match m.target labels i 0 with
  | .error e => m.fail e
  | .ok target => ⟨{ m with calls := m.calls.push m.position }, .ok (.jump target)⟩

/-- Goes on after the call that was made last. -/
def ret (m : Machine) : Step :=
  match m.calls.pop? with
  | none => m.fail (m.error .emptyCallStack)
  | some (caller, rest) => ⟨{ m with calls := rest }, .ok (.jump (caller + 1))⟩

/-! ## Frames -/

def pushFrame (m : Machine) : Except RunError Machine :=
  match m.temporary with
  | some f => .ok { m with temporary := none, locals := m.locals.push f }
  | none => .error (m.error (.undefinedFrame .temporary))

def popFrame (m : Machine) : Except RunError Machine :=
  match m.locals.pop? with
  | some (f, rest) => .ok { m with temporary := some f, locals := rest }
  | none => .error (m.error (.undefinedFrame .locals))

/-! ## Input and output -/

/-- The destination and the type of a read. -/
def readOperands (m : Machine) (i : Instruction) : Except RunError (Variable × TypeTag) := do
  let v ← destination i 0
  let _ ← m.cell v
  match i.operand? 1 with
  | some (.type tag) => return (v, tag)
  | _ => .error (m.error (.malformedOperand i.opcode 2))

def read (m : Machine) (i : Instruction) : Step :=
  match m.readOperands i with
  | .error e => m.fail e
  | .ok (v, tag) =>
    let (answer, input) := m.host.input.read
    let m := { m with host := { m.host with input } }
    match answer with
    | .error message => m.fail (m.error (.host message))
    | .ok line => m.update (m.assign v (Value.ofInput line tag))

def write (m : Machine) (text : String) : Step :=
  let (answer, output) := m.host.output.write text
  let m := { m with host := { m.host with output } }
  match answer with
  | .error message => m.fail (m.error (.host message))
  | .ok () => ⟨m, .ok .next⟩

def diagnose (m : Machine) (text : String) : Step :=
  let (answer, diagnostics) := m.host.diagnostics.write text
  let m := { m with host := { m.host with diagnostics } }
  match answer with
  | .error message => m.fail (m.error (.host message))
  | .ok () => ⟨m, .ok .next⟩

/-- Hands the first operand's value on. -/
def withSymbol (m : Machine) (i : Instruction) (k : Value → Step) : Step :=
  match m.symbol i 0 with
  | .error e => m.fail e
  | .ok x => k x

/-- Executes one instruction. -/
def step (labels : LabelTable) (i : Instruction) (m : Machine) : Step :=
  match i.opcode with
  | .createFrame => ⟨{ m with temporary := some .empty }, .ok .next⟩
  | .pushFrame => m.update m.pushFrame
  | .popFrame => m.update m.popFrame
  | .defVar => m.update do m.declare (← destination i 0)
  | .call => m.call labels i
  | .ret => m.ret
  | .move => m.update (m.unary i .ok)
  | .pushs => m.update ((m.symbol i 0).map m.push)
  | .pops => m.pop i
  | .clears => ⟨{ m with data := [] }, .ok .next⟩
  | .unary op => m.update (m.unary i op.eval)
  | .binary op => m.update (m.binary i op.eval)
  | .unaryStack op => m.unaryStack i op.eval
  | .binaryStack op => m.binaryStack i op.eval
  | .read => m.read i
  | .write => m.withSymbol i fun x => m.write x.outputText
  | .concat => m.update (m.binary i Value.concat)
  | .strlen => m.update (m.unary i Value.strlen)
  | .getChar => m.update (m.binary i Value.getChar)
  | .setChar => m.update (m.setChar i)
  | .type => m.update (m.type i)
  | .label => ⟨m, .ok .next⟩
  | .jump => m.go ((m.target labels i 0).map .jump)
  | .jumpIf equal => m.go (m.jumpIf labels i equal)
  | .jumpIfStack equal => m.jumpIfStack labels i equal
  | .exit => m.go do return .halt (← m.accept i (← m.symbol i 0).exitStatus)
  | .dprint => m.withSymbol i fun x => m.diagnose x.text
  | .breakpoint => m.diagnose m.report

end Machine

end FrameCode

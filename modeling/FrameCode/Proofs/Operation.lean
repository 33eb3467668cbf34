import FrameCode.Proofs.Streams

/-! Operations on values and the instructions that carry them out. An instruction has the values of
its operation in its operands or on the stack. Whatever its form is, it leaves what the operation
gives at its place, or fails with the operation's fault (`Machine.Performs.delivers`). -/

namespace FrameCode

/-- A result with its fault known by the code alone. -/
def coded {α : Type} (r : Except Fault α) : Except Nat α :=
  r.mapError fun fault => fault.errorClass.code

/-- Where an instruction leaves what it computes: in a variable, or on the stack above the values
that it does not use. -/
inductive Place where
  | variable (v : Variable)
  | stack (rest : Stack Value)

namespace Opcode

/-- The operation of an operand form with one symbol. -/
def onSymbol? : Opcode → Option (Value → Except Fault Value)
  | move => some .ok
  | unary op => some op.eval
  | strlen => some Value.strlen
  | _ => none

/-- The operation of an operand form with two symbols, the destination apart. -/
def onSymbols? : Opcode → Option (Value → Value → Except Fault Value)
  | binary op => some op.eval
  | concat => some Value.concat
  | getChar => some Value.getChar
  | _ => none

end Opcode

namespace Machine

variable {m : Machine} {labels : LabelTable} {i : Instruction}

/-- The value stands at the place. -/
def Has (m : Machine) (x : Value) : Place → Prop
  | .variable v => m.value v = .ok x
  | .stack rest => m.data = x :: rest

/-- The instruction has all values of its operation, which come to that result, and the place for
it. SETCHAR changes the string that its destination holds. -/
inductive Performs (m : Machine) (i : Instruction) : Place → Except Fault Value → Prop
  | symbol {f : Value → Except Fault Value} {v : Variable} {cell : Cell} {x : Value}
    (operation : i.opcode.onSymbol? = some f) (destination : destination i 0 = .ok v)
    (declared : m.cell v = .ok cell) (first : m.symbol i 1 = .ok x) :
    Performs m i (.variable v) (f x)
  | symbols {f : Value → Value → Except Fault Value} {v : Variable} {cell : Cell} {x y : Value}
    (operation : i.opcode.onSymbols? = some f) (destination : destination i 0 = .ok v)
    (declared : m.cell v = .ok cell) (first : m.symbol i 1 = .ok x)
    (second : m.symbol i 2 = .ok y) : Performs m i (.variable v) (f x y)
  | setChar {v : Variable} {x y z : Value} (opcode : i.opcode = .setChar)
    (destination : destination i 0 = .ok v) (string : m.value v = .ok x)
    (index : m.symbol i 1 = .ok y) (replacement : m.symbol i 2 = .ok z) :
    Performs m i (.variable v) (x.setChar y z)
  | unaryStack {op : Unary} {x : Value} {rest : Stack Value} (opcode : i.opcode = .unaryStack op)
    (data : m.data = x :: rest) : Performs m i (.stack rest) (op.eval x)
  | binaryStack {op : Binary} {x y : Value} {rest : Stack Value}
    (opcode : i.opcode = .binaryStack op) (data : m.data = y :: x :: rest) :
    Performs m i (.stack rest) (op.eval x y)

/-- The instruction succeeds if and only if the operation does, with its value at the place, and
fails with its fault if and only if the operation fails. -/
structure Delivers (m : Machine) (labels : LabelTable) (i : Instruction) (place : Place)
    (r : Except Fault Value) : Prop where
  ok_iff : ∀ x, r = .ok x ↔
    (m.step labels i).result = .ok .next ∧ (m.step labels i).machine.Has x place
  error_iff : ∀ fault, r = .error fault ↔
    (m.step labels i).result = .error (m.error (.rejected i.opcode fault))

/-! ## Storing and pushing -/

theorem Delivers.of_assign {r : Except Fault Value} {v : Variable} {cell : Cell}
    (hcell : m.cell v = .ok cell)
    (hstep : m.step labels i = m.update (m.accept i r >>= m.assign v)) :
    m.Delivers labels i (.variable v) r := by
  cases r with
  | error fault =>
    have hfail : m.step labels i = m.fail (m.error (.rejected i.opcode fault)) := hstep
    constructor
    · intro x
      simp [hfail, fail]
    · intro fault'
      simp [hfail, fail, error]
  | ok y =>
    obtain ⟨m', hassign⟩ := exists_assign_of_cell hcell y
    have hnext : m.step labels i = ⟨m', .ok .next⟩ := hstep.trans (congrArg m.update hassign)
    constructor
    · intro x
      simp [hnext, Has, value_of_assign hassign]
    · intro fault
      simp [hnext]

theorem Delivers.of_push {r : Except Fault Value} {rest : Stack Value}
    (hstep : m.step labels i =
      update { m with data := rest } ((m.accept i r).map (push { m with data := rest }))) :
    m.Delivers labels i (.stack rest) r := by
  cases r with
  | error fault =>
    have hfail : m.step labels i =
        fail { m with data := rest } (m.error (.rejected i.opcode fault)) := hstep
    constructor
    · intro x
      simp [hfail, fail]
    · intro fault'
      simp [hfail, fail, error]
  | ok y =>
    have hnext : m.step labels i = ⟨push { m with data := rest } y, .ok .next⟩ := hstep
    constructor
    · intro x
      simp [hnext, Has, push, Stack.push]
    · intro fault
      simp [hnext]

/-! ## Every form -/

theorem step_eq_unary {f : Value → Except Fault Value} (h : i.opcode.onSymbol? = some f) :
    m.step labels i = m.update (m.unary i f) := by
  cases hop : i.opcode with
  | move | unary op | strlen =>
    rw [hop] at h
    cases h
    simp only [step, hop]
  | _ =>
    rw [hop] at h
    cases h

theorem step_eq_binary {f : Value → Value → Except Fault Value}
    (h : i.opcode.onSymbols? = some f) : m.step labels i = m.update (m.binary i f) := by
  cases hop : i.opcode with
  | binary op | concat | getChar =>
    rw [hop] at h
    cases h
    simp only [step, hop]
  | _ =>
    rw [hop] at h
    cases h

theorem Performs.delivers {place : Place} {r : Except Fault Value} (h : m.Performs i place r)
    (labels : LabelTable) : m.Delivers labels i place r := by
  cases h with
  | symbol operation destination declared first =>
    refine .of_assign declared ?_
    rw [step_eq_unary operation]
    simp only [unary, destination, declared, first, bind, Except.bind]
  | symbols operation destination declared first second =>
    refine .of_assign declared ?_
    rw [step_eq_binary operation]
    simp only [binary, destination, declared, first, second, bind, Except.bind]
  | setChar opcode destination string index replacement =>
    -- a variable that has a value has been declared
    obtain ⟨cell, declared, -⟩ := bind_eq_ok_iff.mp string
    refine .of_assign declared ?_
    simp only [step, opcode, Machine.setChar, destination, string, index, replacement, bind,
      Except.bind]
  | unaryStack opcode data =>
    refine .of_push ?_
    simp only [step, opcode, Machine.unaryStack, popping, data, Stack.pop?]
    rfl
  | binaryStack opcode data =>
    refine .of_push ?_
    simp only [step, opcode, Machine.binaryStack, popping, data, Stack.pop?]
    rfl

/-! ## The two forms of an operator -/

/-- The operand form of an operator, for a variable that has been declared. -/
structure Applies (m : Machine) (i : Instruction) (op : Binary) (v : Variable) (a b : Value) :
    Prop where
  opcode : i.opcode = .binary op
  destination : destination i 0 = .ok v
  declared : ∃ cell, m.cell v = .ok cell
  left : m.symbol i 1 = .ok a
  right : m.symbol i 2 = .ok b

/-- The stack form of an operator, with the right value on top. -/
structure AppliesStack (m : Machine) (i : Instruction) (op : Binary) (a b : Value)
    (rest : Stack Value) : Prop where
  opcode : i.opcode = .binaryStack op
  data : m.data = b :: a :: rest

theorem Applies.performs {op : Binary} {v : Variable} {a b : Value} (h : m.Applies i op v a b) :
    m.Performs i (.variable v) (op.eval a b) := by
  obtain ⟨cell, declared⟩ := h.declared
  exact .symbols (by rw [h.opcode]; rfl) h.destination declared h.left h.right

theorem AppliesStack.performs {op : Binary} {a b : Value} {rest : Stack Value}
    (h : m.AppliesStack i op a b rest) : m.Performs i (.stack rest) (op.eval a b) :=
  .binaryStack h.opcode h.data

end Machine

end FrameCode

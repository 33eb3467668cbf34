import FrameCode.Proofs.Expression

/-! Operand forms and stack forms of one operation. An operator that reads its operands and
writes a variable does what its stack form does between pushing the operands and popping the
result: both evaluate the same expression (`Machine.binary_eq`, `Machine.unary_eq`), and a
variable that has been declared can be written either way. -/

namespace FrameCode

/-- The cause with another opcode in place of the one that it names. -/
def Cause.withOpcode (op : Opcode) : Cause → Cause
  | malformedOperand _ index => malformedOperand op index
  | rejected _ fault => rejected op fault
  | cause => cause

namespace Machine

/-- The two machines have the same frames, stacks and host. -/
structure SameState (m m' : Machine) : Prop where
  frames : m.SameFrames m'
  data : m'.data = m.data
  calls : m'.calls = m.calls
  host : m'.host = m.host

theorem SameState.setFrame {m m' : Machine} (h : m.SameState m') (kind : FrameKind) (f : Frame) :
    (m.setFrame kind f).SameState (m'.setFrame kind f) := by
  have hold := setFrame_framesOnly m kind f
  have hnew := setFrame_framesOnly m' kind f
  refine ⟨h.frames.setFrame kind f, ?_, ?_, ?_⟩
  · rw [hold, hnew]
    exact h.data
  · rw [hold, hnew]
    exact h.calls
  · rw [hold, hnew]
    exact h.host

theorem SameState.move {m m' : Machine} (h : m.SameState m') (position position' : Nat) :
    SameState { m with position } { m' with position := position' } :=
  ⟨⟨h.frames.globals, h.frames.temporary, h.frames.locals⟩, h.data, h.calls, h.host⟩

theorem SameState.passed {m m' : Machine} (h : m.SameState m') (n : Nat) :
    m.counted.SameState (m'.passed n).counted :=
  ⟨⟨h.frames.globals, h.frames.temporary, h.frames.locals⟩, h.data, h.calls, h.host⟩

theorem SameFrames.lookup {m m' : Machine} (h : m.SameFrames m') : m'.lookup = m.lookup := by
  funext v
  simp only [Machine.lookup, h.frame?]

/-- Two runs, up to the positions `here` and `there`: both go on in the same state, or both
fail for the same cause, in which the first one names `op`. -/
inductive Alike (op : Opcode) (here there : Nat) : Progress → Progress → Prop
  | success {m m' : Machine} (same : m.SameState m') (position : m.position = here)
    (position' : m'.position = there) : Alike op here there (.running m) (.running m')
  | failure {e e' : RunError} (cause : e.cause = e'.cause.withOpcode op) (m m' : Machine) :
    Alike op here there (.stopped (.failed e) m) (.stopped (.failed e') m')

/-! ## Operand forms -/

variable {m m' : Machine} {i : Instruction} {d : Variable} {cell : Cell}

/-- Symbols that have no value are no matter of the opcode. -/
theorem withOpcode_of_symbol {s : Symbol} {cause : Cause} (h : s.eval m.lookup = .error cause)
    (op : Opcode) : cause.withOpcode op = cause := by
  cases s with
  | const x => cases h
  | var v =>
    simp only [Symbol.eval, lookup] at h
    split at h
    · cases h
      rfl
    · split at h
      · cases h
        rfl
      · split at h
        · cases h
          rfl
        · cases h

theorem destination_eq {operands : List Operand} (ho : i.operands = .var d :: operands) :
    destination i 0 = .ok d := by
  simp [destination, Instruction.operand?, ho]

/-- The outcome of an operation that has evaluated the expression `e` for the variable `d`. -/
def assignEval (m : Machine) (op : Opcode) (d : Variable) (e : Expression) :
    Except RunError Machine :=
  (e.eval m.lookup).mapError (fun cause => m.error (cause.withOpcode op)) >>= m.assign d

section OperandForms

variable (hd : m.cell d = .ok cell)
include hd

theorem unary_eq {op : Unary} {a : Symbol} (hop : i.opcode = .unary op)
    (ho : i.operands = [.var d, a.operand]) :
    m.unary i op.eval = m.assignEval (.unary op) d (.unary op (.symbol a)) := by
  have hdest := destination_eq ho
  have ha : m.symbol i 1 = (a.eval m.lookup).mapError m.error :=
    symbol_eq (by simp [Instruction.operand?, ho])
  simp only [unary, assignEval, Expression.eval, bind, Except.bind, hdest, hd, ha, accept_eq, hop]
  cases hx : a.eval m.lookup with
  | error cause => exact congrArg (Except.error ∘ m.error) (withOpcode_of_symbol hx _).symm
  | ok x =>
    simp only [Except.mapError]
    cases op.eval x with
    | error fault => rfl
    | ok y => rfl

theorem binary_eq {op : Binary} {a b : Symbol} (hop : i.opcode = .binary op)
    (ho : i.operands = [.var d, a.operand, b.operand]) :
    m.binary i op.eval = m.assignEval (.binary op) d (.binary op (.symbol a) (.symbol b)) := by
  have hdest := destination_eq ho
  have ha : m.symbol i 1 = (a.eval m.lookup).mapError m.error :=
    symbol_eq (by simp [Instruction.operand?, ho])
  have hb : m.symbol i 2 = (b.eval m.lookup).mapError m.error :=
    symbol_eq (by simp [Instruction.operand?, ho])
  simp only [binary, assignEval, Expression.eval, bind, Except.bind, hdest, hd, ha, hb, accept_eq, hop]
  cases hx : a.eval m.lookup with
  | error cause => exact congrArg (Except.error ∘ m.error) (withOpcode_of_symbol hx _).symm
  | ok x =>
    simp only [Except.mapError]
    cases hy : b.eval m.lookup with
    | error cause => exact congrArg (Except.error ∘ m.error) (withOpcode_of_symbol hy _).symm
    | ok y =>
      simp only
      cases op.eval x y with
      | error fault => rfl
      | ok z => rfl

end OperandForms

/-! ## Stack forms -/

variable {p p' : Program}

/-- A variable is written with what is popped. -/
theorem advance_pops (hi : p.fetch? m.position = some i) (hop : i.opcode = .pops)
    (ho : i.operands = [.var d]) (x : Value) :
    (m.push x).advance p = (m.counted.update (m.counted.assign d x)).progress := by
  have hdest := destination_eq ho
  have hpushed : p.fetch? (m.push x).position = some i := hi
  rw [advance_of_some hpushed]
  simp only [step, hop, pop, popping, counted, push, Stack.push, Stack.pop?]
  rw [hdest]
  rfl

/-- A variable that has been declared is written alike in the same state. -/
theorem alike_assign (h : m.SameState m') (hd : m.cell d = .ok cell) (x : Value)
    (op : Opcode) : Alike op (m.position + 1) (m'.position + 1)
      (m.update (m.assign d x)).progress (m'.update (m'.assign d x)).progress := by
  obtain ⟨m₁, hassign⟩ := exists_assign_of_cell hd x
  obtain ⟨f, f', hf, hset, rfl⟩ := assign_eq_ok hassign
  have hassign' : m'.assign d x = .ok (m'.setFrame d.frame f') := by
    have hframe : m'.frame d.frame = .ok f := frame_eq_ok_iff.mpr ((h.frames.frame? _).trans hf)
    simp only [assign, hframe, bind, Except.bind, hset]
    rfl
  rw [hassign, hassign']
  have hposition : (m.setFrame d.frame f').position = m.position := by
    rw [setFrame_framesOnly m d.frame f']
  have hposition' : (m'.setFrame d.frame f').position = m'.position := by
    rw [setFrame_framesOnly m' d.frame f']
  exact .success ((h.setFrame d.frame f').move _ _) (congrArg Nat.succ hposition)
    (congrArg Nat.succ hposition')

/-- Running the code of an expression and popping its value is like writing the value. -/
theorem alike_of_code (h : m.SameState m') {op : Opcode} {e : Expression} (hd : m.cell d = .ok cell)
    (hoperand : m.advance p = (m.counted.update (m.counted.assignEval op d e)).progress)
    (hstack : p'.Holds m'.position (e.code ++ [(.pops, [.var d])])) :
    Alike op (m.position + 1) (m'.position + e.code.length + 1) (m.advance p)
      (m'.run p' (e.code.length + 1)) := by
  rw [hoperand, assignEval]
  cases he : e.eval m.counted.lookup with
  | ok x =>
    have hrun := run_code_of_ok hstack.left (h.frames.lookup ▸ he)
    obtain ⟨i, hi, hop, ho⟩ := hstack.right.head
    have hlast := advance_pops (m := m'.passed e.code.length) hi hop ho x
    rw [run_add_of_running hrun, run_one, hlast]
    exact alike_assign (h.passed e.code.length) hd x op
  | error cause =>
    obtain ⟨j, last, hfirst, hrun⟩ := run_code_of_error hstack.left (h.frames.lookup ▸ he)
    obtain ⟨part, hpart, -⟩ := hfirst.fails
    have hj : j < e.code.length := e.length_code ▸ (List.getElem?_eq_some_iff.mp hpart).1
    rw [run_of_stopped_within (Nat.le_succ_of_le hj) hrun]
    exact .failure rfl _ _

/-! ## Conditional jumps -/

theorem target_eq {labels : LabelTable} {name : String} {operands : List Operand} {target : Nat}
    (ho : i.operands = .label name :: operands) (hlabel : labels.resolve? name = some target)
    (m : Machine) : m.target labels i 0 = .ok target := by
  simp [Machine.target, Instruction.operand?, ho, hlabel]

theorem jumpIf_eq {labels : LabelTable} {name : String} {target : Nat} {equal : Bool} {a b : Symbol}
    (ho : i.operands = [.label name, a.operand, b.operand])
    (hlabel : labels.resolve? name = some target) :
    m.jumpIf labels i equal = (do
      let x ← (a.eval m.lookup).mapError m.error
      let y ← (b.eval m.lookup).mapError m.error
      m.branch i equal target x y) := by
  have ha : m.symbol i 1 = (a.eval m.lookup).mapError m.error :=
    symbol_eq (by simp [Instruction.operand?, ho])
  have hb : m.symbol i 2 = (b.eval m.lookup).mapError m.error :=
    symbol_eq (by simp [Instruction.operand?, ho])
  rw [jumpIf, target_eq ho hlabel, ha, hb]
  rfl

theorem advance_jumpIfStack {name : String} {target : Nat} {equal : Bool}
    (hi : p.fetch? m.position = some i) (hop : i.opcode = .jumpIfStack equal)
    (ho : i.operands = [.label name]) (hlabel : p.labels.resolve? name = some target) (x y : Value) :
    ((m.push x).push y).advance p = (m.counted.go (m.counted.branch i equal target x y)).progress := by
  have hpushed : p.fetch? ((m.push x).push y).position = some i := hi
  rw [advance_of_some hpushed]
  simp only [step, hop, jumpIfStack]
  rw [target_eq ho hlabel]
  rfl

/-- Both jumps are taken, or neither is. -/
theorem alike_branch (h : m.SameState m') {i i' : Instruction} {equal : Bool}
    (hop : i.opcode = .jumpIf equal) (target target' : Nat) (x y : Value) :
    ∃ taken : Bool, Alike (.jumpIf equal) (if taken then target else m.position + 1)
      (if taken then target' else m'.position + 1) (m.go (m.branch i equal target x y)).progress
      (m'.go (m'.branch i' equal target' x y)).progress := by
  cases hequals : x.equals y with
  | error fault =>
    simp only [branch, hequals]
    exact ⟨false, .failure (by rw [hop]; rfl) _ _⟩
  | ok same =>
    have hflow (m : Machine) (i : Instruction) (target : Nat) : m.branch i equal target x y =
        .ok (if same == equal then .jump target else .next) := by
      simp only [branch, hequals]
      rfl
    rw [hflow, hflow]
    cases same == equal with
    | true => exact ⟨true, .success (h.move _ _) rfl rfl⟩
    | false => exact ⟨false, .success (h.move _ _) rfl rfl⟩

/-- A conditional jump on symbols is like the one on values that have been pushed. -/
theorem alike_jumpIf (h : m.SameState m') {name : String} {target target' : Nat} {equal : Bool}
    {a b : Symbol} (hlabel : p.labels.resolve? name = some target)
    (hlabel' : p'.labels.resolve? name = some target')
    (hoperand : p.Holds m.position [(.jumpIf equal, [.label name, a.operand, b.operand])])
    (hstack : p'.Holds m'.position ((Expression.symbol a).code ++ (Expression.symbol b).code ++
      [(.jumpIfStack equal, [.label name])])) :
    ∃ taken : Bool, Alike (.jumpIf equal) (if taken then target else m.position + 1)
      (if taken then target' else m'.position + 3) (m.advance p) (m'.run p' 3) := by
  obtain ⟨i, hi, hop, ho⟩ := hoperand.head
  rw [advance_of_some hi]
  simp only [step, hop]
  rw [jumpIf_eq ho hlabel]
  have hlookup : m.counted.lookup = m'.lookup := h.frames.lookup.symm
  rw [hlookup]
  have hleft := run_symbol hstack.left.left
  cases hx : a.eval m'.lookup with
  | error cause =>
    rw [hx] at hleft
    rw [run_of_stopped_within (by decide) hleft]
    exact ⟨false, .failure (withOpcode_of_symbol hx _).symm _ _⟩
  | ok x =>
    rw [hx] at hleft
    have hright : ((m'.passed 1).push x).run p' 1 = yield _ (b.eval m'.lookup) :=
      run_symbol hstack.left.right
    cases hy : b.eval m'.lookup with
    | error cause =>
      rw [hy, ← run_add_of_running hleft] at hright
      rw [run_of_stopped_within (by decide) hright]
      exact ⟨false, .failure (withOpcode_of_symbol hy _).symm _ _⟩
    | ok y =>
      rw [hy] at hright
      have hpair := run_pair hleft hright
      obtain ⟨j, hj, hop', ho'⟩ := hstack.right.head
      have hlast := advance_jumpIfStack (m := m'.passed 2) hj hop' ho' hlabel' x y
      rw [run_add_of_running hpair 1, run_one, hlast]
      exact alike_branch (h.passed 2) hop target target' x y

/-- **Operand forms and stack forms do the same.** Between two machines in the same state, an
operator on symbols for a variable that has been declared is like its stack form with the
symbols pushed before and the variable popped after it, whatever the symbols are, and a
conditional jump on symbols is like the one on the pushed symbols: both ways end in the same
state, at the end of their instructions or at the label, or both fail for the same cause. -/
theorem stack_form_alike (p p' : Program) {m m' : Machine} (h : m.SameState m') (a b : Symbol) :
    (∀ (op : Binary) (d : Variable) (cell : Cell), m.cell d = .ok cell →
      p.Holds m.position [(.binary op, [.var d, a.operand, b.operand])] →
      p'.Holds m'.position [(.pushs, [a.operand]), (.pushs, [b.operand]), (.binaryStack op, []),
        (.pops, [.var d])] →
      Alike (.binary op) (m.position + 1) (m'.position + 4) (m.advance p) (m'.run p' 4)) ∧
    (∀ (op : Unary) (d : Variable) (cell : Cell), m.cell d = .ok cell →
      p.Holds m.position [(.unary op, [.var d, a.operand])] →
      p'.Holds m'.position [(.pushs, [a.operand]), (.unaryStack op, []), (.pops, [.var d])] →
      Alike (.unary op) (m.position + 1) (m'.position + 3) (m.advance p) (m'.run p' 3)) ∧
    ∀ (equal : Bool) (name : String) (target target' : Nat),
      p.labels.resolve? name = some target → p'.labels.resolve? name = some target' →
      p.Holds m.position [(.jumpIf equal, [.label name, a.operand, b.operand])] →
      p'.Holds m'.position [(.pushs, [a.operand]), (.pushs, [b.operand]),
        (.jumpIfStack equal, [.label name])] →
      ∃ taken : Bool, Alike (.jumpIf equal) (if taken then target else m.position + 1)
        (if taken then target' else m'.position + 3) (m.advance p) (m'.run p' 3) := by
  refine ⟨?_, ?_, ?_⟩
  · intro op d cell hd hoperand hstack
    obtain ⟨i, hi, hop, ho⟩ := hoperand.head
    refine alike_of_code (e := .binary op (.symbol a) (.symbol b)) h hd ?_ hstack
    rw [advance_of_some hi]
    simp only [step, hop]
    rw [binary_eq (m := m.counted) hd hop ho]
  · intro op d cell hd hoperand hstack
    obtain ⟨i, hi, hop, ho⟩ := hoperand.head
    refine alike_of_code (e := .unary op (.symbol a)) h hd ?_ hstack
    rw [advance_of_some hi]
    simp only [step, hop]
    rw [unary_eq (m := m.counted) hd hop ho]
  · intro equal name target target' hlabel hlabel' hoperand hstack
    exact alike_jumpIf h hlabel hlabel' hoperand hstack

/-- A difference whose right side is the variable that it is written to, a character of a code
that does not exist, and a jump on the same variable, each in both forms. -/
theorem stack_form_alike_on_own_variable :
    let x : Variable := ⟨.globals, "x"⟩
    let p : Program := {
      instructions := #[⟨1, .binary .sub, [.var x, .const (.int 3), .var x]⟩,
        ⟨2, .pushs, [.const (.int 3)]⟩, ⟨3, .pushs, [.var x]⟩, ⟨4, .binaryStack .sub, []⟩,
        ⟨5, .pops, [.var x]⟩, ⟨6, .unary .int2Char, [.var x, .const (.int 300)]⟩,
        ⟨7, .pushs, [.const (.int 300)]⟩, ⟨8, .unaryStack .int2Char, []⟩, ⟨9, .pops, [.var x]⟩,
        ⟨10, .jumpIf false, [.label "l", .const (.int 3), .var x]⟩, ⟨11, .pushs, [.const (.int 3)]⟩,
        ⟨12, .pushs, [.var x]⟩, ⟨13, .jumpIfStack false, [.label "l"]⟩]
      labels := LabelTable.empty.insertNew "l" 2 }
    let m (position : Nat) : Machine := {
      globals := {
        cells := #[⟨"x", some (.int 10)⟩]
        index := (∅ : Std.ExtTreeMap String Nat).insert "x" 0 }
      data := [.nil]
      position }
    (Alike (.binary .sub) 2 6 ((m 1).advance p) ((m 2).run p 4) ∧
      ((m 1).advance p).machine.globals.get? "x" = some ⟨"x", some (.int (-7))⟩) ∧
    Alike (.unary .int2Char) 7 10 ((m 6).advance p) ((m 7).run p 3) ∧
    ∃ taken : Bool, Alike (.jumpIf false) (if taken then 2 else 11) (if taken then 2 else 14)
      ((m 10).advance p) ((m 11).run p 3) := by
  intro x p m
  have hsame (k k' : Nat) : (m k).SameState (m k') := ⟨⟨rfl, rfl, rfl⟩, rfl, rfl, rfl⟩
  have hcell : ∀ k ∈ [1, 6], (m k).cell x = .ok ⟨"x", some (.int 10)⟩ := by decide +kernel
  obtain ⟨hbinary, -, -⟩ := stack_form_alike p p (hsame 1 2) (.const (.int 3)) (.var x)
  obtain ⟨-, hunary, -⟩ := stack_form_alike p p (hsame 6 7) (.const (.int 300)) (.var x)
  obtain ⟨-, -, hjump⟩ := stack_form_alike p p (hsame 10 11) (.const (.int 3)) (.var x)
  refine ⟨⟨?_, by decide +kernel⟩, ?_, ?_⟩
  · exact hbinary .sub x _ (hcell 1 (by decide)) (by decide +kernel) (by decide +kernel)
  · exact hunary .int2Char x _ (hcell 6 (by decide)) (by decide +kernel) (by decide +kernel)
  · exact hjump false "l" 2 2 rfl rfl (by decide +kernel) (by decide +kernel)

end Machine

end FrameCode

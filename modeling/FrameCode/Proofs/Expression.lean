import FrameCode.Proofs.Run

/-! Expressions on the operand stack. The code of an expression pushes its symbols and applies
its operators in postorder; a run of it evaluates the expression from left to right and leaves
its value on top of what was on the stack, or it fails at the first part that has no value. -/

namespace FrameCode

/-! ## Code in a program -/

/-- The opcode and the operands of an instruction, wherever it stands. -/
def Instruction.content (i : Instruction) : Opcode × List Operand := (i.opcode, i.operands)

/-- From a position on a program has these instructions, whatever positions they state. -/
def Program.Holds (p : Program) (k : Nat) (code : List (Opcode × List Operand)) : Prop :=
  ∀ j < code.length, (p.fetch? (k + j)).map Instruction.content = code[j]?

instance (p : Program) (k : Nat) (code : List (Opcode × List Operand)) :
    Decidable (p.Holds k code) :=
  inferInstanceAs
    (Decidable (∀ j < code.length, (p.fetch? (k + j)).map Instruction.content = code[j]?))

namespace Program.Holds

variable {p : Program} {k : Nat} {code code' : List (Opcode × List Operand)}

theorem head {op : Opcode} {operands : List Operand} (h : p.Holds k ((op, operands) :: code)) :
    ∃ i, p.fetch? k = some i ∧ i.opcode = op ∧ i.operands = operands := by
  have hfetch := h 0 (Nat.succ_pos _)
  obtain ⟨i, hi, hcontent⟩ := Option.map_eq_some_iff.mp hfetch
  exact ⟨i, hi, congrArg Prod.fst hcontent, congrArg Prod.snd hcontent⟩

theorem left (h : p.Holds k (code ++ code')) : p.Holds k code := by
  intro j hj
  rw [h j (by rw [List.length_append]; omega), List.getElem?_append_left hj]

theorem right (h : p.Holds k (code ++ code')) : p.Holds (k + code.length) code' := by
  intro j hj
  have hfetch := h (code.length + j) (by rw [List.length_append]; omega)
  rw [List.getElem?_append_right (Nat.le_add_right _ _), Nat.add_sub_cancel_left] at hfetch
  rw [Nat.add_assoc, hfetch]

end Program.Holds

/-! ## Symbols -/

/-- What an instruction takes as a value: a variable or a constant. -/
inductive Symbol where
  | var (v : Variable)
  | const (value : Value)
deriving DecidableEq, Repr

def Symbol.operand : Symbol → Operand
  | var v => .var v
  | const value => .const value

/-- The value of a symbol, from what variables have. -/
def Symbol.eval (read : Variable → Except Cause Value) : Symbol → Except Cause Value
  | var v => read v
  | const value => .ok value

namespace Machine

/-- The value that a variable has in the frames, or why it has none. -/
def lookup (m : Machine) (v : Variable) : Except Cause Value :=
  match m.frame? v.frame with
  | none => .error (.undefinedFrame v.frame)
  | some f =>
    match f.get? v.name with
    | none => .error (.undefinedVariable v)
    | some cell =>
      match cell.value with
      | none => .error (.unsetVariable v)
      | some x => .ok x

variable {m : Machine} {i : Instruction} {s : Symbol}

theorem value_eq (m : Machine) (v : Variable) : m.value v = (m.lookup v).mapError m.error := by
  unfold value cell frame lookup
  cases m.frame? v.frame with
  | none => rfl
  | some f =>
    simp only [bind, Except.bind]
    cases f.get? v.name with
    | none => rfl
    | some cell =>
      simp only [pure, Except.pure]
      cases cell.value with
      | none => rfl
      | some x => rfl

theorem symbol_eq {k : Nat} (ho : i.operand? k = some s.operand) :
    m.symbol i k = (s.eval m.lookup).mapError m.error := by
  unfold symbol
  rw [ho]
  cases s with
  | var v => exact value_eq m v
  | const x => rfl

end Machine

/-! ## Expressions -/

/-- Expressions over symbols, with the operators that have a stack form. -/
inductive Expression where
  | symbol (s : Symbol)
  | unary (op : Unary) (e : Expression)
  | binary (op : Binary) (left right : Expression)
deriving DecidableEq, Repr

namespace Expression

/-- The value of an expression. The left side goes first; an operator that rejects its values
is named by its stack form. -/
def eval (read : Variable → Except Cause Value) : Expression → Except Cause Value
  | symbol s => s.eval read
  | unary op e => do
    let x ← e.eval read
    (op.eval x).mapError (.rejected (.unaryStack op))
  | binary op left right => do
    let x ← left.eval read
    let y ← right.eval read
    (op.eval x y).mapError (.rejected (.binaryStack op))

/-- The parts of an expression in postorder, with the expression itself at the end. -/
def parts : Expression → List Expression
  | symbol s => [symbol s]
  | unary op e => e.parts ++ [unary op e]
  | binary op left right => left.parts ++ right.parts ++ [binary op left right]

/-- What remains to be done for an expression when its sides have been computed. -/
def instruction : Expression → Opcode × List Operand
  | symbol s => (.pushs, [s.operand])
  | unary op _ => (.unaryStack op, [])
  | binary op _ _ => (.binaryStack op, [])

/-- The instructions that compute an expression, one for each part. -/
def code (e : Expression) : List (Opcode × List Operand) := e.parts.map instruction

theorem length_code (e : Expression) : e.code.length = e.parts.length := List.length_map _

theorem code_unary (op : Unary) (e : Expression) :
    (unary op e).code = e.code ++ [(.unaryStack op, [])] := by
  simp [code, parts, instruction]

theorem code_binary (op : Binary) (left right : Expression) :
    (binary op left right).code = left.code ++ right.code ++ [(.binaryStack op, [])] := by
  simp [code, parts, instruction]

theorem length_code_unary (op : Unary) (e : Expression) :
    (unary op e).code.length = e.code.length + 1 := by
  simp [code_unary]

theorem length_code_binary (op : Binary) (left right : Expression) :
    (binary op left right).code.length = left.code.length + right.code.length + 1 := by
  simp [code_binary, Nat.add_assoc]

variable {read : Variable → Except Cause Value}

/-- An expression that has a value is made of parts that have one. -/
theorem exists_eval_of_mem_parts {e : Expression} {x : Value} (h : e.eval read = .ok x) :
    ∀ part ∈ e.parts, ∃ y, part.eval read = .ok y := by
  induction e generalizing x with
  | symbol s =>
    intro part hpart
    obtain rfl := List.mem_singleton.mp hpart
    exact ⟨x, h⟩
  | unary op e ih =>
    intro part hpart
    obtain ⟨y, hy, -⟩ := bind_eq_ok_iff.mp h
    rcases List.mem_append.mp hpart with hpart | hself
    · exact ih hy part hpart
    · obtain rfl := List.mem_singleton.mp hself
      exact ⟨x, h⟩
  | binary op left right ihl ihr =>
    intro part hpart
    obtain ⟨y, hy, hrest⟩ := bind_eq_ok_iff.mp h
    obtain ⟨z, hz, -⟩ := bind_eq_ok_iff.mp hrest
    rcases List.mem_append.mp hpart with hsides | hself
    · rcases List.mem_append.mp hsides with hleft | hright
      · exact ihl hy part hleft
      · exact ihr hz part hright
    · obtain rfl := List.mem_singleton.mp hself
      exact ⟨x, h⟩

/-- The `j`-th of some expressions is the first one that has no value, for the cause given. -/
structure FirstFailure (read : Variable → Except Cause Value) (es : List Expression) (j : Nat)
    (cause : Cause) : Prop where
  fails : ∃ e, es[j]? = some e ∧ e.eval read = .error cause
  first : ∀ e ∈ es.take j, ∃ x, e.eval read = .ok x

namespace FirstFailure

variable {es es' : List Expression} {j : Nat} {cause : Cause}

theorem single {e : Expression} (h : e.eval read = .error cause) : FirstFailure read [e] 0 cause :=
  ⟨⟨e, rfl, h⟩, fun _ he => (by cases he)⟩

theorem left (h : FirstFailure read es j cause) : FirstFailure read (es ++ es') j cause := by
  obtain ⟨⟨e, he, hfails⟩, hfirst⟩ := h
  obtain ⟨hj, -⟩ := List.getElem?_eq_some_iff.mp he
  refine ⟨⟨e, (List.getElem?_append_left hj).trans he, hfails⟩, ?_⟩
  rwa [List.take_append_of_le_length (Nat.le_of_lt hj)]

theorem right (hes : ∀ e ∈ es, ∃ x, e.eval read = .ok x) (h : FirstFailure read es' j cause) :
    FirstFailure read (es ++ es') (es.length + j) cause := by
  obtain ⟨⟨e, he, hfails⟩, hfirst⟩ := h
  refine ⟨⟨e, ?_, hfails⟩, fun e' he' => ?_⟩
  · rw [List.getElem?_append_right (Nat.le_add_right _ _), Nat.add_sub_cancel_left, he]
  · rw [List.take_length_add_append] at he'
    rcases List.mem_append.mp he' with hleft | hright
    · exact hes e' hleft
    · exact hfirst e' hright

end FirstFailure

end Expression

namespace Program.Holds

variable {p : Program} {k : Nat}

theorem of_unary {op : Unary} {e : Expression} (h : p.Holds k (Expression.unary op e).code) :
    p.Holds k e.code := by
  rw [Expression.code_unary] at h
  exact h.left

theorem of_binary {op : Binary} {left right : Expression}
    (h : p.Holds k (Expression.binary op left right).code) :
    p.Holds k left.code ∧ p.Holds (k + left.code.length) right.code := by
  rw [Expression.code_binary] at h
  exact ⟨h.left.left, h.left.right⟩

end Program.Holds

/-! ## Runs of the code -/

namespace Machine

variable {p : Program} {m : Machine} {i : Instruction}

/-- The machine `n` instructions further on. -/
def passed (m : Machine) (n : Nat) : Machine :=
  { m with position := m.position + n, executed := m.executed + n }

theorem passed_passed (m : Machine) (n k : Nat) : (m.passed n).passed k = m.passed (n + k) := by
  simp only [passed, Nat.add_assoc]

/-- How a run goes on after an instruction that pushes its result, if it has one. -/
def yield (m : Machine) : Except Cause Value → Progress
  | .ok x => .running ((m.passed 1).push x)
  | .error cause => .stopped (.failed (m.error cause)) m.counted

theorem progress_push (m : Machine) (r : Except Cause Value) :
    (m.counted.update ((r.mapError m.error).map m.counted.push)).progress = m.yield r := by
  cases r <;> rfl

theorem accept_eq {α : Type} (m : Machine) (i : Instruction) (result : Except Fault α) :
    m.accept i result = (result.mapError (.rejected i.opcode)).mapError m.error := by
  cases result <;> rfl

theorem run_symbol {s : Symbol} (hp : p.Holds m.position (Expression.symbol s).code) :
    m.run p 1 = m.yield (s.eval m.lookup) := by
  obtain ⟨i, hi, hop, ho⟩ := hp.head
  have hsymbol : m.counted.symbol i 0 = (s.eval m.lookup).mapError m.error :=
    symbol_eq (by simp [Instruction.operand?, ho])
  rw [run_one, advance_of_some hi]
  simp only [step, hop]
  rw [hsymbol, progress_push]

theorem advance_unaryStack {op : Unary} (hi : p.fetch? m.position = some i)
    (hop : i.opcode = .unaryStack op) (x : Value) :
    (m.push x).advance p = m.yield ((op.eval x).mapError (.rejected (.unaryStack op))) := by
  have hpushed : p.fetch? (m.push x).position = some i := hi
  rw [advance_of_some hpushed]
  simp only [step, hop, unaryStack, popping, counted, push, Stack.push, Stack.pop?]
  rw [accept_eq, hop]
  exact progress_push m _

theorem advance_binaryStack {op : Binary} (hi : p.fetch? m.position = some i)
    (hop : i.opcode = .binaryStack op) (x y : Value) :
    ((m.push x).push y).advance p =
      m.yield ((op.eval x y).mapError (.rejected (.binaryStack op))) := by
  have hpushed : p.fetch? ((m.push x).push y).position = some i := hi
  rw [advance_of_some hpushed]
  simp only [step, hop, binaryStack, popping, counted, push, Stack.push, Stack.pop?]
  rw [accept_eq, hop]
  exact progress_push m _

/-- Two values, computed one after the other. -/
theorem run_pair {n k : Nat} {x y : Value} (hleft : m.run p n = .running ((m.passed n).push x))
    (hright : ((m.passed n).push x).run p k = .running ((((m.passed n).push x).passed k).push y)) :
    m.run p (n + k) = .running (((m.passed (n + k)).push x).push y) := by
  rw [run_add_of_running hleft, hright, ← passed_passed]
  rfl

/-- An operator on the value of its side. -/
theorem run_unary {op : Unary} {e : Expression} {x : Value}
    (hp : p.Holds m.position (Expression.unary op e).code)
    (hrun : m.run p e.code.length = .running ((m.passed e.code.length).push x)) :
    m.run p (e.code.length + 1) =
      (m.passed e.code.length).yield ((op.eval x).mapError (.rejected (.unaryStack op))) := by
  rw [Expression.code_unary] at hp
  obtain ⟨i, hi, hop, -⟩ := hp.right.head
  rw [run_add_of_running hrun, run_one]
  exact advance_unaryStack hi hop x

/-- An operator on the values of its sides, of which the right one lies on top. -/
theorem run_binary {op : Binary} {left right : Expression} {x y : Value}
    (hp : p.Holds m.position (Expression.binary op left right).code)
    (hleft : m.run p left.code.length = .running ((m.passed left.code.length).push x))
    (hright : ((m.passed left.code.length).push x).run p right.code.length =
      .running ((((m.passed left.code.length).push x).passed right.code.length).push y)) :
    m.run p (left.code.length + right.code.length + 1) =
      (m.passed (left.code.length + right.code.length)).yield
        ((op.eval x y).mapError (.rejected (.binaryStack op))) := by
  rw [Expression.code_binary] at hp
  obtain ⟨i, hi, hop, -⟩ := hp.right.head
  rw [List.length_append] at hi
  rw [run_add_of_running (run_pair hleft hright), run_one]
  exact advance_binaryStack hi hop x y

/-- The code of an expression that has a value leaves it on the stack. -/
theorem run_code_of_ok {e : Expression} {x : Value} (hp : p.Holds m.position e.code)
    (h : e.eval m.lookup = .ok x) :
    m.run p e.code.length = .running ((m.passed e.code.length).push x) := by
  induction e generalizing m x with
  | symbol s =>
    have hrun := run_symbol hp
    rw [Expression.eval] at h
    rwa [h] at hrun
  | unary op e ih =>
    obtain ⟨y, hy, hx⟩ := bind_eq_ok_iff.mp h
    have hrun := run_unary hp (ih hp.of_unary hy)
    rw [hx] at hrun
    rw [Expression.length_code_unary, hrun]
    rfl
  | binary op left right ihl ihr =>
    obtain ⟨y, hy, hrest⟩ := bind_eq_ok_iff.mp h
    obtain ⟨z, hz, hx⟩ := bind_eq_ok_iff.mp hrest
    have hrun := run_binary hp (ihl hp.of_binary.1 hy) (ihr hp.of_binary.2 hz)
    rw [hx] at hrun
    rw [Expression.length_code_binary, hrun]
    rfl

/-- The code of an expression that has no value fails at the first part that has none. -/
theorem run_code_of_error {e : Expression} {cause : Cause} (hp : p.Holds m.position e.code)
    (h : e.eval m.lookup = .error cause) :
    ∃ j m', Expression.FirstFailure m.lookup e.parts j cause ∧
      m.run p (j + 1) = .stopped (.failed ⟨m.position + j, cause⟩) m' := by
  induction e generalizing m with
  | symbol s =>
    have hrun := run_symbol hp
    refine ⟨0, m.counted, .single h, ?_⟩
    rw [Expression.eval] at h
    rwa [h] at hrun
  | unary op e ih =>
    rcases bind_eq_error_iff.mp h with hside | ⟨y, hy, hx⟩
    · obtain ⟨j, m', hfirst, hrun⟩ := ih hp.of_unary hside
      exact ⟨j, m', hfirst.left, hrun⟩
    · have hrun := run_unary hp (run_code_of_ok hp.of_unary hy)
      rw [hx, Expression.length_code] at hrun
      exact ⟨_, _, .right (Expression.exists_eval_of_mem_parts hy) (.single h), hrun⟩
  | binary op left right ihl ihr =>
    obtain ⟨hpleft, hpright⟩ := hp.of_binary
    rcases bind_eq_error_iff.mp h with hside | ⟨y, hy, hrest⟩
    · obtain ⟨j, m', hfirst, hrun⟩ := ihl hpleft hside
      exact ⟨j, m', hfirst.left.left, hrun⟩
    have hleft := run_code_of_ok hpleft hy
    have hparts := Expression.exists_eval_of_mem_parts hy
    rcases bind_eq_error_iff.mp hrest with hside | ⟨z, hz, hx⟩
    · -- the right side runs on the machine that has the left value on its stack
      obtain ⟨j, m', hfirst, hrun⟩ := ihr (m := (m.passed left.code.length).push y) hpright hside
      refine ⟨_, m', (hfirst.right hparts).left, ?_⟩
      rw [← Expression.length_code, Nat.add_assoc, run_add_of_running hleft, hrun, ← Nat.add_assoc]
      rfl
    · have hrun := run_binary hp hleft (run_code_of_ok hpright hz)
      rw [hx, Expression.length_code, Expression.length_code, ← List.length_append] at hrun
      have hsides : ∀ e ∈ left.parts ++ right.parts, ∃ x, e.eval m.lookup = .ok x :=
        List.forall_mem_append.mpr ⟨hparts, Expression.exists_eval_of_mem_parts hz⟩
      exact ⟨_, _, .right hsides (.single h), hrun⟩

/-- **The code of an expression computes it.** If evaluation from left to right gives a value,
the run of the code comes to its end with this value on top of the stack and everything else
as before. Otherwise the run fails with the cause that evaluation fails with, at the
instruction of the first part that has no value. -/
theorem run_code {p : Program} {m : Machine} {e : Expression} (hp : p.Holds m.position e.code) :
    (∀ x, e.eval m.lookup = .ok x →
      m.run p e.code.length = .running { m with
        data := x :: m.data
        position := m.position + e.code.length
        executed := m.executed + e.code.length }) ∧
    ∀ cause, e.eval m.lookup = .error cause →
      ∃ j m', Expression.FirstFailure m.lookup e.parts j cause ∧
        m.run p (j + 1) = .stopped (.failed ⟨m.position + j, cause⟩) m' :=
  ⟨fun _ h => run_code_of_ok hp h, fun _ h => run_code_of_error hp h⟩

/-- A difference whose right side needs a variable, with the variable set and not. -/
theorem run_code_of_difference :
    let x : Variable := ⟨.globals, "x"⟩
    let e : Expression := .binary .sub (.symbol (.const (.int 10)))
      (.binary .add (.symbol (.const (.int 3))) (.symbol (.var x)))
    let p : Program := {
      instructions := #[⟨1, .clears, []⟩, ⟨2, .pushs, [.const (.int 10)]⟩,
        ⟨3, .pushs, [.const (.int 3)]⟩, ⟨4, .pushs, [.var x]⟩, ⟨5, .binaryStack .add, []⟩,
        ⟨6, .binaryStack .sub, []⟩]
      labels := .empty }
    let m (value : Option Value) : Machine := {
      globals := { cells := #[⟨"x", value⟩], index := (∅ : Std.ExtTreeMap String Nat).insert "x" 0 }
      data := [.nil]
      position := 2 }
    (m (some (.int 4))).run p 5 = .running
      { m (some (.int 4)) with data := [.int 3, .nil], position := 7, executed := 5 } ∧
    ∃ j m', Expression.FirstFailure (m none).lookup e.parts j (.unsetVariable x) ∧
      (m none).run p (j + 1) = .stopped (.failed ⟨2 + j, .unsetVariable x⟩) m' := by
  intro x e p m
  have hp : p.Holds 2 e.code := by decide +kernel
  have hset : e.eval (m (some (.int 4))).lookup = .ok (.int 3) := by decide +kernel
  have hunset : e.eval (m none).lookup = .error (.unsetVariable x) := by decide +kernel
  exact ⟨(run_code (m := m (some (.int 4))) hp).1 _ hset, (run_code (m := m none) hp).2 _ hunset⟩

end Machine

end FrameCode

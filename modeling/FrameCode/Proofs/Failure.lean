import FrameCode.Proofs.Step

/-! What an instruction that fails leaves behind: the machine as it was, but that values which
have been popped are gone and that the host has seen what it refused. -/

namespace FrameCode.Machine

/-- **An instruction that fails has done nothing but pop.** The position, all frames and the
calls that are open are as before, and so is the host unless it is the host that refused. The
operand stack is as before too, but for the opcodes that pop their values: they leave it empty
if it held too few, and without just the values popped if they fail for another cause. A
conditional jump whose label is at fault has popped nothing. -/
theorem failed_step_keeps (labels : LabelTable) (i : Instruction) (m : Machine) (e : RunError)
    (h : (m.step labels i).result = .error e) :
    let m' := (m.step labels i).machine
    (m'.position = m.position ∧ m'.globals = m.globals ∧ m'.temporary = m.temporary ∧
      m'.locals = m.locals ∧ m'.calls = m.calls ∧ m'.executed = m.executed) ∧
    ((∀ message, e.cause ≠ .host message) → m'.host = m.host) ∧
    (i.opcode.popped = 0 → m'.data = m.data) ∧
    (0 < i.opcode.popped →
      (e.cause = .emptyStack → m'.data = [] ∧ m.data.length < i.opcode.popped) ∧
      (∀ equal, i.opcode = .jumpIfStack equal → m.target labels i 0 = .error e → m'.data = m.data) ∧
      (e.cause ≠ .emptyStack →
        (∀ equal, i.opcode = .jumpIfStack equal → m.target labels i 0 ≠ .error e) →
        i.opcode.popped ≤ m.data.length ∧ m'.data = m.data.drop i.opcode.popped)) := by
  have hleaves := (step_outcome labels i m).leaves e h
  generalize (m.step labels i).machine = m' at hleaves
  cases hleaves with
  | whole none sound => simp [none]
  | refused none error refused => simp [none, error, Machine.error]
  | astray opcode target sound => simp [opcode, Opcode.popped, target, sound.supplied]
  | short aimed few error =>
    refine ⟨⟨rfl, rfl, rfl, rfl, rfl, rfl⟩, fun _ => rfl, fun hop => ?_, fun _ => ⟨?_, ?_, ?_⟩⟩
    · rw [hop] at few
      exact absurd few (Nat.not_lt_zero _)
    · exact fun _ => ⟨rfl, few⟩
    · exact fun equal hop htarget => absurd htarget (aimed equal hop e)
    · exact fun hcause => absurd (congrArg RunError.cause error) hcause
  | @late taken kept aimed before all sound =>
    have hkept : kept = m.data.drop i.opcode.popped := by rw [before, ← all, List.drop_left]
    refine ⟨⟨rfl, rfl, rfl, rfl, rfl, rfl⟩, fun _ => rfl, fun hop => ?_, fun _ => ⟨?_, ?_, ?_⟩⟩
    · rw [hkept, hop]
      rfl
    · exact fun hcause => absurd hcause sound.supplied
    · exact fun equal hop htarget => absurd htarget (aimed equal hop e)
    · refine fun _ _ => ⟨?_, hkept⟩
      rw [← all, before, List.length_append]
      exact Nat.le_add_right _ _

/-- A conditional jump that fails on its label, on its values, and for want of a second one. -/
theorem failed_jump_keeps :
    let labels := LabelTable.empty.insertNew "l" 1
    let jump (name : String) : Instruction := ⟨1, .jumpIfStack true, [.label name]⟩
    let m : Machine := { data := [.int 1, .bool true, .nil], calls := [7] }
    let single : Machine := { m with data := [.nil] }
    (m.step labels (jump "k")).machine.data = m.data ∧
      (m.step labels (jump "l")).machine.data = [.nil] ∧
      (m.step labels (jump "l")).machine.calls = [7] ∧
      (single.step labels (jump "l")).machine.data = [] := by
  intro labels jump m single
  have hlabel : (m.step labels (jump "k")).result = .error ⟨1, .undefinedLabel "k"⟩ := by
    decide +kernel
  have hvalues : (m.step labels (jump "l")).result =
      .error ⟨1, .rejected (.jumpIfStack true) (.incompatibleTypes .bool .int)⟩ := by decide +kernel
  have hshort : (single.step labels (jump "l")).result = .error ⟨1, .emptyStack⟩ := by
    decide +kernel
  obtain ⟨-, -, -, hkept⟩ := failed_step_keeps labels (jump "k") m _ hlabel
  obtain ⟨⟨-, -, -, -, hcalls, -⟩, -, -, hlost⟩ := failed_step_keeps labels (jump "l") m _ hvalues
  obtain ⟨-, -, -, hdrained⟩ := failed_step_keeps labels (jump "l") single _ hshort
  have haimed : m.target labels (jump "l") 0 = .ok 1 := by decide +kernel
  refine ⟨(hkept (by decide)).2.1 true rfl (by decide +kernel), ?_, hcalls,
    ((hdrained (by decide)).1 rfl).1⟩
  exact ((hlost (by decide)).2.2 (by decide) fun _ _ => by simp [haimed]).2

end FrameCode.Machine

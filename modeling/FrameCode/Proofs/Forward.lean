import FrameCode.Proofs.Repetition
import Mathlib.Algebra.GroupWithZero.Nat

/-! Programs in which jumps and calls only go forward. A RETURN goes back all the same, so that
the position alone does not say how far a run has come: `Machine.weight` also counts what is
left to do after each call that is open. Every instruction takes at least one off it. -/

namespace FrameCode

/-- The opcodes that go to the label of their first operand. -/
def Opcode.aims : Opcode → Bool
  | .call | .jump | .jumpIf _ | .jumpIfStack _ => true
  | _ => false

namespace Program

/-- Labels of jumps and calls are undefined or stand after the instruction that names them. -/
def Forward (p : Program) : Prop :=
  ∀ i ∈ p.instructions, i.opcode.aims = true → ∀ name ∈ i.operands.filterMap Operand.label?,
    ∀ target ∈ p.labels.resolve? name, i.position < target

instance (p : Program) : Decidable p.Forward :=
  inferInstanceAs (Decidable (∀ i ∈ p.instructions, i.opcode.aims = true →
    ∀ name ∈ i.operands.filterMap Operand.label?, ∀ target ∈ p.labels.resolve? name,
      i.position < target))

/-- How many instructions a forward run can execute from a position on before it comes to the
end or takes an open call back. -/
def reach (p : Program) (k : Nat) : Nat := 2 ^ (p.size + 1 - k) - 1

/-- Each further instruction doubles the reach: it may be a call, and what follows it then runs
twice. -/
theorem reach_eq {p : Program} {k : Nat} (h : k ≤ p.size) : p.reach k = 2 * p.reach (k + 1) + 1 := by
  have hstep : p.size + 1 - k = p.size + 1 - (k + 1) + 1 := by omega
  have hpos : 0 < 2 ^ (p.size + 1 - (k + 1)) := Nat.two_pow_pos _
  rw [reach, reach, hstep, Nat.pow_succ]
  omega

theorem reach_anti (p : Program) {j k : Nat} (h : j ≤ k) : p.reach k ≤ p.reach j := by
  have hpow : 2 ^ (p.size + 1 - k) ≤ 2 ^ (p.size + 1 - j) :=
    Nat.pow_le_pow_right Nat.two_pos (by omega)
  exact Nat.sub_le_sub_right hpow 1

end Program

namespace Machine

variable {p : Program} {m m' : Machine} {i : Instruction}

/-- How many instructions are left to a forward run at most: from where it is, and from behind
each call that is open. -/
def weight (p : Program) (m : Machine) : Nat :=
  p.reach m.position + (m.calls.map fun caller => p.reach (caller + 1)).sum

/-! ## Instructions are counted once -/

theorem executed_advance (hi : p.fetch? m.position = some i) :
    (m.advance p).machine.executed = m.executed + 1 := by
  have hprogress : ∀ s : Step, s.progress.machine.executed = s.machine.executed := by
    intro s
    unfold Step.progress
    split <;> rfl
  rw [advance_of_some hi, hprogress, (step_samePlace p.labels i m.counted).2]
  rfl

/-! ## One instruction -/

/-- Of the instructions whose operand is a label, only LABEL does not go there. -/
theorem aims_of_jump (hi : i.Conforms) {labels : LabelTable} {name : String} {target : Nat}
    (ho : i.operand? 0 = some (.label name))
    (h : (m.step labels i).result = .ok (.jump target)) : i.opcode.aims = true := by
  have hslot : ∀ slot, i.opcode.signature[0]? = some slot → slot = .label := by
    intro slot hs
    obtain ⟨o, ho', haccepts⟩ := hi.operand?_eq_some hs
    cases ho.symm.trans ho'
    exact (Slot.accepts_label_iff.mp haccepts).1
  have hsome : i.opcode.signature ≠ [] := by
    intro hnil
    have hlength := hi.length_eq
    rw [hnil] at hlength
    rw [Instruction.operand?, List.eq_nil_of_length_eq_zero hlength.symm] at ho
    cases ho
  cases hop : i.opcode with
  | call | jump | jumpIf _ | jumpIfStack _ => rfl
  | label =>
    simp only [step, hop] at h
    cases h
  | _ => simp [hop, Opcode.signature] at hslot hsome

theorem lt_of_aimed (hp : p.WellFormed) (hforward : p.Forward) (hi : p.fetch? m.position = some i)
    (haims : i.opcode.aims = true) {name : String} {target : Nat}
    (ho : i.operand? 0 = some (.label name)) (hr : p.labels.resolve? name = some target) :
    m.position < target := by
  obtain ⟨index, hindex, -⟩ := Program.fetch?_eq_some_iff.mp hi
  have hmem : name ∈ i.operands.filterMap Operand.label? :=
    List.mem_filterMap.mpr ⟨.label name, List.mem_of_getElem? ho, rfl⟩
  rw [← hp.position_of_fetch? hi]
  exact hforward i (Array.mem_of_getElem? hindex) haims name hmem target hr

/-- An instruction after which the run goes on makes the machine lighter. -/
theorem weight_lt (hp : p.WellFormed) (hforward : p.Forward) (h : m.advance p = .running m') :
    m'.weight p < m.weight p := by
  cases hi : p.fetch? m.position with
  | none =>
    rw [advance_of_none hi] at h
    cases h
  | some i =>
    obtain ⟨-, hle⟩ := Program.bounds_of_fetch? hi
    have hreach := Program.reach_eq hle
    obtain ⟨hpos, turn⟩ := step_turns p.labels i m.counted
    have haims : ∀ name target, i.operand? 0 = some (.label name) →
        (m.counted.step p.labels i).result = .ok (.jump target) → i.opcode.aims = true :=
      fun _ _ => aims_of_jump (hp.conforms_of_fetch? hi)
    rw [advance_of_some hi] at h
    generalize m.counted.step p.labels i = s at hpos turn haims h
    change s.machine.position = m.position at hpos
    change Turn p.labels i m.position m.calls s at turn
    unfold Step.progress at h
    cases turn with
    | next flow kept =>
      rw [flow] at h
      cases h
      simp only [weight, kept, hpos]
      omega
    | @jump name target operand resolved flow kept =>
      rw [flow] at h
      cases h
      have hlt := lt_of_aimed hp hforward hi (haims _ _ operand flow) operand resolved
      have hnext : p.reach target ≤ p.reach (m.position + 1) := p.reach_anti hlt
      simp only [weight, kept]
      omega
    | @call name target opcode operand resolved flow pushed =>
      rw [flow] at h
      cases h
      have hlt := lt_of_aimed hp hforward hi (by rw [opcode]; rfl) operand resolved
      have hnext : p.reach target ≤ p.reach (m.position + 1) := p.reach_anti hlt
      simp only [weight, pushed, List.map_cons, List.sum_cons]
      omega
    | ret opcode flow popped =>
      rw [flow] at h
      cases h
      simp only [weight, popped, List.map_cons, List.sum_cons]
      omega
    | halt opcode bound flow kept | fail flow kept =>
      rw [flow] at h
      cases h

/-! ## Whole runs -/

/-- A forward run stops when its weight is used up, if not before. -/
theorem stops_of_weight_lt (hp : p.WellFormed) (hforward : p.Forward) {fuel : Nat}
    (h : m.weight p < fuel) : ∃ why m', m.run p fuel = .stopped why m' := by
  induction fuel generalizing m with
  | zero => exact absurd h (Nat.not_lt_zero _)
  | succ fuel ih =>
    cases hadv : m.advance p with
    | running next =>
      have hnext := weight_lt hp hforward hadv
      rw [run_succ_of_running hadv]
      exact ih (by omega)
    | stopped why next => exact ⟨why, next, run_succ_of_stopped hadv fuel⟩

/-- No more instructions are executed than the machine weighs. -/
theorem executed_le_of_stopped (hp : p.WellFormed) (hforward : p.Forward) {fuel : Nat} {why : Stop}
    (h : m.run p fuel = .stopped why m') : m'.executed ≤ m.executed + m.weight p := by
  induction fuel generalizing m with
  | zero => cases h
  | succ fuel ih =>
    cases hi : p.fetch? m.position with
    | none =>
      rw [run_succ_of_stopped (advance_of_none hi)] at h
      cases h
      exact Nat.le_add_right _ _
    | some i =>
      have hcount := executed_advance hi
      cases hadv : m.advance p with
      | running next =>
        rw [hadv, Progress.machine_running] at hcount
        rw [run_succ_of_running hadv] at h
        have hrest := ih h
        have hnext := weight_lt hp hforward hadv
        omega
      | stopped why' next =>
        rw [hadv, Progress.machine_stopped] at hcount
        rw [run_succ_of_stopped hadv] at h
        cases h
        -- the instruction at which the run stops is within reach of itself
        have hreach := Program.reach_eq (Program.bounds_of_fetch? hi).2
        simp only [weight]
        omega

/-- **Forward programs come to an end.** If each jump and each call of a loaded program goes to
a label after itself, or to one that is not defined, then the program stops on every host, also
where subroutines return to before; and it has executed at most one instruction less than two
to the power of their number. -/
theorem forward_stops {nodes : List Node} {p : Program} (h : Program.load nodes = .ok p)
    (hforward : p.Forward) (host : Host) :
    (∃ answer m', (Machine.start host).Executes p answer m') ∧
    ∀ answer m', (Machine.start host).Executes p answer m' → m'.executed ≤ 2 ^ p.size - 1 := by
  have hp := Program.wellFormed_of_load h
  constructor
  · obtain ⟨why, m', hrun⟩ := stops_of_weight_lt hp hforward (Nat.lt_succ_self ((start host).weight p))
    exact ⟨why.status, m', _, why, hrun, rfl⟩
  · rintro answer m' ⟨fuel, why, hrun, -⟩
    have hle := executed_le_of_stopped hp hforward hrun
    have hstart : (start host).weight p = 2 ^ p.size - 1 := by simp [weight, start, Program.reach]
    have hzero : (start host).executed = 0 := rfl
    rwa [hstart, hzero, Nat.zero_add] at hle

/-- A subroutine that is called twice and then run into: of four instructions eight are
executed. -/
theorem forward_stops_after_eight :
    let call (order : String) : Node :=
      { order := some order, opcode := some "CALL", children := [⟨"arg1", some "label", "sub"⟩] }
    let nodes : List Node := [call "1", call "2",
      { order := some "3", opcode := some "LABEL", children := [⟨"arg1", some "label", "sub"⟩] },
      { order := some "4", opcode := some "RETURN" }]
    ∃ p m', Program.load nodes = .ok p ∧ p.Forward ∧
      (Machine.start {}).Executes p (.error ⟨4, .emptyCallStack⟩) m' ∧ m'.executed = 8 ∧
      m'.executed ≤ 2 ^ p.size - 1 := by
  intro call nodes
  have hload : ∃ p m', Program.load nodes = .ok p ∧ p.Forward ∧
      (Machine.start {}).run p 9 = .stopped (.failed ⟨4, .emptyCallStack⟩) m' ∧ m'.executed = 8 :=
    ⟨_, _, rfl, by decide +kernel, rfl, rfl⟩
  obtain ⟨p, m', hp, hforward, hrun, hexecuted⟩ := hload
  have hexec : (Machine.start {}).Executes p (.error ⟨4, .emptyCallStack⟩) m' := ⟨9, _, hrun, rfl⟩
  exact ⟨p, m', hp, hforward, hexec, hexecuted, (forward_stops hp hforward {}).2 _ m' hexec⟩

end Machine

end FrameCode

import FrameCode.Proofs.Correspondence
import FrameCode.Proofs.Run

/-! Programs that are executed again after they have stopped. An instruction that stopped the
program without changing anything stops it again, however often: only BREAK can see how many
instructions have been executed (`Machine.result_recount`), and nothing else is different. -/

namespace FrameCode

/-- The result of an instruction that stops a program so. The end of the program is no
instruction's result. -/
def Stop.stepResult : Stop → Option (Except RunError Flow)
  | ended => none
  | exited status => some (.ok (.halt status))
  | failed e => some (.error e)

theorem Step.progress_eq_stopped_iff {s : Step} {why : Stop} {m : Machine} :
    s.progress = .stopped why m ↔ why.stepResult = some s.result ∧ s.machine = m := by
  obtain ⟨machine, result⟩ := s
  cases result with
  | error e => cases why <;> simp [progress, Stop.stepResult, eq_comm]
  | ok flow => cases flow <;> cases why <;> simp [progress, Stop.stepResult, eq_comm]

namespace Machine

/-! ## Machines that have counted differently -/

/-- The machine with another number of instructions executed. -/
def recount (n : Nat) (m : Machine) : Machine := { m with executed := n }

/-- Everything is the same but the number of instructions executed. -/
def recounting : Correspondence := ⟨.identity, id, fun _ _ => True, Eq⟩

theorem machines_recount (n : Nat) (m : Machine) : recounting.Machines m (m.recount n) where
  globals := .identity m.globals
  temporary := by
    show Option.Rel (Frame.Renamed .identity) m.temporary m.temporary
    cases m.temporary with
    | none => exact .none
    | some f => exact .some (.identity f)
  locals := List.forall₂_same.mpr fun f _ => .identity f
  data := rfl
  calls := (List.map_id m.calls).symm
  position := rfl
  executed := trivial
  input := rfl
  output := rfl
  diagnostics := rfl

variable {labels : LabelTable} {i : Instruction} {m m' : Machine} {why : Stop}

theorem result_recount (hop : i.opcode ≠ .breakpoint) (n : Nat) (m : Machine) :
    ((m.recount n).step labels i).result = (m.step labels i).result := by
  have hresolves : recounting.Resolves labels labels i := fun name _ => Option.map_id_apply.symm
  have hsteps := Correspondence.step_of_written hresolves (machines_recount n m)
    (fun text => ⟨rfl, rfl⟩) fun h => absurd h hop
  have hinstruction : recounting.instruction i = i := Instruction.rename_identity i
  rw [hinstruction] at hsteps
  have hresult := hsteps.result
  generalize (m.step labels i).result = r, ((m.recount n).step labels i).result = r' at hresult ⊢
  cases hresult with
  | error e =>
    have herror : recounting.error e = e :=
      congrArg (RunError.mk e.position) e.cause.rename_identity
    rw [herror]
  | ok flow =>
    cases flow with
    | next | jump target | back caller | halt status => rfl

/-! ## Instructions that stop a program and change nothing -/

/-- The instruction exits, or it fails before it has popped anything and not by the host. -/
inductive Stuck (i : Instruction) : Stop → Prop
  | exit {status : Nat} (opcode : i.opcode = .exit) : Stuck i (.exited status)
  | fail {e : RunError} (unpopped : i.opcode.popped = 0) (own : ∀ message, e.cause ≠ .host message) :
    Stuck i (.failed e)

/-- Only the host can make a BREAK fail. -/
theorem cause_of_breakpoint (hop : i.opcode = .breakpoint) {e : RunError}
    (h : (m.step labels i).result = .error e) : ∃ message, e.cause = .host message := by
  simp only [step, hop, diagnose] at h
  split at h
  · next message _ =>
    cases h
    exact ⟨message, rfl⟩
  · cases h

/-- An exit changes nothing. -/
theorem machine_of_exit (hop : i.opcode = .exit) : (m.step labels i).machine = m := by
  simp only [step, hop]
  generalize (do return Flow.halt (← m.accept i (← m.symbol i 0).exitStatus) : Except RunError Flow) = r
  cases r <;> rfl

namespace Stuck

theorem machine_eq (h : Stuck i why) (hs : (m.step labels i).progress = .stopped why m') :
    (m.step labels i).machine = m := by
  cases h with
  | exit opcode => exact machine_of_exit opcode
  | fail unpopped own =>
    obtain ⟨hresult, -⟩ := Step.progress_eq_stopped_iff.mp hs
    have hleaves := (step_outcome labels i m).leaves _ (Option.some.inj hresult).symm
    generalize (m.step labels i).machine = left at hleaves
    cases hleaves with
    | whole none sound => rfl
    | refused none error refused => exact absurd (congrArg RunError.cause error) (own _)
    | astray opcode target sound => rfl
    | short aimed few error =>
      rw [unpopped] at few
      exact absurd few (Nat.not_lt_zero _)
    | late aimed before all sound =>
      rw [unpopped, List.length_eq_zero_iff] at all
      rw [all, List.nil_append] at before
      rw [← before]

theorem ne_breakpoint (h : Stuck i why) (hs : (m.step labels i).progress = .stopped why m') :
    i.opcode ≠ .breakpoint := by
  cases h with
  | exit opcode => simp [opcode]
  | fail unpopped own =>
    intro hop
    obtain ⟨hresult, -⟩ := Step.progress_eq_stopped_iff.mp hs
    obtain ⟨message, hcause⟩ := cause_of_breakpoint hop (Option.some.inj hresult).symm
    exact own message hcause

/-- However many instructions have been executed, the instruction stops the program again. -/
theorem step_again (h : Stuck i why) (hs : (m.step labels i).progress = .stopped why m') (n : Nat) :
    ((m.recount n).step labels i).progress = .stopped why (m.recount n) := by
  have hresult : ((m.recount n).step labels i).result = (m.step labels i).result :=
    result_recount (h.ne_breakpoint hs) n m
  obtain ⟨hwhy, -⟩ := Step.progress_eq_stopped_iff.mp hs
  have hagain : ((m.recount n).step labels i).progress = .stopped why _ :=
    Step.progress_eq_stopped_iff.mpr ⟨hwhy.trans (congrArg some hresult.symm), rfl⟩
  rwa [h.machine_eq hagain] at hagain

end Stuck

variable {p : Program} {last : Machine}

/-- A machine that has stopped is after the program, or at the instruction that stopped it. -/
theorem stopped_at (h : last.advance p = .stopped why m) :
    (p.fetch? m.position = none ∧ why = .ended) ∨
      ∃ i, p.fetch? m.position = some i ∧
        (last.counted.step p.labels i).progress = .stopped why m := by
  cases hi : p.fetch? last.position with
  | none =>
    rw [advance_of_none hi] at h
    cases h
    exact .inl ⟨hi, rfl⟩
  | some i =>
    rw [advance_of_some hi] at h
    obtain ⟨-, hmachine⟩ := Step.progress_eq_stopped_iff.mp h
    have hposition : m.position = last.position := by
      rw [← hmachine]
      exact (step_samePlace p.labels i last.counted).1
    exact .inr ⟨i, hposition ▸ hi, h⟩

theorem advance_of_ended (h : last.advance p = .stopped .ended m) :
    m.advance p = .stopped .ended m := by
  rcases stopped_at h with ⟨hnone, -⟩ | ⟨i, -, hs⟩
  · exact advance_of_none hnone
  · obtain ⟨hresult, -⟩ := Step.progress_eq_stopped_iff.mp hs
    cases hresult

theorem opcode_of_exited {status : Nat} (h : last.advance p = .stopped (.exited status) m) :
    ∃ i, p.fetch? m.position = some i ∧ i.opcode = .exit := by
  rcases stopped_at h with ⟨-, hwhy⟩ | ⟨i, hi, hs⟩
  · cases hwhy
  · refine ⟨i, hi, ?_⟩
    obtain ⟨hresult, -⟩ := Step.progress_eq_stopped_iff.mp hs
    obtain ⟨-, turn⟩ := step_turns p.labels i last.counted
    cases turn with
    | halt opcode bound flow kept => exact opcode
    | next flow kept | jump operand resolved flow kept | call opcode operand resolved flow pushed
    | ret opcode flow popped | fail flow kept =>
      rw [flow] at hresult
      cases hresult

/-- An instruction that stopped the machine `m` stops it again, and each time is counted. -/
theorem advance_again (hi : p.fetch? m.position = some i) (h : Stuck i why)
    (hlast : last.advance p = .stopped why m) (n : Nat) :
    (m.recount n).advance p = .stopped why (m.recount (n + 1)) := by
  rcases stopped_at hlast with ⟨hnone, -⟩ | ⟨j, hj, hs⟩
  · rw [hi] at hnone
    cases hnone
  · obtain rfl : i = j := Option.some.inj (hi.symm.trans hj)
    obtain ⟨-, hmachine⟩ := Step.progress_eq_stopped_iff.mp hs
    obtain rfl : last.counted = m := (h.machine_eq hs).symm.trans hmachine
    have hrecount : p.fetch? (recount n last.counted).position = some i := hi
    rw [advance_of_some hrecount]
    exact h.step_again hs (n + 1)

/-! ## Calls one after the other -/

/-- A call that executes the program until it stops: what it answers, and the machine that
it leaves. -/
def Executes (p : Program) (m : Machine) (answer : Except RunError Nat) (m' : Machine) : Prop :=
  ∃ fuel why, m.run p fuel = .stopped why m' ∧ why.status = answer

/-- Such calls one after the other, on one machine. -/
inductive Executions (p : Program) : Machine → List (Except RunError Nat) → Machine → Prop
  | nil (m : Machine) : Executions p m [] m
  | cons {m m' last : Machine} {answer : Except RunError Nat} {answers : List (Except RunError Nat)}
    (call : m.Executes p answer m') (rest : Executions p m' answers last) :
    Executions p m (answer :: answers) last

theorem Executes.unique {answer answer' : Except RunError Nat} {m₁ m₂ : Machine}
    (h : m.Executes p answer m₁) (h' : m.Executes p answer' m₂) : answer = answer' ∧ m₁ = m₂ := by
  obtain ⟨fuel, why, hrun, rfl⟩ := h
  obtain ⟨fuel', why', hrun', rfl⟩ := h'
  obtain ⟨rfl, rfl⟩ := stop_unique hrun hrun'
  exact ⟨rfl, rfl⟩

theorem executes_of_stopped (h : m.advance p = .stopped why m') : m.Executes p why.status m' :=
  ⟨1, why, run_succ_of_stopped h 0, rfl⟩

/-- Machines of which each one stops at once and leaves the next one. -/
theorem executions_iff {f : Nat → Machine} (hf : ∀ k, (f k).advance p = .stopped why (f (k + 1)))
    {answers : List (Except RunError Nat)} (k n : Nat) :
    (f k).Executions p answers last ∧ answers.length = n ↔
      answers = List.replicate n why.status ∧ last = f (k + n) := by
  have hcall (k : Nat) : (f k).Executes p why.status (f (k + 1)) := executes_of_stopped (hf k)
  induction n generalizing k answers with
  | zero =>
    constructor
    · rintro ⟨hexec, hlength⟩
      obtain rfl := List.length_eq_zero_iff.mp hlength
      cases hexec
      exact ⟨rfl, rfl⟩
    · rintro ⟨rfl, rfl⟩
      exact ⟨.nil _, rfl⟩
  | succ n ih =>
    have hnext : k + (n + 1) = k + 1 + n := by omega
    rw [List.replicate_succ, hnext]
    constructor
    · rintro ⟨hexec, hlength⟩
      cases hexec with
      | nil => cases hlength
      | cons call rest =>
        obtain ⟨rfl, rfl⟩ := call.unique (hcall k)
        obtain ⟨rfl, rfl⟩ := (ih (k + 1)).mp ⟨rest, Nat.succ.inj hlength⟩
        exact ⟨rfl, rfl⟩
    · rintro ⟨rfl, rfl⟩
      obtain ⟨hrest, hlength⟩ := (ih (k + 1)).mpr ⟨rfl, rfl⟩
      exact ⟨.cons (hcall k) hrest, congrArg Nat.succ hlength⟩

/-- **A program that has stopped stays stopped.** At the end of the program each further call
answers 0 and changes nothing. After an exit each call answers the same status, and after an
error of an instruction that pops nothing and asks nothing of the host the same error; all that
such a call changes is the number of instructions executed, by one. -/
theorem executions_after_stop {p : Program} {m m' : Machine} {fuel : Nat} {why : Stop}
    (h : m.run p fuel = .stopped why m') (n : Nat) (answers : List (Except RunError Nat))
    (last : Machine) :
    (why = .ended → (m'.Executions p answers last ∧ answers.length = n ↔
      answers = List.replicate n (.ok 0) ∧ last = m')) ∧
    (∀ status, why = .exited status → (m'.Executions p answers last ∧ answers.length = n ↔
      answers = List.replicate n (.ok status) ∧ last = { m' with executed := m'.executed + n })) ∧
    ∀ e, why = .failed e → ∃ i, p.fetch? m'.position = some i ∧
      ((∀ message, e.cause ≠ .host message) → i.opcode.popped = 0 →
        (m'.Executions p answers last ∧ answers.length = n ↔
          answers = List.replicate n (.error e) ∧
          last = { m' with executed := m'.executed + n })) := by
  obtain ⟨_, before, -, hlast⟩ := exists_last_of_stopped h
  refine ⟨?_, ?_, ?_⟩
  · rintro rfl
    have hagain : ∀ k : Nat, m'.advance p = .stopped .ended m' := fun _ => advance_of_ended hlast
    exact executions_iff hagain 0 n
  · rintro status rfl
    obtain ⟨i, hi, hop⟩ := opcode_of_exited hlast
    have hagain := advance_again hi (.exit hop) hlast
    exact executions_iff hagain m'.executed n
  · rintro e rfl
    rcases stopped_at hlast with ⟨-, hwhy⟩ | ⟨i, hi, -⟩
    · cases hwhy
    · refine ⟨i, hi, fun hown hop => ?_⟩
      have hagain := advance_again hi (.fail hop hown) hlast
      exact executions_iff hagain m'.executed n

/-- A variable that has not been declared, and three more calls. -/
theorem executions_after_undeclared :
    let x : Variable := ⟨.globals, "x"⟩
    let p : Program := {
      instructions := #[⟨1, .pushs, [.const (.int 1)]⟩,
        ⟨2, .binary .add, [.var x, .const (.int 1), .const (.int 2)]⟩]
      labels := .empty }
    let e : RunError := ⟨2, .undefinedVariable x⟩
    let m : Machine := { data := [.int 1], position := 2, executed := 2 }
    (Machine.start {}).run p 9 = .stopped (.failed e) m ∧
      m.Executions p [.error e, .error e, .error e] { m with executed := 5 } := by
  intro x p e m
  have hrun : (Machine.start {}).run p 9 = .stopped (.failed e) m := rfl
  have hcalls := executions_after_stop hrun 3 [.error e, .error e, .error e] { m with executed := 5 }
  obtain ⟨-, -, hfailed⟩ := hcalls
  obtain ⟨i, hi, hagain⟩ := hfailed e rfl
  cases hi
  exact ⟨hrun, ((hagain (by simp [e]) rfl).mpr ⟨rfl, rfl⟩).1⟩

end Machine

end FrameCode

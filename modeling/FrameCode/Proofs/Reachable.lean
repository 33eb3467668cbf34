import FrameCode.Machine.Run
import FrameCode.Proofs.Load
import FrameCode.Proofs.Step

/-! Every state that a loaded program can be in. A run goes on from instruction to
instruction, and one that stopped may be taken up again; whatever has happened, the
machine stands at an instruction or right after the last one, and each call that is
open was made by a CALL (`Reachable.placed`). From this follow the ways in which a run
can stop. -/

namespace FrameCode

/-- The state in which a run has got to, stopped or not. -/
def Progress.machine : Progress → Machine
  | running m => m
  | stopped _ m => m

/-- How a run goes on after a step. -/
def Step.progress (s : Step) : Progress :=
  match s.result with
  | .ok .next => .running { s.machine with position := s.machine.position + 1 }
  | .ok (.jump position) => .running { s.machine with position }
  | .ok (.halt status) => .stopped (.exited status) s.machine
  | .error e => .stopped (.failed e) s.machine

/-- The states of one machine that runs a program: from the start on, and from any
state on, be it one in which the run stopped. -/
inductive Reachable (p : Program) (host : Host) : Machine → Prop
  | start : Reachable p host (.start host)
  | advance {m : Machine} (before : Reachable p host m) : Reachable p host (m.advance p).machine

/-- There is a CALL at the position, of a label that is defined. -/
def Program.CallsAt (p : Program) (k : Nat) : Prop :=
  ∃ i name target, p.fetch? k = some i ∧ i.opcode = .call ∧ i.operands = [.label name] ∧
    p.labels.resolve? name = some target

namespace Machine

/-! ## Flow and calls -/

/-- Where a step sends the program from the position `here`, and what becomes of the
call stack. These are all the possibilities. -/
inductive Turn (labels : LabelTable) (i : Instruction) (here : Nat) (calls : Stack Nat) (s : Step) :
    Prop
  | next (flow : s.result = .ok .next) (kept : s.machine.calls = calls)
  | jump {name : String} {target : Nat} (operand : i.operand? 0 = some (.label name))
    (resolved : labels.resolve? name = some target) (flow : s.result = .ok (.jump target))
    (kept : s.machine.calls = calls)
  | call {name : String} {target : Nat} (opcode : i.opcode = .call)
    (operand : i.operand? 0 = some (.label name)) (resolved : labels.resolve? name = some target)
    (flow : s.result = .ok (.jump target)) (pushed : s.machine.calls = here :: calls)
  | ret {caller : Nat} (opcode : i.opcode = .ret) (flow : s.result = .ok (.jump (caller + 1)))
    (popped : calls = caller :: s.machine.calls)
  | halt {status : Nat} (opcode : i.opcode = .exit) (bound : status ≤ 9)
    (flow : s.result = .ok (.halt status)) (kept : s.machine.calls = calls)
  | fail {e : RunError} (flow : s.result = .error e) (kept : s.machine.calls = calls)

/-- A step leaves the position to its flow. -/
structure Turns (labels : LabelTable) (i : Instruction) (m : Machine) (s : Step) : Prop where
  position : s.machine.position = m.position
  turn : Turn labels i m.position m.calls s

section Turns

variable {labels : LabelTable} {i : Instruction} {m m' : Machine} {flow : Flow}

theorem Goes.turn (h : Goes labels i flow) (kept : m'.calls = m.calls) :
    Turn labels i m.position m.calls ⟨m', .ok flow⟩ := by
  cases h with
  | next => exact .next rfl kept
  | jump operand resolved => exact .jump operand resolved rfl kept
  | halt opcode bound => exact .halt opcode bound rfl kept

theorem Effect.turn (h : Effect labels i m flow m') :
    Turn labels i m.position m.calls ⟨m', .ok flow⟩ := by
  cases h with
  | none opcode goes => exact goes.turn rfl
  | stacked opcode goes => exact goes.turn rfl
  | called opcode operand resolved => exact .call opcode operand resolved rfl rfl
  | returned opcode top => exact .ret opcode rfl top
  | declared | written =>
    rw [setFrame_framesOnly m _ _]
    exact .next rfl rfl
  | created | pushed | popped | cleared | output | diagnosed => exact .next rfl rfl

theorem step_turns (labels : LabelTable) (i : Instruction) (m : Machine) :
    Turns labels i m (m.step labels i) where
  position := (step_samePlace labels i m).1
  turn := (step_outcome labels i m).elim (P := Turn labels i m.position m.calls)
    (fun _ _ heffect => heffect.turn) fun _ _ hleaves => .fail rfl hleaves.same.2

end Turns

/-- The machine stands at an instruction or right after the last one, and calls that
are open were made by calls. -/
structure Placed (p : Program) (m : Machine) : Prop where
  lower : 1 ≤ m.position
  upper : m.position ≤ p.size + 1
  calls : ∀ k ∈ m.calls, p.CallsAt k

/-! ## One instruction -/

/-- An instruction runs on the machine that has counted it. -/
def counted (m : Machine) : Machine := { m with executed := m.executed + 1 }

theorem advance_of_none {p : Program} {m : Machine} (h : p.fetch? m.position = none) :
    m.advance p = .stopped .ended m := by
  simp [advance, h]

theorem advance_of_some {p : Program} {m : Machine} {i : Instruction}
    (h : p.fetch? m.position = some i) : m.advance p = (m.counted.step p.labels i).progress := by
  simp only [advance, h]
  rfl

theorem callsAt_of_call {p : Program} (hp : p.WellFormed) {k : Nat} {i : Instruction} {name : String}
    {target : Nat} (hi : p.fetch? k = some i) (hop : i.opcode = .call)
    (ho : i.operand? 0 = some (.label name)) (hr : p.labels.resolve? name = some target) :
    p.CallsAt k := by
  refine ⟨i, name, target, hi, hop, ?_, hr⟩
  have hconf := hp.conforms_of_fetch? hi
  simp only [Instruction.Conforms, hop, Opcode.signature, List.forall₂_cons_left_iff,
    List.forall₂_nil_left_iff] at hconf
  obtain ⟨o, _, -, rfl, hops⟩ := hconf
  simpa [Instruction.operand?, hops] using ho

/-- One instruction keeps the machine in the program. The position of a call is one
that RETURN can go back to, and what follows it is still within bounds. -/
theorem Placed.advance {p : Program} (hp : p.WellFormed) {m : Machine} (hm : m.Placed p) :
    (m.advance p).machine.Placed p := by
  cases hi : p.fetch? m.position with
  | none =>
    rw [advance_of_none hi]
    exact hm
  | some i =>
    obtain ⟨hpos, turn⟩ := step_turns p.labels i m.counted
    obtain ⟨_, hupper⟩ := Program.bounds_of_fetch? hi
    rw [advance_of_some hi]
    generalize m.counted.step p.labels i = s at hpos turn
    change s.machine.position = m.position at hpos
    change Turn p.labels i m.position m.calls s at turn
    unfold Step.progress
    cases turn with
    | next flow kept =>
      rw [flow]
      refine ⟨Nat.succ_pos _, ?_, kept ▸ hm.calls⟩
      show s.machine.position + 1 ≤ p.size + 1
      omega
    | jump operand resolved flow kept =>
      rw [flow]
      obtain ⟨_, htarget, _⟩ := hp.resolve?_eq_some_iff.mp resolved
      obtain ⟨hlower, hupper⟩ := Program.bounds_of_fetch? htarget
      exact ⟨hlower, Nat.le_succ_of_le hupper, kept ▸ hm.calls⟩
    | call opcode operand resolved flow pushed =>
      rw [flow]
      obtain ⟨_, htarget, _⟩ := hp.resolve?_eq_some_iff.mp resolved
      obtain ⟨hlower, hupper⟩ := Program.bounds_of_fetch? htarget
      refine ⟨hlower, Nat.le_succ_of_le hupper, fun k hk => ?_⟩
      change k ∈ s.machine.calls at hk
      rw [pushed] at hk
      rcases List.mem_cons.mp hk with rfl | hk
      · exact callsAt_of_call hp hi opcode operand resolved
      · exact hm.calls k hk
    | @ret caller opcode flow popped =>
      rw [flow]
      have hcaller : caller ∈ m.calls := popped ▸ List.mem_cons_self
      obtain ⟨_, _, _, hfetch, _⟩ := hm.calls caller hcaller
      obtain ⟨_, hupper⟩ := Program.bounds_of_fetch? hfetch
      refine ⟨Nat.succ_pos _, Nat.succ_le_succ hupper, fun k hk => hm.calls k ?_⟩
      rw [popped]
      exact List.mem_cons_of_mem _ hk
    | halt opcode bound flow kept =>
      rw [flow]
      exact ⟨hpos ▸ hm.lower, hpos ▸ hm.upper, kept ▸ hm.calls⟩
    | fail flow kept =>
      rw [flow]
      exact ⟨hpos ▸ hm.lower, hpos ▸ hm.upper, kept ▸ hm.calls⟩

/-- The ways in which a machine can stop: after the last instruction, or at an
instruction that exits or fails and stays where it is. -/
inductive Stops (p : Program) (m : Machine) : Stop → Machine → Prop
  | ended (after : m.position = p.size + 1) : Stops p m .ended m
  | exited {i : Instruction} {status : Nat} {m' : Machine} (fetched : p.fetch? m.position = some i)
    (bound : status ≤ 9) (stays : m'.position = m.position) : Stops p m (.exited status) m'
  | failed {i : Instruction} {e : RunError} {m' : Machine} (fetched : p.fetch? m.position = some i)
    (cause : m.Ordinary e ∨
      ∃ message, e = m.error (.host message) ∧ m.host.Refuses message m'.host)
    (stays : m'.position = m.position) : Stops p m (.failed e) m'

theorem stops_of_advance {p : Program} (hp : p.WellFormed) {m m' : Machine} {why : Stop}
    (hm : m.Placed p) (h : m.advance p = .stopped why m') : Stops p m why m' := by
  cases hi : p.fetch? m.position with
  | none =>
    rw [advance_of_none hi] at h
    cases h
    have hout := Program.fetch?_eq_none_iff.mp hi
    have hlower := hm.lower
    have hupper := hm.upper
    exact .ended (by omega)
  | some i =>
    obtain ⟨hpos, turn⟩ := step_turns p.labels i m.counted
    have hleaves := (step_outcome p.labels i m.counted).leaves
    rw [advance_of_some hi] at h
    generalize m.counted.step p.labels i = s at hpos turn hleaves h
    unfold Step.progress at h
    cases turn with
    | next flow kept | jump operand resolved flow kept | call opcode operand resolved flow pushed
    | ret opcode flow popped =>
      rw [flow] at h
      cases h
    | halt opcode bound flow kept =>
      rw [flow] at h
      cases h
      exact .exited hi bound hpos
    | fail flow kept =>
      rw [flow] at h
      cases h
      exact .failed hi ((hleaves _ flow).proper (hp.conforms_of_fetch? hi)) hpos

/-- A run that stopped did so at its last instruction. -/
theorem exists_last_of_stopped {p : Program} {m m' : Machine} {fuel : Nat} {why : Stop}
    (h : m.run p fuel = .stopped why m') :
    ∃ k last, m.run p k = .running last ∧ last.advance p = .stopped why m' := by
  induction fuel generalizing m with
  | zero => cases h
  | succ fuel ih =>
    unfold run at h
    cases hadv : m.advance p with
    | running next =>
      rw [hadv] at h
      obtain ⟨k, last, hrun, hlast⟩ := ih h
      exact ⟨k + 1, last, by simp only [run, hadv, hrun], hlast⟩
    | stopped why' next =>
      rw [hadv] at h
      cases h
      exact ⟨0, m, rfl, hadv⟩

end Machine

/-! ## Any number of instructions -/

namespace Reachable

variable {p : Program} {host : Host} {m : Machine}

theorem placed (hp : p.WellFormed) (h : Reachable p host m) : m.Placed p := by
  induction h with
  | start => exact ⟨Nat.le_refl 1, Nat.succ_pos _, fun k hk => by cases hk⟩
  | advance _ ih => exact ih.advance hp

theorem run (h : Reachable p host m) (fuel : Nat) : Reachable p host (m.run p fuel).machine := by
  induction fuel generalizing m with
  | zero => exact h
  | succ fuel ih =>
    have hnext := h.advance
    unfold Machine.run
    cases hadv : m.advance p with
    | running m' =>
      rw [hadv] at hnext
      exact ih hnext
    | stopped why m' =>
      rw [hadv] at hnext
      exact hnext

theorem exists_last (h : Reachable p host m) {fuel : Nat} {why : Stop} {m' : Machine}
    (hr : m.run p fuel = .stopped why m') :
    ∃ last, Reachable p host last ∧ last.advance p = .stopped why m' := by
  obtain ⟨k, last, hrun, hlast⟩ := Machine.exists_last_of_stopped hr
  have hreached := h.run k
  rw [hrun] at hreached
  exact ⟨last, hreached, hlast⟩

end Reachable

/-! ## Loaded programs -/

/-- **A loaded program never leaves its instructions.** In every state of every run the
position is that of an instruction or the one after the last, each call that is open
was made by a CALL of a label that is defined, and the end of the program is reported
there and only there. -/
theorem position_and_calls_of_reachable {nodes : List Node} {p : Program} {host : Host} {m : Machine}
    (h : Program.load nodes = .ok p) (hm : Reachable p host m) :
    (1 ≤ m.position ∧ m.position ≤ p.size + 1) ∧
    (∀ k ∈ m.calls, ∃ i name target, p.fetch? k = some i ∧ i.opcode = .call ∧
      i.operands = [.label name] ∧ p.labels.resolve? name = some target) ∧
    (m.advance p = .stopped .ended m ↔ m.position = p.size + 1) ∧
    ∀ fuel why m', m.run p fuel = .stopped why m' → (why = .ended ↔ m'.position = p.size + 1) := by
  have hp := Program.wellFormed_of_load h
  have hplaced := hm.placed hp
  refine ⟨⟨hplaced.lower, hplaced.upper⟩, hplaced.calls, ⟨fun hadv => ?_, fun hpos => ?_⟩, ?_⟩
  · cases Machine.stops_of_advance hp hplaced hadv with
    | ended after => exact after
  · exact Machine.advance_of_none (Program.fetch?_eq_none_iff.mpr (.inr (by omega)))
  · intro fuel why m' hr
    obtain ⟨last, hlast, hadv⟩ := hm.exists_last hr
    cases Machine.stops_of_advance hp (hlast.placed hp) hadv with
    | ended after => simp [after]
    | exited fetched bound stays | failed fetched cause stays =>
      have hbounds := Program.bounds_of_fetch? fetched
      simp only [reduceCtorEq, false_iff]
      omega

/-- A call whose subroutine is never left: at the end of the program it is still open. -/
theorem position_and_calls_in_subroutine :
    let nodes : List Node := [
      { order := some "9", opcode := some "call", children := [⟨"arg1", some "label", "sub"⟩] },
      { order := some "10", opcode := some "label", children := [⟨"arg1", some "label", "sub"⟩] }]
    ∃ p m, Program.load nodes = .ok p ∧ Reachable p {} m ∧ m.position = p.size + 1 ∧ m.calls = [1] ∧
      m.advance p = .stopped .ended m ∧
      ∃ i name target, p.fetch? 1 = some i ∧ i.opcode = .call ∧ i.operands = [.label name] ∧
        p.labels.resolve? name = some target := by
  intro nodes
  have hload : ∃ p, Program.load nodes = .ok p ∧ p.size = 2 ∧
      ((Machine.start {}).run p 2).machine.position = 3 ∧
      ((Machine.start {}).run p 2).machine.calls = [1] := ⟨_, rfl, rfl, rfl, rfl⟩
  obtain ⟨p, hp, hsize, hpos, hcalls⟩ := hload
  have hm : Reachable p {} ((Machine.start {}).run p 2).machine := Reachable.start.run 2
  obtain ⟨-, hall, hend, -⟩ := position_and_calls_of_reachable hp hm
  exact ⟨p, _, hp, hm, by rw [hpos, hsize], hcalls, hend.mpr (by rw [hpos, hsize]),
    hall 1 (by rw [hcalls]; exact List.mem_cons_self)⟩

/-- An ordinary cause lies in one of seven classes. -/
theorem Cause.errorClass_of_isOrdinary {c : Cause} (h : c.isOrdinary = true) :
    c.errorClass ∈ [ErrorClass.semantic, .operandType, .undefinedVariable, .undefinedFrame,
      .missingValue, .operandValue, .stringOperation] := by
  cases c with
  | malformedOperand op index | host message => cases h
  | rejected op fault => cases fault <;> simp [Cause.errorClass, Fault.errorClass]
  | undefinedFrame kind | undefinedVariable v | redefinition v | undefinedLabel name
  | unsetVariable v | emptyStack | emptyCallStack => simp [Cause.errorClass]

/-- **A loaded program has no structural error left in it.** However a run stops, also
one that is taken up again, its status is at most 9, or its error is at the position of
the machine, which is that of an instruction, and of a class that the program's data
decide; it is internal only where the host refused a read or a write just then. This is
about `Machine.run`: the flush that `Program.run` adds at the end of a run is no part of
it, and can refuse on its own account. -/
theorem stop_of_reachable {nodes : List Node} {p : Program} {host : Host} {m m' : Machine}
    {fuel : Nat} {why : Stop} (h : Program.load nodes = .ok p) (hm : Reachable p host m)
    (hr : m.run p fuel = .stopped why m') :
    (∀ status, why.status = .ok status → status ≤ 9) ∧
    ∀ e, why.status = .error e →
      (∀ op index, e.cause ≠ .malformedOperand op index) ∧ e.errorClass ≠ .structural ∧
      (e.errorClass ∈ [ErrorClass.semantic, .operandType, .undefinedVariable, .undefinedFrame,
          .missingValue, .operandValue, .stringOperation] ∨
        e.errorClass = .internal ∧ ∃ last message, Reachable p host last ∧
          last.advance p = .stopped why m' ∧ e.cause = .host message ∧
          last.host.Refuses message m'.host) ∧
      e.position = m'.position ∧ 1 ≤ e.position ∧ e.position ≤ p.size := by
  have hp := Program.wellFormed_of_load h
  obtain ⟨last, hlast, hadv⟩ := hm.exists_last hr
  cases Machine.stops_of_advance hp (hlast.placed hp) hadv with
  | ended after =>
    refine ⟨fun status hs => ?_, fun e he => by cases he⟩
    cases hs
    exact Nat.zero_le 9
  | exited fetched bound stays =>
    refine ⟨fun status hs => ?_, fun e he => by cases he⟩
    cases hs
    exact bound
  | failed fetched cause stays =>
    refine ⟨fun status hs => (by cases hs), fun e he => ?_⟩
    cases he
    obtain ⟨hlower, hupper⟩ := Program.bounds_of_fetch? fetched
    rcases cause with ⟨hpos, hcause⟩ | ⟨message, rfl, hrefused⟩
    · have hclass := Cause.errorClass_of_isOrdinary hcause
      refine ⟨?_, ?_, .inl hclass, by rw [hpos, stays], by rw [hpos]; exact hlower,
        by rw [hpos]; exact hupper⟩
      · intro op index heq
        rw [heq] at hcause
        cases hcause
      · intro heq
        rw [RunError.errorClass] at heq
        rw [heq] at hclass
        simp at hclass
    · refine ⟨fun op index heq => (by cases heq), fun heq => (by cases heq),
        .inr ⟨rfl, last, message, hlast, hadv, rfl, hrefused⟩, stays.symm, hlower, hupper⟩

/-- A write that the host refuses, also when the run is taken up again. -/
theorem stop_at_refused_write :
    let nodes : List Node := [
      { order := some "4", opcode := some "WRITE", children := [⟨"arg1", some "string", "ab"⟩] }]
    let host : Host := { output := Sink.bounded 1 "sink full" }
    ∃ p m' e, Program.load nodes = .ok p ∧
      ((Machine.start host).run p 5).machine.run p 5 = .stopped (.failed e) m' ∧
      e.errorClass = .internal ∧ e.position = m'.position ∧ 1 ≤ e.position ∧ e.position ≤ p.size ∧
      ∃ last message, Reachable p host last ∧ last.host.Refuses message m'.host := by
  intro nodes host
  have hload : ∃ p m' e, Program.load nodes = .ok p ∧
      ((Machine.start host).run p 5).machine.run p 5 = .stopped (.failed e) m' ∧
      e.errorClass = .internal := ⟨_, _, _, rfl, rfl, rfl⟩
  obtain ⟨p, m', e, hp, hr, hclass⟩ := hload
  obtain ⟨-, herror⟩ := stop_of_reachable hp (Reachable.start.run 5) hr
  obtain ⟨-, -, hcause, hpos, hlower, hupper⟩ := herror e rfl
  refine ⟨p, m', e, hp, hr, hclass, hpos, hlower, hupper, ?_⟩
  rcases hcause with hcause | ⟨-, last, message, hlast, -, -, hrefused⟩
  · rw [hclass] at hcause
    simp at hcause
  · exact ⟨last, message, hlast, hrefused⟩

end FrameCode

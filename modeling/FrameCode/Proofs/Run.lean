import FrameCode.Proofs.Reachable
import Mathlib.Logic.Function.Iterate

/-! Runs taken apart and put together. A run that goes on for some instructions and
then for some more is one run; one that has stopped stays as it is. `Machine.after`
follows a machine beyond its stops, as repeated runs of it do, and `Machine.history` lists
what a run has executed. -/

namespace FrameCode

@[simp] theorem Progress.machine_running (m : Machine) : (Progress.running m).machine = m := rfl

@[simp] theorem Progress.machine_stopped (why : Stop) (m : Machine) :
    (Progress.stopped why m).machine = m := rfl

/-- The same progress with what `f` makes of its machine. -/
def Progress.map (f : Machine → Machine) : Progress → Progress
  | running m => running (f m)
  | stopped why m => stopped why (f m)

namespace Machine

variable {p : Program} {m m' : Machine}

/-! ## Runs up to a stop -/

theorem run_succ_of_running (h : m.advance p = .running m') (fuel : Nat) :
    m.run p (fuel + 1) = m'.run p fuel := by
  simp only [run, h]

theorem run_succ_of_stopped {why : Stop} (h : m.advance p = .stopped why m') (fuel : Nat) :
    m.run p (fuel + 1) = .stopped why m' := by
  simp only [run, h]

theorem run_one (p : Program) (m : Machine) : m.run p 1 = m.advance p := by
  cases h : m.advance p with
  | running next => exact run_succ_of_running h 0
  | stopped why next => exact run_succ_of_stopped h 0

theorem run_add_of_running {n : Nat} (h : m.run p n = .running m') (fuel : Nat) :
    m.run p (n + fuel) = m'.run p fuel := by
  induction n generalizing m with
  | zero =>
    cases h
    rw [Nat.zero_add]
  | succ n ih =>
    rw [Nat.succ_add]
    cases hadv : m.advance p with
    | running next =>
      rw [run_succ_of_running hadv] at h ⊢
      exact ih h
    | stopped why next =>
      rw [run_succ_of_stopped hadv] at h
      cases h

theorem run_add_of_stopped {n : Nat} {why : Stop} (h : m.run p n = .stopped why m') (fuel : Nat) :
    m.run p (n + fuel) = .stopped why m' := by
  induction n generalizing m with
  | zero => cases h
  | succ n ih =>
    rw [Nat.succ_add]
    cases hadv : m.advance p with
    | running next =>
      rw [run_succ_of_running hadv] at h ⊢
      exact ih h
    | stopped why' next =>
      rw [run_succ_of_stopped hadv] at h ⊢
      exact h

/-- A run that has stopped has stopped for every longer run. -/
theorem run_of_stopped_within {n fuel : Nat} {why : Stop} (hn : n ≤ fuel)
    (h : m.run p n = .stopped why m') : m.run p fuel = .stopped why m' := by
  have hlong := run_add_of_stopped h (fuel - n)
  rwa [Nat.add_sub_cancel' hn] at hlong

/-- A run stops in one way only, however long it is let go on. -/
theorem stop_unique {n n' : Nat} {why why' : Stop} {m₁ m₂ : Machine}
    (h : m.run p n = .stopped why m₁) (h' : m.run p n' = .stopped why' m₂) :
    why = why' ∧ m₁ = m₂ := by
  have hlong := run_add_of_stopped h n'
  rw [Nat.add_comm, run_add_of_stopped h' n] at hlong
  cases hlong
  exact ⟨rfl, rfl⟩

theorem run_eq_some_iff {fuel : Nat} {host : Host} {r : Except RunError Nat} :
    p.run fuel host = some (r, m) ↔
      ∃ why, (Machine.start host).run p fuel = .stopped why m ∧ m.conclude why = r := by
  unfold Program.run
  cases (Machine.start host).run p fuel with
  | running next => simp
  | stopped why next =>
    simp only [Option.some.injEq, Prod.mk.injEq, Progress.stopped.injEq]
    constructor
    · rintro ⟨rfl, rfl⟩
      exact ⟨why, ⟨rfl, rfl⟩, rfl⟩
    · rintro ⟨_, ⟨rfl, rfl⟩, rfl⟩
      exact ⟨rfl, rfl⟩

/-- A program has an answer if and only if its run stops. -/
theorem exists_run_eq_some_iff {host : Host} : (∃ fuel result, p.run fuel host = some result) ↔
    ∃ fuel why last, (Machine.start host).run p fuel = .stopped why last := by
  constructor
  · rintro ⟨fuel, ⟨r, last⟩, h⟩
    obtain ⟨why, hstop, -⟩ := run_eq_some_iff.mp h
    exact ⟨fuel, why, last, hstop⟩
  · rintro ⟨fuel, why, last, h⟩
    exact ⟨fuel, _, run_eq_some_iff.mpr ⟨why, h, rfl⟩⟩

/-! ## Runs beyond their stops -/

/-- The state after a number of instructions. Where the run stops it is taken up
again, so that an instruction which exits or fails is executed once more. -/
def after (p : Program) (n : Nat) (m : Machine) : Machine :=
  Nat.iterate (fun m => (m.advance p).machine) n m

@[simp] theorem after_zero (p : Program) (m : Machine) : m.after p 0 = m := rfl

theorem after_succ (p : Program) (n : Nat) (m : Machine) :
    m.after p (n + 1) = ((m.after p n).advance p).machine :=
  Function.iterate_succ_apply' _ n m

end Machine

/-! ## The instructions of a run -/

/-- An instruction that has been executed: the machine that it ran on, which has counted it,
and what it made of this machine. -/
structure Execution where
  instruction : Instruction
  before : Machine
  outcome : Step

namespace Machine

/-- What the machine executes at its position, be it in the end an instruction that fails. -/
def execution (p : Program) (i : Instruction) (m : Machine) : Execution :=
  ⟨i, m.counted, m.counted.step p.labels i⟩

/-- What a run of at most `fuel` instructions executes, in order. -/
def history (p : Program) : Nat → Machine → List Execution
  | 0, _ => []
  | fuel + 1, m =>
    match p.fetch? m.position with
    | none => []
    | some i =>
      match (m.execution p i).outcome.progress with
      | .running m' => m.execution p i :: history p fuel m'
      | .stopped _ _ => [m.execution p i]

/-- A run of at most some number of instructions, with what it executes and where it gets to. -/
inductive Passes (p : Program) : Nat → Machine → List Execution → Progress → Prop
  | pause (m : Machine) : Passes p 0 m [] (.running m)
  | ended {fuel : Nat} {m : Machine} (none : p.fetch? m.position = none) :
    Passes p (fuel + 1) m [] (.stopped .ended m)
  | stopped {fuel : Nat} {m m' : Machine} {i : Instruction} {why : Stop}
    (fetched : p.fetch? m.position = some i)
    (outcome : (m.execution p i).outcome.progress = .stopped why m') :
    Passes p (fuel + 1) m [m.execution p i] (.stopped why m')
  | running {fuel : Nat} {m m' : Machine} {i : Instruction} {done : List Execution} {r : Progress}
    (fetched : p.fetch? m.position = some i)
    (outcome : (m.execution p i).outcome.progress = .running m') (rest : Passes p fuel m' done r) :
    Passes p (fuel + 1) m (m.execution p i :: done) r

theorem passes_run (p : Program) (fuel : Nat) (m : Machine) :
    Passes p fuel m (m.history p fuel) (m.run p fuel) := by
  induction fuel generalizing m with
  | zero => exact .pause m
  | succ fuel ih =>
    unfold history
    cases hi : p.fetch? m.position with
    | none =>
      rw [run_succ_of_stopped (advance_of_none hi)]
      exact .ended hi
    | some i =>
      have hadvance : m.advance p = (m.execution p i).outcome.progress := advance_of_some hi
      cases houtcome : (m.execution p i).outcome.progress with
      | running m' =>
        rw [run_succ_of_running (hadvance.trans houtcome)]
        simp only [houtcome]
        exact .running hi houtcome (ih m')
      | stopped why m' =>
        rw [run_succ_of_stopped (hadvance.trans houtcome)]
        simp only [houtcome]
        exact .stopped hi houtcome

end Machine

end FrameCode

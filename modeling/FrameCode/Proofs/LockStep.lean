import FrameCode.Proofs.Correspondence
import FrameCode.Proofs.Run
import Mathlib.Logic.Equiv.Basic

/-! Names matter only as far as they are the same or differ. A program and the same program
with new names run in lock step: after each instruction their machines differ in the names
that stand in their frames, and in nothing else. -/

namespace FrameCode

attribute [ext] Host

/-- The machines are the same but for the names in their frames. -/
structure Machine.Renamed (ρ : Renaming) (m m' : Machine) : Prop where
  globals : m.globals.Renamed ρ m'.globals
  temporary : Option.Rel (Frame.Renamed ρ) m.temporary m'.temporary
  locals : List.Forall₂ (Frame.Renamed ρ) m.locals m'.locals
  data : m'.data = m.data
  calls : m'.calls = m.calls
  position : m'.position = m.position
  executed : m'.executed = m.executed
  host : m'.host = m.host

namespace Renaming

variable {ρ : Renaming} {m m' : Machine}

/-- Names may change, and nothing else. -/
def correspondence (ρ : Renaming) : Correspondence := ⟨ρ, id, Eq, Eq⟩

theorem machines_iff : ρ.correspondence.Machines m m' ↔ m.Renamed ρ m' := by
  constructor
  · intro h
    exact ⟨h.globals, h.temporary, h.locals, h.data, h.calls.trans (List.map_id _), h.position,
      h.executed.symm, Host.ext h.input h.output h.diagnostics.symm⟩
  · intro h
    refine ⟨h.globals, h.temporary, h.locals, h.data, h.calls.trans (List.map_id _).symm, h.position,
      h.executed.symm, ?_, ?_, ?_⟩
    · rw [h.host]
    · rw [h.host]
    · show m.host.diagnostics = m'.host.diagnostics
      rw [h.host]

/-- A description of the state gives numbers and no names. -/
theorem report_eq (h : m.Renamed ρ m') : m'.report = m.report := by
  have htemporary := h.temporary
  unfold Machine.report
  rw [h.globals.size, ← h.locals.length_eq, h.data, h.calls, h.position, h.executed]
  generalize m.temporary = f, m'.temporary = f' at htemporary ⊢
  cases htemporary with
  | none => rfl
  | some hf =>
    dsimp only
    rw [hf.size]

theorem lawful (ρ : Renaming) : ρ.correspondence.Lawful where
  count h := congrArg Nat.succ h
  diagnose text h := by
    cases h
    exact ⟨rfl, rfl⟩
  report h := by
    have hren := machines_iff.mp h
    rw [report_eq hren, hren.host]
    exact ⟨rfl, rfl⟩

theorem programs (ρ : Renaming) (p : Program) : ρ.correspondence.Programs p (p.rename ρ) where
  fetch? k := Program.fetch?_rename ρ p k
  resolves _ _ _ name _ :=
    (LabelTable.resolve?_rename ρ p.labels name).trans Option.map_id_apply.symm

/-- Both runs go on, or both have stopped for the same reason. -/
inductive Runs (ρ : Renaming) : Progress → Progress → Prop
  | running {m m' : Machine} (h : m.Renamed ρ m') : Runs ρ (.running m) (.running m')
  | stopped {m m' : Machine} (why : Stop) (h : m.Renamed ρ m') :
    Runs ρ (.stopped why m) (.stopped (ρ.correspondence.stop why) m')

theorem advance {p p' : Program} (hp : ρ.correspondence.Programs p p') (h : m.Renamed ρ m') :
    ρ.Runs (m.advance p) (m'.advance p') := by
  have hproceeds := Correspondence.advance ρ.lawful hp (machines_iff.mpr h)
  generalize m.advance p = r, m'.advance p' = r' at hproceeds ⊢
  cases hproceeds with
  | @running next next' machines place =>
    have hposition := Correspondence.position_eq_of_id rfl place
    exact .running { machines_iff.mp machines with position := hposition }
  | stopped why machines => exact .stopped why (machines_iff.mp machines)

/-- Machines that differ in names stay so over a whole run. -/
theorem run_of_programs {p p' : Program} (hp : ρ.correspondence.Programs p p')
    (h : m.Renamed ρ m') (n : Nat) : ρ.Runs (m.run p n) (m'.run p' n) := by
  induction n generalizing m m' with
  | zero => exact .running h
  | succ n ih =>
    have hadvance := advance hp h
    unfold Machine.run
    generalize m.advance p = r, m'.advance p' = r' at hadvance ⊢
    cases hadvance with
    | running hnext => exact ih hnext
    | stopped why hstop => exact .stopped why hstop

theorem run (p : Program) (h : m.Renamed ρ m') (n : Nat) :
    ρ.Runs (m.run p n) (m'.run (p.rename ρ) n) :=
  run_of_programs (ρ.programs p) h n

theorem start (ρ : Renaming) (host : Host) : (Machine.start host).Renamed ρ (Machine.start host) :=
  ⟨.empty, .none, .nil, rfl, rfl, rfl, rfl, rfl⟩

end Renaming

/-- **New names change nothing but names.** However many instructions a program has
executed, the program with new names for its labels and variables has executed as many and
is in the same state, with the new names in its frames. The two stop together, with the
same status or with the same error about the new names. -/
theorem run_rename (p : Program) (ρ : Renaming) (host : Host) (n : Nat) :
    (∀ m, (Machine.start host).run p n = .running m →
      ∃ m', (Machine.start host).run (p.rename ρ) n = .running m' ∧ m.Renamed ρ m') ∧
    ∀ why m, (Machine.start host).run p n = .stopped why m →
      ∃ why' m', (Machine.start host).run (p.rename ρ) n = .stopped why' m' ∧ m.Renamed ρ m' ∧
        (∀ status, m.conclude why = .ok status → m'.conclude why' = .ok status) ∧
        ∀ e, m.conclude why = .error e → ∃ e', m'.conclude why' = .error e' ∧
          e'.cause = e.cause.rename ρ ∧ e'.errorClass = e.errorClass ∧ e'.position = e.position := by
  have hrun := Renaming.run p (Renaming.start ρ host) n
  generalize (Machine.start host).run p n = r, (Machine.start host).run (p.rename ρ) n = r' at hrun
  cases hrun with
  | @running m m' h =>
    refine ⟨fun _ hm => ?_, fun _ _ hm => (by cases hm)⟩
    cases hm
    exact ⟨m', rfl, h⟩
  | @stopped m m' why h =>
    refine ⟨fun _ hm => (by cases hm), fun _ _ hm => ?_⟩
    cases hm
    have hflush : m'.host.flush = m.host.flush := by rw [h.host]
    have hconclude := Correspondence.conclude (Renaming.machines_iff.mpr h) hflush why
    obtain ⟨hok, herror⟩ := hconclude.eq_ok_and_eq_error
    refine ⟨_, m', rfl, h, hok, fun e he => ⟨_, herror e he, rfl, ?_, rfl⟩⟩
    exact Cause.errorClass_rename ρ e.cause

/-- Two labels and two variables that change their names with each other. -/
theorem run_rename_swap :
    let ρ : Renaming := ⟨Equiv.swap "f" "g", Equiv.swap "x" "y", Equiv.injective _, Equiv.injective _⟩
    let x : Variable := ⟨.globals, "x"⟩
    let y : Variable := ⟨.globals, "y"⟩
    let p : Program := {
      instructions := #[⟨1, .defVar, [.var x]⟩, ⟨2, .jump, [.label "f"]⟩, ⟨3, .label, [.label "g"]⟩,
        ⟨4, .move, [.var y, .const (.int 1)]⟩, ⟨5, .label, [.label "f"]⟩, ⟨6, .jump, [.label "g"]⟩]
      labels := (LabelTable.empty.insertNew "f" 5).insertNew "g" 3 }
    (∃ m, p.run 9 {} = some (.error ⟨4, .undefinedVariable y⟩, m)) ∧
      ∃ m' e', (p.rename ρ).run 9 {} = some (.error e', m') ∧ e'.cause = .undefinedVariable x ∧
        e'.position = 4 := by
  intro ρ x y p
  have hanswer : (p.run 9 {}).map Prod.fst = some (.error ⟨4, .undefinedVariable y⟩) := by
    decide +kernel
  obtain ⟨⟨_, m⟩, hrun, rfl⟩ := Option.map_eq_some_iff.mp hanswer
  refine ⟨⟨m, hrun⟩, ?_⟩
  obtain ⟨why, hstop, hconclude⟩ := Machine.run_eq_some_iff.mp hrun
  obtain ⟨why', m', hstop', -, -, herror⟩ := (run_rename p ρ {} 9).2 why m hstop
  obtain ⟨e', he', hcause, -, hpos⟩ := herror _ hconclude
  exact ⟨m', e', Machine.run_eq_some_iff.mpr ⟨why', hstop', he'⟩, hcause, hpos⟩

end FrameCode

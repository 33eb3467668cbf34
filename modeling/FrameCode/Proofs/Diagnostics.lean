import FrameCode.Proofs.Host

/-! Programs that tell less about themselves. Where a label takes the place of an instruction
that only writes to the diagnostics, nothing else of the run is different: the two programs go
on in step, and their machines differ in what the diagnostics hold. -/

namespace FrameCode

/-- The same machine with other diagnostics. -/
def Machine.withDiagnostics (m : Machine) (diagnostics : Sink) : Machine :=
  m.withHost { m.host with diagnostics }

/-- The instruction writes to the diagnostics, whatever the machine holds. -/
def Instruction.OnlyDiagnoses (i : Instruction) : Prop :=
  i.opcode = .breakpoint ∨ i.opcode = .dprint ∧ ∃ value, i.operand? 0 = some (.const value)

/-- The second instruction is the first one, or a label in place of one that only diagnoses. -/
inductive Instruction.Silenced : Instruction → Instruction → Prop
  | kept (i : Instruction) : Silenced i i
  | replaced {i i' : Instruction} (diagnoses : i.OnlyDiagnoses) (label : i'.opcode = .label) :
    Silenced i i'

/-- The second program is the first one with some of its diagnostics replaced in place. -/
structure Program.Silenced (p p' : Program) : Prop where
  labels : p'.labels = p.labels
  instructions : List.Forall₂ Instruction.Silenced p.instructions.toList p'.instructions.toList

theorem Program.Silenced.fetch? {p p' : Program} (h : p.Silenced p') (k : Nat) :
    Option.Rel Instruction.Silenced (p.fetch? k) (p'.fetch? k) := by
  obtain ⟨hlength, hget⟩ := List.forall₂_iff_get.mp h.instructions
  cases k with
  | zero => exact .none
  | succ k =>
    rw [Program.fetch?_succ, Program.fetch?_succ, ← Array.getElem?_toList, ← Array.getElem?_toList]
    by_cases hk : k < p.instructions.toList.length
    · have hk' := hlength ▸ hk
      rw [List.getElem?_eq_getElem hk, List.getElem?_eq_getElem hk']
      exact .some (hget k hk hk')
    · rw [List.getElem?_eq_none (by omega), List.getElem?_eq_none (by omega)]
      exact .none

namespace Silence

/-- Everything is the same but the diagnostics, which refuse nothing. -/
def correspondence : Correspondence := ⟨.identity, id, Eq, fun s s' => s.Accepts ∧ s'.Accepts⟩

theorem lawful : correspondence.Lawful :=
  Correspondence.lawful_of_accepts (congrArg Nat.succ) Iff.rfl

variable {m m' : Machine}

theorem step_of_onlyDiagnoses {i : Instruction} (h : i.OnlyDiagnoses) (labels : LabelTable)
    (m : Machine) : ∃ text, m.step labels i = m.diagnose text := by
  rcases h with hop | ⟨hop, value, ho⟩
  · exact ⟨m.report, by simp only [Machine.step, hop]⟩
  · refine ⟨value.text, ?_⟩
    simp only [Machine.step, hop, Machine.withSymbol, Machine.symbol, ho]

theorem step {i i' : Instruction} (h : i.Silenced i') (hm : correspondence.Machines m m')
    (labels : LabelTable) : correspondence.Steps (m.step labels i) (m'.step labels i') := by
  cases h with
  | kept =>
    have hresolves : correspondence.Resolves labels labels i :=
      fun name _ => Option.map_id_apply.symm
    have hsteps := Correspondence.step lawful hresolves hm
    have hinstruction : correspondence.instruction i = i := Instruction.rename_identity i
    rwa [hinstruction] at hsteps
  | replaced diagnoses label =>
    -- only one side writes, and its diagnostics still refuse nothing
    obtain ⟨text, hstep⟩ := step_of_onlyDiagnoses diagnoses labels m
    have hlabel : m'.step labels i' = ⟨m', .ok .next⟩ := by simp only [Machine.step, label]
    rw [hstep, hlabel, Machine.diagnose_of_accepts hm.diagnostics.1]
    have hdiagnostics := (hm.diagnostics.1.write text).2
    exact ⟨{ hm with diagnostics := ⟨hdiagnostics, hm.diagnostics.2⟩ }, .ok .next⟩

/-- Both runs go on, or both have stopped for the same reason. -/
inductive Runs : Progress → Progress → Prop
  | running {m m' : Machine} (h : correspondence.Machines m m') : Runs (.running m) (.running m')
  | stopped {m m' : Machine} (why : Stop) (h : correspondence.Machines m m') :
    Runs (.stopped why m) (.stopped why m')

theorem runs_of_proceeds {r r' : Progress} (h : correspondence.Proceeds r r') : Runs r r' := by
  cases h with
  | @running m m' machines place =>
    exact .running { machines with position := Correspondence.position_eq_of_id rfl place }
  | @stopped m m' why machines =>
    have hwhy : correspondence.stop why = why := by
      cases why with
      | ended | exited status => rfl
      | failed e =>
        exact congrArg Stop.failed (congrArg (RunError.mk e.position) e.cause.rename_identity)
    rw [hwhy]
    exact .stopped why machines

section Programs

variable {p p' : Program} (hp : p.Silenced p')
include hp

theorem advance (hm : correspondence.Machines m m') : Runs (m.advance p) (m'.advance p') := by
  have hposition : m'.position = m.position := hm.position
  have hfetch := hp.fetch? m.position
  generalize hi : p.fetch? m.position = o, hi' : p'.fetch? m.position = o' at hfetch
  rw [← hposition] at hi'
  cases hfetch with
  | none =>
    rw [Machine.advance_of_none hi, Machine.advance_of_none hi']
    exact .stopped .ended hm
  | some hsilenced =>
    rw [Machine.advance_of_some hi, Machine.advance_of_some hi', hp.labels]
    exact runs_of_proceeds (step hsilenced (hm.counted lawful) p.labels).progress

theorem run (hm : correspondence.Machines m m') (n : Nat) : Runs (m.run p n) (m'.run p' n) := by
  induction n generalizing m m' with
  | zero => exact .running hm
  | succ n ih =>
    have hadvance := advance hp hm
    unfold Machine.run
    generalize m.advance p = r, m'.advance p' = r' at hadvance ⊢
    cases hadvance with
    | running hnext => exact ih hnext
    | stopped why hstop => exact .stopped why hstop

end Programs

theorem eq_withDiagnostics (hm : correspondence.Machines m m') :
    m' = m.withDiagnostics m'.host.diagnostics := by
  have hglobals := hm.globals.eq_of_identity
  have htemporary : m'.temporary = m.temporary := by
    have hrel := hm.temporary
    generalize m.temporary = f, m'.temporary = f' at hrel ⊢
    cases hrel with
    | none => rfl
    | some h => exact congrArg some h.eq_of_identity
  have hlocals : List.Forall₂ Eq m.locals m'.locals :=
    hm.locals.imp fun _ _ h => h.eq_of_identity.symm
  rw [List.forall₂_eq_eq_eq] at hlocals
  have hcalls := hm.calls.trans (List.map_id m.calls)
  obtain ⟨globals, temporary, locals, data, calls, position, executed, input, output,
    diagnostics⟩ := m'
  cases hglobals
  cases htemporary
  cases hlocals
  cases hm.data
  cases hcalls
  cases hm.position
  cases hm.executed
  cases hm.input
  cases hm.output
  rfl

theorem conclude_eq (hm : correspondence.Machines m m') (why : Stop) :
    m'.conclude why = m.conclude why := by
  have hflush := Host.flush_eq hm.diagnostics.1 hm.diagnostics.2 hm.output
  have hposition : m'.position = m.position := hm.position
  simp only [Machine.conclude, hflush, Machine.error, hposition]

theorem start {host : Host} (hd : host.diagnostics.Accepts) :
    correspondence.Machines (Machine.start host) (Machine.start host) :=
  ⟨.empty, .none, .nil, rfl, rfl, rfl, rfl, rfl, rfl, hd, hd⟩

end Silence

/-- **Diagnostics do not affect a program.** Let labels take the place of any of its BREAKs and of
any of its DPRINTs of constants. On diagnostics that refuse nothing the two programs go on in
step: after any number of instructions they are in the same state, up to what the diagnostics
hold, and they stop together and with the same answer. -/
theorem run_silenced {p p' : Program} (h : p.Silenced p') {host : Host}
    (hd : host.diagnostics.Accepts) (n : Nat) :
    (∃ diagnostics, (Machine.start host).run p' n =
      ((Machine.start host).run p n).map (·.withDiagnostics diagnostics)) ∧
    (p'.run n host).map Prod.fst = (p.run n host).map Prod.fst := by
  have hruns := Silence.run h (Silence.start hd) n
  unfold Program.run
  generalize (Machine.start host).run p n = r, (Machine.start host).run p' n = r' at hruns ⊢
  cases hruns with
  | @running m m' hm =>
    exact ⟨⟨_, congrArg Progress.running (Silence.eq_withDiagnostics hm)⟩, rfl⟩
  | @stopped m m' why hm =>
    refine ⟨⟨_, congrArg (Progress.stopped why) (Silence.eq_withDiagnostics hm)⟩, ?_⟩
    exact congrArg some (Silence.conclude_eq hm why)

/-- A loop over the input, with and without a BREAK and a DPRINT in it. -/
theorem run_silenced_loop :
    let x : Operand := .var ⟨.globals, "x"⟩
    let labels := LabelTable.empty.insertNew "l" 2
    let program (first second : Instruction) : Program := {
      instructions := #[⟨1, .defVar, [x]⟩, ⟨2, .label, [.label "l"]⟩, ⟨3, .read, [x, .type .int]⟩,
        first, second, ⟨6, .write, [x]⟩, ⟨7, .jumpIf false, [.label "l", x, .const .nil]⟩]
      labels }
    let p := program ⟨4, .breakpoint, []⟩ ⟨5, .dprint, [.const (.int 1)]⟩
    let p' := program ⟨4, .label, [.label "k"]⟩ ⟨5, .label, [.label "k"]⟩
    let host : Host := { input := { lines := ["7", "8"] } }
    p.Silenced p' ∧ host.diagnostics.Accepts ∧
      (p.run 20 host).map Prod.fst = some (.ok 0) ∧ (p'.run 20 host).map Prod.fst = some (.ok 0) ∧
      ∃ diagnostics, (Machine.start host).run p' 10 =
        ((Machine.start host).run p 10).map (·.withDiagnostics diagnostics) := by
  intro x labels program p p' host
  have hsilenced : p.Silenced p' := by
    refine ⟨rfl, ?_⟩
    refine .cons (.kept _) (.cons (.kept _) (.cons (.kept _) (.cons ?_ (.cons ?_ ?_))))
    · exact .replaced (.inl rfl) rfl
    · exact .replaced (.inr ⟨rfl, _, rfl⟩) rfl
    · exact .cons (.kept _) (.cons (.kept _) .nil)
  have hd : host.diagnostics.Accepts := ⟨fun _ _ _ => rfl, rfl⟩
  have hresult : (p.run 20 host).map Prod.fst = some (.ok 0) := by decide +kernel
  have hresult' := (run_silenced hsilenced hd 20).2.trans hresult
  exact ⟨hsilenced, hd, hresult, hresult', (run_silenced hsilenced hd 10).1⟩

end FrameCode

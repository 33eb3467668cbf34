import FrameCode.Proofs.Forward
import FrameCode.Proofs.Host

/-! What a run makes of its three streams, told from the instructions that it has executed. On a
host that refuses nothing each instruction accounts for its own part of every stream
(`Execution.Serves`), and a run for the parts of its instructions, one after the other
(`Execution.Accounts`). -/

namespace FrameCode

/-- Nothing that a program asks of the host is refused. -/
structure Host.Obliging (host : Host) : Prop where
  input : host.input.Answers
  output : host.output.Accepts
  diagnostics : host.diagnostics.Accepts

/-! ## Reading back what has been written -/

theorem Frame.get?_of_set?_eq_some {f f' : Frame} {name : String} {value : Option Value}
    (h : f.set? name value = some f') : ∃ cell, f'.get? name = some cell ∧ cell.value = value := by
  obtain ⟨k, hk, hlt, rfl⟩ := set?_eq_some h
  exact ⟨{ f.cells[k] with value }, by simp [get?, hk, hlt, Array.getElem_modify_self], rfl⟩

namespace Machine

variable {m m' : Machine}

theorem frame?_setFrame {kind : FrameKind} {f : Frame} (found : m.frame? kind = some f)
    (f' : Frame) : (m.setFrame kind f').frame? kind = some f' := by
  cases kind with
  | globals | temporary => rfl
  | locals =>
    simp only [frame?] at found
    cases hlocals : m.locals with
    | nil =>
      rw [hlocals] at found
      cases found
    | cons top rest => simp [frame?, setFrame, hlocals, Stack.setTop?, Stack.top?]

theorem host_setFrame (m : Machine) (kind : FrameKind) (f : Frame) :
    (m.setFrame kind f).host = m.host := by
  cases kind <;> rfl

theorem value_of_assign {v : Variable} {x : Value} (h : m.assign v x = .ok m') :
    m'.value v = .ok x := by
  obtain ⟨f, f', hf, hset, rfl⟩ := assign_eq_ok h
  obtain ⟨c, hget, hvalue⟩ := Frame.get?_of_set?_eq_some hset
  have hframe := frame_eq_ok_iff.mpr (frame?_setFrame hf f')
  simp only [value, cell, hframe, hget, hvalue, bind, Except.bind, pure, Except.pure]

end Machine

/-! ## One instruction -/

namespace Execution

/-- What the instruction adds to the output: the value of its operand, if it writes one. -/
def written (e : Execution) : String :=
  match e.instruction.opcode, e.outcome.result, e.before.symbol e.instruction 0 with
  | .write, .ok _, .ok x => x.outputText
  | _, _, _ => ""

/-- What the instruction adds to the diagnostics: the text of its operand's value, or a report of
the machine. -/
def diagnosed (e : Execution) : String :=
  match e.instruction.opcode, e.outcome.result, e.before.symbol e.instruction 0 with
  | .dprint, .ok _, .ok x => x.text
  | .breakpoint, .ok _, _ => e.before.report
  | _, _, _ => ""

/-- The instruction reads into a variable that has been declared. -/
def reads (e : Execution) : Bool :=
  match e.instruction.opcode, e.instruction.operand? 0 with
  | .read, some (.var v) => (e.before.cell v).isOk
  | _, _ => false

/-- The instruction has given its variable what the line, or the end of the input, stands for. -/
def Stores (line : Option String) (e : Execution) : Prop :=
  ∃ v tag, e.instruction.operands = [.var v, .type tag] ∧ e.outcome.result = .ok .next ∧
    e.outcome.machine.value v = .ok (Value.ofInput line tag)

/-- Past the last line a variable is given nil, whatever type is asked for. -/
theorem Stores.nil_at_end {e : Execution} (h : e.Stores none) :
    ∃ v, e.instruction.operand? 0 = some (.var v) ∧ e.outcome.machine.value v = .ok .nil := by
  obtain ⟨v, tag, hoperands, -, hvalue⟩ := h
  exact ⟨v, by simp [Instruction.operand?, hoperands], hvalue⟩

/-- What the instruction has made of the streams. -/
structure Serves (e : Execution) : Prop where
  obliging : e.outcome.machine.host.Obliging
  output : e.outcome.machine.host.output.text = e.before.host.output.text ++ e.written
  diagnostics : e.outcome.machine.host.diagnostics.text =
    e.before.host.diagnostics.text ++ e.diagnosed
  input : e.outcome.machine.host.input.lines =
    if e.reads then e.before.host.input.lines.tail else e.before.host.input.lines
  stored : e.reads = true → e.Stores e.before.host.input.lines.head?

variable {e : Execution}

theorem written_of_ne (h : e.instruction.opcode ≠ .write) : e.written = "" := by
  unfold written
  split
  · next hop _ _ => exact absurd hop h
  · rfl

theorem diagnosed_of_ne (hdprint : e.instruction.opcode ≠ .dprint)
    (hbreak : e.instruction.opcode ≠ .breakpoint) : e.diagnosed = "" := by
  unfold diagnosed
  split
  · next hop _ _ => exact absurd hop hdprint
  · next hop _ => exact absurd hop hbreak
  · rfl

theorem reads_of_ne (h : e.instruction.opcode ≠ .read) : e.reads = false := by
  unfold reads
  split
  · next hop _ => exact absurd hop h
  · rfl

/-- An instruction with no part in any stream. -/
theorem Serves.idle (hh : e.before.host.Obliging) (hhost : e.outcome.machine.host = e.before.host)
    (hw : e.written = "") (hd : e.diagnosed = "") (hr : e.reads = false) : e.Serves where
  obliging := hhost ▸ hh
  output := by rw [hhost, hw, String.append_empty]
  diagnostics := by rw [hhost, hd, String.append_empty]
  input := by simp [hhost, hr]
  stored := by simp [hr]

end Execution

theorem Instruction.Conforms.operands_of_read {i : Instruction} (h : i.Conforms)
    (hop : i.opcode = .read) : ∃ v tag, i.operands = [.var v, .type tag] := by
  simp only [Instruction.Conforms, hop, Opcode.signature, List.forall₂_cons_left_iff,
    List.forall₂_nil_left_iff] at h
  obtain ⟨o, _, ho, ⟨o', _, ho', rfl, rfl⟩, hops⟩ := h
  obtain ⟨v, rfl⟩ : ∃ v, o = .var v := by cases o <;> simp_all [Slot.accepts]
  obtain ⟨tag, rfl⟩ : ∃ tag, o' = .type tag := by cases o' <;> simp_all [Slot.accepts]
  exact ⟨v, tag, hops⟩

namespace Machine

variable {m : Machine} {i : Instruction}

theorem readOperands_of_operands {v : Variable} {tag : TypeTag}
    (ho : i.operands = [.var v, .type tag]) :
    m.readOperands i = (m.cell v).map fun _ => (v, tag) := by
  have hv : destination i 0 = .ok v := by simp [destination, Instruction.operand?, ho]
  have htag : i.operand? 1 = some (.type tag) := by simp [Instruction.operand?, ho]
  simp only [readOperands, hv, htag, bind, Except.bind]
  cases m.cell v <;> rfl

/-- What the host answers is read into a variable that has been declared. -/
theorem read_of_answer {v : Variable} {tag : TypeTag} {cell : Cell} {line : Option String}
    (h : m.host.input.read.1 = .ok line) (ho : i.operands = [.var v, .type tag])
    (hcell : m.cell v = .ok cell) : ∃ m', m.read i = ⟨m', .ok .next⟩ ∧
      m'.host = { m.host with input := m.host.input.read.2 } ∧
      m'.value v = .ok (Value.ofInput line tag) := by
  have hread : m.host.input.read = (.ok line, m.host.input.read.2) := by rw [← h]
  have hoperands : m.readOperands i = .ok (v, tag) := by
    rw [readOperands_of_operands ho, hcell]
    rfl
  rw [read_of_line hoperands hread]
  let taken := m.withHost { m.host with input := m.host.input.read.2 }
  have hcell' : taken.cell v = .ok cell := hcell
  obtain ⟨m', hassign⟩ := exists_assign_of_cell hcell' (Value.ofInput line tag)
  refine ⟨m', congrArg taken.update hassign, ?_, value_of_assign hassign⟩
  obtain ⟨f, f', -, -, rfl⟩ := assign_eq_ok hassign
  exact host_setFrame taken v.frame f'

/-! ## One instruction, of each opcode that uses the host -/

section Serves

open Execution

variable (labels : LabelTable) (hh : m.host.Obliging)
include hh

theorem serves_read (hop : i.opcode = .read) (hi : i.Conforms) :
    Serves ⟨i, m, m.step labels i⟩ := by
  obtain ⟨v, tag, ho⟩ := hi.operands_of_read hop
  have hstep : m.step labels i = m.read i := by simp only [step, hop]
  have hreads : reads ⟨i, m, m.step labels i⟩ = (m.cell v).isOk := by
    simp only [reads, hop, Instruction.operand?, ho, List.getElem?_cons_zero]
  have hw : written ⟨i, m, m.step labels i⟩ = "" := written_of_ne (by simp [hop])
  have hd : diagnosed ⟨i, m, m.step labels i⟩ = "" :=
    diagnosed_of_ne (by simp [hop]) (by simp [hop])
  rw [hstep] at hreads hw hd ⊢
  cases hcell : m.cell v with
  | error e =>
    -- the destination is looked at before the host is asked for a line
    have hread : m.read i = m.fail e := by
      refine read_of_error ?_
      rw [readOperands_of_operands ho, hcell]
      rfl
    exact .idle hh (by simp [hread, fail]) hw hd (by rw [hreads, hcell]; rfl)
  | ok cell =>
    have hanswer : m.host.input.read.1 = .ok m.host.input.lines.head? := by rw [hh.input.read]
    obtain ⟨m', hread, hhost, hvalue⟩ := read_of_answer hanswer ho hcell
    rw [hcell] at hreads
    rw [hread] at hreads hw hd ⊢
    have hinput := hh.input.read
    refine ⟨?_, ?_, ?_, ?_, fun _ => ⟨v, tag, ho, rfl, hvalue⟩⟩
    · show m'.host.Obliging
      rw [hhost, hinput]
      exact ⟨hh.input, hh.output, hh.diagnostics⟩
    · simp [hw, hhost]
    · simp [hd, hhost]
    · simp [hreads, hhost, hinput, Except.isOk, Except.toBool]

theorem serves_write (hop : i.opcode = .write) : Serves ⟨i, m, m.step labels i⟩ := by
  have hstep : m.step labels i = m.withSymbol i fun x => m.write x.outputText := by
    simp only [step, hop]
  have hd : diagnosed ⟨i, m, m.step labels i⟩ = "" :=
    diagnosed_of_ne (by simp [hop]) (by simp [hop])
  have hr : reads ⟨i, m, m.step labels i⟩ = false := reads_of_ne (by simp [hop])
  cases hx : m.symbol i 0 with
  | error e =>
    rw [hstep, withSymbol, hx] at hd hr ⊢
    exact .idle hh rfl (by simp [written, hop, hx]) hd hr
  | ok x =>
    simp only [hstep, withSymbol, hx, write_of_accepts hh.output] at hd hr ⊢
    refine ⟨⟨hh.input, (hh.output.write _).2, hh.diagnostics⟩, ?_, ?_, ?_, by simp [hr]⟩
    · simp only [written, hop, hx]
      exact hh.output.text_write _
    · rw [hd, String.append_empty]
      rfl
    · rw [hr]
      rfl

theorem serves_diagnose {text : String} (hstep : m.step labels i = m.diagnose text)
    (hop : i.opcode = .dprint ∨ i.opcode = .breakpoint)
    (hd : diagnosed ⟨i, m, m.diagnose text⟩ = text) : Serves ⟨i, m, m.step labels i⟩ := by
  have hne : i.opcode ≠ .write ∧ i.opcode ≠ .read := by rcases hop with h | h <;> simp [h]
  have hw : written ⟨i, m, m.step labels i⟩ = "" := written_of_ne hne.1
  have hr : reads ⟨i, m, m.step labels i⟩ = false := reads_of_ne hne.2
  rw [hstep] at hw hr ⊢
  rw [diagnose_of_accepts hh.diagnostics] at hd hw hr ⊢
  refine ⟨⟨hh.input, hh.output, (hh.diagnostics.write _).2⟩, ?_, ?_, ?_, by simp [hr]⟩
  · rw [hw, String.append_empty]
    rfl
  · rw [hd]
    exact hh.diagnostics.text_write _
  · rw [hr]
    rfl

theorem serves_dprint (hop : i.opcode = .dprint) : Serves ⟨i, m, m.step labels i⟩ := by
  have hstep : m.step labels i = m.withSymbol i fun x => m.diagnose x.text := by
    simp only [step, hop]
  cases hx : m.symbol i 0 with
  | error e =>
    rw [hstep, withSymbol, hx]
    refine .idle hh rfl (written_of_ne ?_) ?_ (reads_of_ne ?_) <;> simp [diagnosed, hop, hx, fail]
  | ok x =>
    have hdiagnose : m.step labels i = m.diagnose x.text := by rw [hstep, withSymbol, hx]
    refine serves_diagnose labels hh hdiagnose (.inl hop) ?_
    simp only [diagnosed, hop, hx, diagnose_of_accepts hh.diagnostics]

theorem serves_break (hop : i.opcode = .breakpoint) : Serves ⟨i, m, m.step labels i⟩ := by
  have hstep : m.step labels i = m.diagnose m.report := by simp only [step, hop]
  refine serves_diagnose labels hh hstep (.inr hop) ?_
  simp only [diagnosed, hop, diagnose_of_accepts hh.diagnostics]

end Serves

/-- **Every instruction accounts for its part of the streams.** -/
theorem serves_step (labels : LabelTable) (hi : i.Conforms) (hh : m.host.Obliging) :
    Execution.Serves ⟨i, m, m.step labels i⟩ := by
  cases huses : i.opcode.usesHost with
  | false =>
    have hne : ∀ op : Opcode, op.usesHost = true → i.opcode ≠ op := by
      rintro op hop rfl
      rw [huses] at hop
      cases hop
    exact .idle hh (host_step huses labels m) (Execution.written_of_ne (hne _ rfl))
      (Execution.diagnosed_of_ne (hne _ rfl) (hne _ rfl)) (Execution.reads_of_ne (hne _ rfl))
  | true =>
    cases hop : i.opcode with
    | read => exact serves_read labels hh hop hi
    | write => exact serves_write labels hh hop
    | dprint => exact serves_dprint labels hh hop
    | breakpoint => exact serves_break labels hh hop
    | _ =>
      rw [hop] at huses
      cases huses

end Machine

/-! ## Runs -/

namespace Execution

/-- The instructions account for all that has become of the streams since `host`: each line of
the input has gone to one read, in order. -/
structure Accounts (host : Host) (done : List Execution) (after : Host) : Prop where
  output : after.output.text = host.output.text ++ String.join (done.map written)
  diagnostics : after.diagnostics.text = host.diagnostics.text ++ String.join (done.map diagnosed)
  input : after.input.lines = host.input.lines.drop (done.filter reads).length
  stored : ∀ (k : Nat) e, (done.filter reads)[k]? = some e → e.Stores host.input.lines[k]?

namespace Accounts

theorem nil (host : Host) : Accounts host [] host where
  output := by simp
  diagnostics := by simp
  input := rfl
  stored := by simp

/-- An instruction before others. If it reads, it takes the first line and leaves them the rest. -/
theorem cons {e : Execution} {done : List Execution} {after : Host} (he : e.Serves)
    (rest : Accounts e.outcome.machine.host done after) :
    Accounts e.before.host (e :: done) after where
  output := by
    rw [rest.output, he.output, List.map_cons, String.join_cons, String.append_assoc]
  diagnostics := by
    rw [rest.diagnostics, he.diagnostics, List.map_cons, String.join_cons, String.append_assoc]
  input := by
    rw [rest.input, he.input, List.filter_cons]
    split
    · rw [List.length_cons, List.drop_tail]
    · rfl
  stored := by
    -- a read is the first of all; the reads behind it count from the second line on
    have hinput := he.input
    have hstored := rest.stored
    intro k e' hk
    rw [List.filter_cons] at hk
    split at hk
    · next hreads =>
      rw [if_pos hreads] at hinput
      cases k with
      | zero =>
        cases hk
        exact List.head?_eq_getElem? ▸ he.stored hreads
      | succ k =>
        rw [List.getElem?_cons_succ] at hk
        have hlater := hstored k e' hk
        rwa [hinput, List.getElem?_tail] at hlater
    · next hreads =>
      rw [if_neg hreads] at hinput
      exact hinput ▸ hstored k e' hk

end Accounts

end Execution

namespace Machine

theorem Passes.accounts {p : Program} (hp : p.WellFormed) {fuel : Nat} {m : Machine}
    {done : List Execution} {r : Progress} (h : Passes p fuel m done r) (hh : m.host.Obliging) :
    Execution.Accounts m.host done r.machine.host := by
  induction h with
  | pause m => exact .nil m.host
  | ended none => exact .nil _
  | @stopped fuel m m' i why fetched outcome =>
    have hserves : (m.execution p i).Serves :=
      serves_step p.labels (hp.conforms_of_fetch? fetched) hh
    have hhost := Step.host_progress (m.execution p i).outcome
    rw [outcome] at hhost
    exact .cons hserves (hhost ▸ .nil _)
  | @running fuel m m' i done r fetched outcome rest ih =>
    have hserves : (m.execution p i).Serves :=
      serves_step p.labels (hp.conforms_of_fetch? fetched) hh
    have hhost : m'.host = (m.execution p i).outcome.machine.host := by
      rw [← Step.host_progress, outcome, Progress.machine_running]
    exact .cons hserves (hhost ▸ ih (hhost ▸ hserves.obliging))

/-- The history of a run is complete: the machine has counted as many instructions. -/
theorem Passes.executed {p : Program} {fuel : Nat} {m : Machine} {done : List Execution}
    {r : Progress} (h : Passes p fuel m done r) :
    r.machine.executed = m.executed + done.length := by
  induction h with
  | pause m => rfl
  | ended none => rfl
  | stopped fetched outcome =>
    have hcount := executed_advance fetched
    rwa [(advance_of_some fetched).trans outcome] at hcount
  | running fetched outcome rest ih =>
    have hcount := executed_advance fetched
    rw [(advance_of_some fetched).trans outcome, Progress.machine_running] at hcount
    rw [ih, hcount, List.length_cons]
    omega

/-- **What a run has read and written.** After any number of instructions of a loaded program, on
a host that refuses nothing, the output holds what the instructions executed so far have written
and the diagnostics what they have reported, in order and nothing else. The reads into variables
that have been declared have taken the lines of the input one by one, and each has stored what
its line stands for, or what the end of the input stands for: past the last line that is nil. No
other read takes a line. All of this holds also of runs that fail in the end. -/
theorem streams_of_run {nodes : List Node} {p : Program} (h : Program.load nodes = .ok p)
    {host : Host} (hh : host.Obliging) (n : Nat) :
    let m := ((start host).run p n).machine
    let done := (start host).history p n
    let reads := done.filter Execution.reads
    m.executed = done.length ∧
      m.host.output.text = host.output.text ++ String.join (done.map Execution.written) ∧
      m.host.diagnostics.text =
        host.diagnostics.text ++ String.join (done.map Execution.diagnosed) ∧
      m.host.input.lines = host.input.lines.drop reads.length ∧
      (∀ (k : Nat) e, reads[k]? = some e → e.Stores host.input.lines[k]?) ∧
      ∀ (k : Nat) e, reads[k]? = some e → host.input.lines.length ≤ k →
        ∃ v, e.instruction.operand? 0 = some (.var v) ∧ e.outcome.machine.value v = .ok .nil := by
  have hpasses := passes_run p n (start host)
  have haccounts := hpasses.accounts (Program.wellFormed_of_load h) hh
  have hexecuted := hpasses.executed.trans (Nat.zero_add _)
  refine ⟨hexecuted, haccounts.output, haccounts.diagnostics, haccounts.input, haccounts.stored,
    fun k e he hend => ?_⟩
  have hstores : e.Stores host.input.lines[k]? := haccounts.stored k e he
  rw [List.getElem?_eq_none hend] at hstores
  exact hstores.nil_at_end

/-- Two reads, two writes, a report and a read that fails and leaves its line. -/
theorem streams_of_failing_read :
    let node (order opcode : String) (children : List Argument) : Node :=
      { order := some order, opcode := some opcode, children }
    let a : Argument := ⟨"arg1", some "var", "GF@a"⟩
    let nodes := [node "1" "DEFVAR" [a], node "2" "READ" [a, ⟨"arg2", some "type", "int"⟩],
      node "3" "WRITE" [a], node "4" "READ" [a, ⟨"arg2", some "type", "bool"⟩],
      node "5" "DPRINT" [a], node "6" "WRITE" [⟨"arg1", some "string", "!"⟩],
      node "7" "READ" [⟨"arg1", some "var", "TF@a"⟩, ⟨"arg2", some "type", "int"⟩]]
    let host : Host := { input := { lines := [" 7", "maybe", "8"] } }
    ∃ p, Program.load nodes = .ok p ∧ host.Obliging ∧
      (p.run 9 host).map Prod.fst = some (.error ⟨7, .undefinedFrame .temporary⟩) ∧
      ((start host).run p 9).machine.host.output.text = "7!" ∧
      ((start host).run p 9).machine.host.diagnostics.text = "nil" ∧
      ((start host).run p 9).machine.host.input.lines = ["8"] := by
  intro node a nodes host
  have hh : host.Obliging := ⟨fun _ => rfl, ⟨fun _ _ _ => rfl, rfl⟩, ⟨fun _ _ _ => rfl, rfl⟩⟩
  have hrun : (Program.load nodes).map (fun p => ((p.run 9 host).map Prod.fst,
      ((start host).history p 9).map Execution.written,
      ((start host).history p 9).map Execution.diagnosed,
      (((start host).history p 9).filter Execution.reads).length)) =
      .ok (some (.error ⟨7, .undefinedFrame .temporary⟩), ["", "", "7", "", "", "!", ""],
        ["", "", "", "", "nil", "", ""], 2) := by decide +kernel
  cases hp : Program.load nodes with
  | error e =>
    rw [hp] at hrun
    cases hrun
  | ok p =>
    simp only [hp, Except.map, Except.ok.injEq, Prod.mk.injEq] at hrun
    obtain ⟨hresult, hwritten, hdiagnosed, hreads⟩ := hrun
    obtain ⟨-, houtput, hdiagnostics, hinput, -⟩ := streams_of_run hp hh 9
    rw [hwritten] at houtput
    rw [hdiagnosed] at hdiagnostics
    rw [hreads] at hinput
    exact ⟨p, rfl, hh, hresult, houtput, hdiagnostics, hinput⟩

end Machine

end FrameCode

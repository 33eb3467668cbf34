import FrameCode.Proofs.Footprint
import FrameCode.Proofs.Globals

/-! What a run has done, read off its state. Depths and sizes are counts of the instructions that
have succeeded so far (`Machine.Tally`): an instruction that succeeds moves them by what it adds
to the counts, and one that fails moves neither. So the history of a run decides which frames
there are, and with that which accesses fail for want of a frame. -/

namespace FrameCode

namespace Opcode

/-- Opcodes that create the temporary frame or move it. -/
def movesFrame (op : Opcode) : Bool := op ∈ [.createFrame, .pushFrame, .popFrame]

/-- Opcodes after which frames or calls stand on one another as they did before. -/
def keepsDepths (op : Opcode) : Bool := op ∉ [.createFrame, .pushFrame, .popFrame, .call, .ret]

theorem keepsDepths_of_onlyGoes {op : Opcode} (h : op.onlyGoes = true) : op.keepsDepths = true := by
  cases op with
  | label | jump | jumpIf _ | exit => rfl
  | _ => cases h

theorem keepsDepths_of_onlyStacks {op : Opcode} (h : op.onlyStacks = true) :
    op.keepsDepths = true := by
  cases op with
  | pushs | unaryStack _ | binaryStack _ | jumpIfStack _ => rfl
  | _ => cases h

theorem keepsDepths_of_writes {op : Opcode} (h : op.writes = true) : op.keepsDepths = true := by
  cases op with
  | createFrame | pushFrame | popFrame | call | ret => cases h
  | _ => rfl

end Opcode

/-- Whether the instruction declares a global variable. -/
def Instruction.declaresGlobal (i : Instruction) : Bool :=
  i.opcode == .defVar &&
    match i.operand? 0 with
    | some (.var v) => v.frame == .globals
    | _ => false

/-- The instruction has to find the frame before anything else. -/
def Instruction.Needs (i : Instruction) (kind : FrameKind) : Prop :=
  i.opcode = .pushFrame ∧ kind = .temporary ∨ i.opcode = .popFrame ∧ kind = .locals ∨
    (i.opcode.signature.head? = some .var ∨ i.opcode.signature.head? = some .symb) ∧
      ∃ name, i.operand? 0 = some (.var ⟨kind, name⟩)

namespace Frame

variable {f f' : Frame} {name : String}

theorem WritesOne.names_eq (h : f.WritesOne name f') : f'.names = f.names := by
  obtain ⟨k, cell, x, -, hcell, hwritten, hothers, -⟩ := h
  refine List.ext_getElem? fun j => ?_
  by_cases hj : j = k
  · simp [names, hj, hcell, hwritten]
  · simp [names, hothers j hj]

theorem WritesOne.size_eq (h : f.WritesOne name f') : f'.size = f.size := by
  simpa [names, size] using congrArg List.length h.names_eq

theorem AddsOne.size_eq (h : f.AddsOne name f') : f'.size = f.size + 1 := by
  obtain ⟨-, hcells, -⟩ := h
  simp [size, hcells]

end Frame

namespace Machine

variable {labels : LabelTable} {i : Instruction} {m m' : Machine} {flow : Flow}

/-! ## One instruction -/

/-- How one instruction moves what is counted over a run. -/
structure Shifts (i : Instruction) (m m' : Machine) : Prop where
  locals : m'.locals.length + [i.opcode].count .popFrame =
    m.locals.length + [i.opcode].count .pushFrame
  calls : m'.calls.length + [i.opcode].count .ret = m.calls.length + [i.opcode].count .call
  temporary : m'.temporary.isSome =
    if i.opcode.movesFrame then i.opcode != .pushFrame else m.temporary.isSome

theorem Shifts.of_keepsDepths (hop : i.opcode.keepsDepths = true)
    (hlocals : m'.locals.length = m.locals.length) (hcalls : m'.calls = m.calls)
    (htemporary : m'.temporary.isSome = m.temporary.isSome) : Shifts i m m' := by
  simp only [Opcode.keepsDepths, List.mem_cons, List.not_mem_nil, or_false, not_or,
    decide_eq_true_eq] at hop
  constructor <;> simp [hop, hlocals, hcalls, htemporary, Opcode.movesFrame]

/-- Changing a frame in its place moves nothing. -/
theorem Shifts.setFrame (hop : i.opcode.keepsDepths = true) {kind : FrameKind} {f f' : Frame}
    (found : m.frame? kind = some f) : Shifts i m (m.setFrame kind f') := by
  refine .of_keepsDepths hop (length_setFrame m kind f') ?_ ?_
  · rw [setFrame_framesOnly m kind f']
  · rw [(replaces_setFrame found f').temporary]
    split
    · next hkind =>
      subst hkind
      have htemporary : m.temporary = some f := found
      rw [htemporary]
      rfl
    · rfl

theorem Effect.shifts (h : Effect labels i m flow m') : Shifts i m m' := by
  cases h with
  | created opcode | pushed opcode | called opcode => constructor <;> rw [opcode] <;> rfl
  | popped opcode top | returned opcode top => constructor <;> simp [opcode, top, Opcode.movesFrame]
  | none opcode => exact .of_keepsDepths (Opcode.keepsDepths_of_onlyGoes opcode) rfl rfl rfl
  | stacked opcode => exact .of_keepsDepths (Opcode.keepsDepths_of_onlyStacks opcode) rfl rfl rfl
  | declared opcode operand found => exact .setFrame (by rw [opcode]; rfl) found
  | written opcode operand found set =>
    obtain ⟨hlocals, hcalls, htemporary⟩ :=
      Shifts.setFrame (Opcode.keepsDepths_of_writes opcode) found
    exact ⟨hlocals, hcalls, htemporary⟩
  | cleared opcode | output opcode => exact .of_keepsDepths (by rw [opcode]; rfl) rfl rfl rfl
  | diagnosed opcode =>
    refine .of_keepsDepths ?_ rfl rfl rfl
    obtain opcode | opcode := opcode <;> rw [opcode] <;> rfl

theorem Effect.size_globals (h : Effect labels i m flow m') :
    m'.globals.size = m.globals.size + [i].countP Instruction.declaresGlobal := by
  by_cases hdeclares : i.opcode = .defVar
  · obtain ⟨v, f, f', hv, hf, hadds, hglobals, -, -⟩ := h.adds_one hdeclares
    rw [hglobals]
    split
    · next hkind =>
      rw [hkind] at hf
      cases hf
      simp [hadds.size_eq, Instruction.declaresGlobal, hdeclares, hv, hkind]
    · next hkind => simp [Instruction.declaresGlobal, hdeclares, hv, hkind]
  · have hnone : [i].countP Instruction.declaresGlobal = 0 := by
      simp [Instruction.declaresGlobal, hdeclares]
    rw [hnone, Nat.add_zero]
    by_cases hwrites : i.opcode.writes = true
    · obtain ⟨v, f, f', hv, hf, hwritten, hglobals, -, -⟩ := h.writes_one hwrites
      rw [hglobals]
      split
      · next hkind =>
        rw [hkind] at hf
        cases hf
        exact hwritten.size_eq
      · rfl
    · have hpart : i.opcode.mayChange .globals = false := by
        simp [Opcode.mayChange, hdeclares, hwrites]
      have hsame : m'.globals = m.globals := h.same hpart
      rw [hsame]

theorem calls_progress (s : Step) : s.progress.machine.calls = s.machine.calls := by
  unfold Step.progress
  split <;> rfl

/-! ## Runs -/

/-- The instruction that the machine is at, if it succeeds. -/
def success? (p : Program) (m : Machine) : Option Instruction :=
  (p.fetch? m.position).filter fun i => (m.counted.step p.labels i).result.isOk

/-- The instructions that have succeeded among the first `n` that a run has executed, in order.
Where the run has stopped it is taken up again. -/
def successes (p : Program) (n : Nat) (m : Machine) : List Instruction :=
  (List.range n).filterMap fun k => (m.after p k).success? p

theorem successes_succ (p : Program) (n : Nat) (m : Machine) :
    m.successes p (n + 1) = m.successes p n ++ ((m.after p n).success? p).toList := by
  rw [successes, List.range_succ, List.filterMap_append]
  cases hsuccess : (m.after p n).success? p <;> simp [successes, hsuccess]

/-- Whether a frame does not exist once the instructions have succeeded: the temporary frame until
one is created, and while the last one has been pushed; a local frame while all that were pushed
have been popped. -/
def Missing (done : List Instruction) : FrameKind → Prop
  | .globals => False
  | .temporary =>
    let moves := (done.map Instruction.opcode).filter Opcode.movesFrame
    moves = [] ∨ moves.getLast? = some .pushFrame
  | .locals =>
    (done.map Instruction.opcode).count .pushFrame = (done.map Instruction.opcode).count .popFrame

/-- The state of a machine is what the instructions that have succeeded add up to. -/
structure Tally (done : List Instruction) (m : Machine) : Prop where
  locals : m.locals.length + (done.map Instruction.opcode).count .popFrame =
    (done.map Instruction.opcode).count .pushFrame
  calls : m.calls.length + (done.map Instruction.opcode).count .ret =
    (done.map Instruction.opcode).count .call
  temporary : m.temporary.isSome = true ↔
    ∃ op, ((done.map Instruction.opcode).filter Opcode.movesFrame).getLast? = some op ∧
      op ≠ .pushFrame
  globals : m.globals.size = done.countP Instruction.declaresGlobal

namespace Tally

variable {p : Program} {done : List Instruction}

theorem start (host : Host) : Tally [] (Machine.start host) := by
  constructor <;> simp [Machine.start, Frame.size]

theorem of_same (h : Tally done m) (hframes : m.SameFrames m') (hcalls : m'.calls = m.calls) :
    Tally done m' := by
  obtain ⟨hglobals, htemporary, hlocals⟩ := hframes
  obtain ⟨hl, hc, ht, hg⟩ := h
  constructor
  · rw [hlocals, hl]
  · rw [hcalls, hc]
  · rw [htemporary, ht]
  · rw [hglobals, hg]

theorem effect (h : Tally done m) (heffect : Effect labels i m flow m') :
    Tally (done ++ [i]) m' := by
  obtain ⟨hl, hc, ht⟩ := heffect.shifts
  constructor
  · have hlocals := h.locals
    simp only [List.map_append, List.count_append, List.map_cons, List.map_nil]
    omega
  · have hcalls := h.calls
    simp only [List.map_append, List.count_append, List.map_cons, List.map_nil]
    omega
  · rw [ht, List.map_append, List.filter_append]
    by_cases hmoves : i.opcode.movesFrame = true
    · simp [hmoves]
    · simp [hmoves, h.temporary]
  · rw [heffect.size_globals, h.globals, List.countP_append]

theorem advance (h : Tally done m) :
    Tally (done ++ (m.success? p).toList) (m.advance p).machine := by
  cases hi : p.fetch? m.position with
  | none =>
    rw [advance_of_none hi]
    simpa [success?, hi] using h
  | some i =>
    rw [advance_of_some hi]
    refine of_same ?_ (sameFrames_progress _) (calls_progress _)
    have hcounted : Tally done m.counted := h.of_same ⟨rfl, rfl, rfl⟩ rfl
    cases hresult : (m.counted.step p.labels i).result with
    | ok flow =>
      have hsuccess : m.success? p = some i := by
        simp [success?, hi, hresult, Except.isOk, Except.toBool]
      rw [hsuccess]
      exact hcounted.effect ((step_outcome p.labels i m.counted).effect flow hresult)
    | error e =>
      have hsuccess : m.success? p = none := by
        simp [success?, hi, hresult, Except.isOk, Except.toBool]
      rw [hsuccess, Option.toList_none, List.append_nil]
      obtain ⟨hframes, hcalls⟩ := ((step_outcome p.labels i m.counted).leaves e hresult).same
      exact hcounted.of_same hframes hcalls

theorem after (p : Program) (host : Host) (n : Nat) :
    Tally ((Machine.start host).successes p n) ((Machine.start host).after p n) := by
  induction n with
  | zero => exact start host
  | succ n ih =>
    rw [successes_succ, after_succ]
    exact ih.advance

theorem frame?_eq_none_iff (h : Tally done m) (kind : FrameKind) :
    m.frame? kind = none ↔ Missing done kind := by
  cases kind with
  | globals => simp [frame?, Missing]
  | locals =>
    have hlocals := h.locals
    simp only [frame?, Stack.top?, List.head?_eq_none_iff, Missing, ← List.length_eq_zero_iff]
    omega
  | temporary =>
    show m.temporary = none ↔ Missing done .temporary
    rw [← Option.not_isSome_iff_eq_none, h.temporary]
    simp only [Missing]
    generalize (done.map Instruction.opcode).filter Opcode.movesFrame = moves
    cases hlast : moves.getLast? with
    | none => simp [List.getLast?_eq_none_iff.mp hlast]
    | some op =>
      have hmoves : moves ≠ [] := by
        rintro rfl
        cases hlast
      simp [hmoves]

end Tally

/-! ## Accesses to frames -/

/-- What can be asked for of a variable. -/
inductive Access
  | find
  | read
  | write (x : Value)
  | declare

/-- Asks for the variable and tells what becomes of it. -/
def access (m : Machine) (v : Variable) : Access → Except RunError Unit
  | .find => (m.cell v).map fun _ => ()
  | .read => (m.value v).map fun _ => ()
  | .write x => (m.assign v x).map fun _ => ()
  | .declare => (m.declare v).map fun _ => ()

theorem exists_frame_of_code {e : RunError} (h : e.errorClass.code = 55) :
    ∃ kind, e.cause = .undefinedFrame kind := by
  unfold RunError.errorClass at h
  cases hcause : e.cause with
  | undefinedFrame kind => exact ⟨kind, rfl⟩
  | rejected op fault =>
    rw [hcause] at h
    cases fault <;> cases h
  | _ =>
    rw [hcause] at h
    cases h

/-- The computation fails for want of a frame only if the frame is wanting. -/
def Wants {α : Type} (m : Machine) (kind : FrameKind) (r : Except RunError α) : Prop :=
  FailsOnly (fun e => e.errorClass.code = 55 → m.frame? kind = none) r

namespace Wants

theorem of_code {α : Type} {kind : FrameKind} {e : RunError} (code : Nat)
    (h : e.errorClass.code = code) (hcode : code ≠ 55) :
    Wants m kind (.error e : Except RunError α) :=
  FailsOnly.error fun hwants => absurd (h.symm.trans hwants) hcode

theorem frame (m : Machine) (kind : FrameKind) : Wants m kind (m.frame kind) := by
  unfold Machine.frame
  cases hf : m.frame? kind with
  | none => exact .error fun _ => hf
  | some f => exact .ok f

theorem cell (m : Machine) (v : Variable) : Wants m v.frame (m.cell v) := by
  refine (frame m v.frame).bind fun f => ?_
  split
  · exact .ok _
  · exact of_code 54 rfl (by decide)

theorem access (m : Machine) (v : Variable) (a : Access) : Wants m v.frame (m.access v a) := by
  cases a with
  | find => exact (cell m v).map
  | read =>
    refine FailsOnly.map ((cell m v).bind fun cell => ?_)
    split
    · exact .ok _
    · exact of_code 56 rfl (by decide)
  | write x =>
    refine FailsOnly.map ((frame m v.frame).bind fun f => ?_)
    split
    · exact .ok _
    · exact of_code 54 rfl (by decide)
  | declare =>
    refine FailsOnly.map ((frame m v.frame).bind fun f => ?_)
    split
    · exact .ok _
    · exact of_code 52 rfl (by decide)

end Wants

section NoFrame

variable {v : Variable} (hnone : m.frame? v.frame = none)
include hnone

theorem frame_of_none : m.frame v.frame = .error ⟨m.position, .undefinedFrame v.frame⟩ := by
  simp only [frame, hnone]
  rfl

theorem cell_of_none : m.cell v = .error ⟨m.position, .undefinedFrame v.frame⟩ := by
  simp only [cell, frame_of_none hnone]
  rfl

theorem value_of_none : m.value v = .error ⟨m.position, .undefinedFrame v.frame⟩ := by
  simp only [value, cell_of_none hnone]
  rfl

/-- Operands are looked up from left to right, so that the frame of the first one is the first to be
missed. Only POPS needs something else before. -/
theorem result_of_first_operand (labels : LabelTable)
    (hslot : i.opcode.signature.head? = some .var ∨ i.opcode.signature.head? = some .symb)
    (ho : i.operand? 0 = some (.var v)) (hpops : i.opcode = .pops → m.data ≠ []) :
    (m.step labels i).result = .error ⟨m.position, .undefinedFrame v.frame⟩ := by
  have hdestination : destination i 0 = .ok v := by simp only [destination, ho]
  have hsymbol : m.symbol i 0 = .error ⟨m.position, .undefinedFrame v.frame⟩ := by
    simp only [symbol, ho, value_of_none hnone]
  cases hop : i.opcode with
  | defVar =>
    simp only [step, hop, hdestination, declare, bind, Except.bind, frame_of_none hnone]
    rfl
  | move | unary op | strlen =>
    simp only [step, hop, unary, hdestination, bind, Except.bind, cell_of_none hnone]
    rfl
  | binary op | concat | getChar =>
    simp only [step, hop, binary, hdestination, bind, Except.bind, cell_of_none hnone]
    rfl
  | setChar =>
    simp only [step, hop, setChar, hdestination, bind, Except.bind, value_of_none hnone]
    rfl
  | type =>
    simp only [step, hop, type, hdestination, bind, Except.bind, cell_of_none hnone]
    rfl
  | read =>
    simp only [step, hop, read, readOperands, hdestination, bind, Except.bind, cell_of_none hnone]
    rfl
  | pops =>
    obtain ⟨x, rest, hdata⟩ := List.exists_cons_of_ne_nil (hpops hop)
    have hnone' : frame? { m with data := rest } v.frame = none :=
      ((SameFrames.data m rest).frame? v.frame).trans hnone
    simp only [step, hop, pop, popping, hdata, Stack.pop?, hdestination, assign, bind, Except.bind,
      frame_of_none hnone']
    rfl
  | pushs | exit =>
    simp only [step, hop, hsymbol]
    rfl
  | write | dprint =>
    simp only [step, hop, withSymbol, hsymbol]
    rfl
  | _ =>
    rw [hop] at hslot
    simp [Opcode.signature] at hslot

end NoFrame

/-- An access fails for want of a frame if and only if the frame of the variable is wanting. -/
theorem access_eq_error_iff (m : Machine) (v : Variable) (a : Access) :
    (∃ e, m.access v a = .error e ∧ e.errorClass.code = 55) ↔ m.frame? v.frame = none := by
  constructor
  · rintro ⟨e, he, hcode⟩
    exact Wants.access m v a e he hcode
  · intro hnone
    refine ⟨⟨m.position, .undefinedFrame v.frame⟩, ?_, rfl⟩
    cases a <;> simp only [access, cell, value, assign, declare, frame_of_none hnone] <;> rfl

/-- An instruction that cannot find the first frame that it needs fails for just that. -/
theorem result_of_needs {kind : FrameKind} (labels : LabelTable) (hneeds : i.Needs kind)
    (hpops : i.opcode = .pops → m.data ≠ []) (hnone : m.frame? kind = none) :
    (m.step labels i).result = .error ⟨m.position, .undefinedFrame kind⟩ := by
  obtain ⟨hop, rfl⟩ | ⟨hop, rfl⟩ | ⟨hslot, name, ho⟩ := hneeds
  · have htemporary : m.temporary = none := hnone
    simp only [step, hop, pushFrame, htemporary]
    rfl
  · have hlocals : m.locals = [] := List.head?_eq_none_iff.mp hnone
    simp only [step, hop, popFrame, hlocals, Stack.pop?]
    rfl
  · have hmissing : m.frame? (Variable.mk kind name).frame = none := hnone
    exact result_of_first_operand hmissing labels hslot ho hpops

theorem advance_of_needs {p : Program} {kind : FrameKind} (hi : p.fetch? m.position = some i)
    (hneeds : i.Needs kind) (hpops : i.opcode = .pops → m.data ≠ [])
    (hnone : m.frame? kind = none) :
    ∃ last, m.advance p = .stopped (.failed ⟨m.position, .undefinedFrame kind⟩) last := by
  have hresult : (m.counted.step p.labels i).result = .error ⟨m.position, .undefinedFrame kind⟩ :=
    result_of_needs p.labels hneeds hpops hnone
  refine ⟨(m.counted.step p.labels i).machine, ?_⟩
  simp only [advance_of_some hi, Step.progress, hresult]

/-- **The history of a run decides its state.** At every moment of a run, stops that it was taken
up again after included, the depths of the local frames and of the calls, the presence of the
temporary frame and the size of the global one are what the instructions that have succeeded so
far add up to. Hence so does what fails for want of a frame: an access to a variable, whatever is
asked for of it, fails with code 55 just if its frame is missing by that count, an instruction
stops the run for the frame that it needs first, and nothing else ever stops it with that code. -/
theorem state_of_history (p : Program) (host : Host) (n : Nat) :
    let m := (Machine.start host).after p n
    let done := (Machine.start host).successes p n
    Tally done m ∧
    (∀ v a, (∃ e, m.access v a = .error e ∧ e.errorClass.code = 55) ↔ Missing done v.frame) ∧
    (∀ i kind, p.fetch? m.position = some i → i.Needs kind → (i.opcode = .pops → m.data ≠ []) →
      Missing done kind →
      ∃ last, m.advance p = .stopped (.failed ⟨m.position, .undefinedFrame kind⟩) last) ∧
    ∀ e last, m.advance p = .stopped (.failed e) last → e.errorClass.code = 55 →
      ∃ kind, e.cause = .undefinedFrame kind ∧ Missing done kind := by
  intro m done
  have htally : Tally done m := .after p host n
  refine ⟨htally, fun v a => ?_, fun i kind hi hneeds hpops hmissing => ?_,
    fun e last h hcode => ?_⟩
  · rw [access_eq_error_iff, htally.frame?_eq_none_iff]
  · exact advance_of_needs hi hneeds hpops ((htally.frame?_eq_none_iff kind).mpr hmissing)
  · obtain ⟨kind, hcause⟩ := exists_frame_of_code hcode
    obtain ⟨i, -, hresult⟩ := exists_result_of_failed h
    have hbears := ((step_outcome p.labels i m.counted).leaves e hresult).bearsOut
    rw [hcause] at hbears
    exact ⟨kind, hcause, (htally.frame?_eq_none_iff kind).mp hbears⟩

/-- A declaration in a frame that has been pushed away, which fails again each time that the run is
taken up. -/
theorem state_of_history_after_push :
    let p : Program := {
      instructions := #[⟨1, .createFrame, []⟩, ⟨2, .pushFrame, []⟩,
        ⟨3, .defVar, [.var ⟨.temporary, "x"⟩]⟩]
      labels := .empty }
    let m := (Machine.start {}).after p 4
    let done := (Machine.start {}).successes p 4
    done.map Instruction.opcode = [.createFrame, .pushFrame] ∧ m.locals.length = 1 ∧
      Missing done .temporary ∧ ¬ Missing done .locals ∧
      (∃ e, m.access ⟨.temporary, "x"⟩ .read = .error e ∧ e.errorClass.code = 55) ∧
      ∃ last, m.advance p = .stopped (.failed ⟨3, .undefinedFrame .temporary⟩) last := by
  intro p m done
  obtain ⟨htally, haccess, hneeds, -⟩ := state_of_history p {} 4
  have hdone : done.map Instruction.opcode = [.createFrame, .pushFrame] := by decide +kernel
  have hposition : m.position = 3 := by decide +kernel
  have hmissing : Missing done .temporary := by
    simp only [Missing, hdone]
    decide
  have hlocal : ¬ Missing done .locals := by
    simp only [Missing, hdone]
    decide
  have hdepth : m.locals.length = 1 := by
    have hcounts := htally.locals
    rw [hdone] at hcounts
    simpa using hcounts
  have hfetch : p.fetch? m.position = some ⟨3, .defVar, [.var ⟨.temporary, "x"⟩]⟩ := by
    rw [hposition]
    rfl
  have hfirst : Instruction.Needs ⟨3, .defVar, [.var ⟨.temporary, "x"⟩]⟩ .temporary :=
    .inr (.inr ⟨.inl rfl, "x", rfl⟩)
  obtain ⟨last, hlast⟩ := hneeds _ .temporary hfetch hfirst (by simp) hmissing
  rw [hposition] at hlast
  exact ⟨hdone, hdepth, hmissing, hlocal, (haccess _ _).mpr hmissing, last, hlast⟩

end Machine

end FrameCode

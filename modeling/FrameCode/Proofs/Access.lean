import FrameCode.Machine.Step
import FrameCode.Proofs.Signature

/-! Access to frames, variables and operands. For each function there is one lemma on what it has
found where it succeeds, and one on its errors: what they say about frames and variables is so,
and they are ordinary if the operands fit (`Machine.Sound`). -/

namespace FrameCode

/-! ## One frame -/

namespace Frame

variable {f f' : Frame} {name : String} {value : Option Value}

theorem declare?_eq_some (h : f.declare? name = some f') : f.index[name]? = none ∧
    f' = { cells := f.cells.push { name }, index := f.index.insert name f.cells.size } := by
  unfold declare? at h
  split at h
  · cases h
  · next hnew =>
    cases h
    exact ⟨by simpa [contains] using hnew, rfl⟩

theorem set?_eq_some (h : f.set? name value = some f') : ∃ k, f.index[name]? = some k ∧
    k < f.cells.size ∧ f' = { f with cells := f.cells.modify k fun cell => { cell with value } } := by
  obtain ⟨k, hk, h⟩ := Option.bind_eq_some_iff.mp h
  split at h
  · next hlt =>
    cases h
    exact ⟨k, hk, hlt, rfl⟩
  · cases h

/-- A cell that can be found can be written. -/
theorem exists_set?_of_get? {cell : Cell} (h : f.get? name = some cell) (value : Option Value) :
    ∃ f', f.set? name value = some f' := by
  obtain ⟨k, hk, hcell⟩ := Option.bind_eq_some_iff.mp h
  obtain ⟨hlt, -⟩ := Array.getElem?_eq_some_iff.mp hcell
  exact Option.isSome_iff_exists.mp (by simp [set?, hk, hlt])

theorem get?_of_set? (h : f.set? name value = none) : f.get? name = none := by
  cases hget : f.get? name with
  | none => rfl
  | some cell =>
    obtain ⟨f', hset⟩ := exists_set?_of_get? hget value
    rw [h] at hset
    cases hset

end Frame

namespace Machine

/-! ## Machines with the same frames -/

/-- The two machines have the same frames. -/
structure SameFrames (m m' : Machine) : Prop where
  globals : m'.globals = m.globals
  temporary : m'.temporary = m.temporary
  locals : m'.locals = m.locals

namespace SameFrames

theorem refl (m : Machine) : m.SameFrames m := ⟨rfl, rfl, rfl⟩

theorem data (m : Machine) (data : Stack Value) : m.SameFrames { m with data } := ⟨rfl, rfl, rfl⟩

variable {m m' : Machine} (h : m.SameFrames m')
include h

theorem frame? (kind : FrameKind) : m'.frame? kind = m.frame? kind := by
  cases kind with
  | globals => exact congrArg some h.globals
  | locals => exact congrArg Stack.top? h.locals
  | temporary => exact h.temporary

/-- A frame that is replaced in two machines with the same frames. -/
theorem setFrame (kind : FrameKind) (f : Frame) :
    (m.setFrame kind f).SameFrames (m'.setFrame kind f) := by
  cases kind with
  | globals => exact ⟨rfl, h.temporary, h.locals⟩
  | locals => exact ⟨h.globals, h.temporary, by simp [Machine.setFrame, h.locals]⟩
  | temporary => exact ⟨h.globals, rfl, h.locals⟩

end SameFrames

/-- The two machines differ in their frames at most. -/
def FramesOnly (m m' : Machine) : Prop :=
  m' = { m with globals := m'.globals, temporary := m'.temporary, locals := m'.locals }

theorem setFrame_framesOnly (m : Machine) (kind : FrameKind) (f : Frame) :
    m.FramesOnly (m.setFrame kind f) := by
  cases kind <;> rfl

/-! ## What has been found -/

section Found

variable {m m' : Machine} {i : Instruction} {v : Variable}

theorem frame_eq_ok_iff {kind : FrameKind} {f : Frame} :
    m.frame kind = .ok f ↔ m.frame? kind = some f := by
  unfold frame
  cases m.frame? kind <;> simp

theorem cell_eq_ok {cell : Cell} (h : m.cell v = .ok cell) :
    ∃ f, m.frame? v.frame = some f ∧ f.get? v.name = some cell := by
  simp only [Machine.cell, bind_eq_ok_iff, frame_eq_ok_iff] at h
  obtain ⟨f, hf, h⟩ := h
  split at h
  · next hget =>
    cases h
    exact ⟨f, hf, hget⟩
  · cases h

theorem assign_eq_ok {x : Value} (h : m.assign v x = .ok m') :
    ∃ f f', m.frame? v.frame = some f ∧ f.set? v.name (some x) = some f' ∧
      m' = m.setFrame v.frame f' := by
  simp only [assign, bind_eq_ok_iff, frame_eq_ok_iff] at h
  obtain ⟨f, hf, h⟩ := h
  split at h
  · next f' hset =>
    cases h
    exact ⟨f, f', hf, hset, rfl⟩
  · cases h

theorem declare_eq_ok (h : m.declare v = .ok m') :
    ∃ f f', m.frame? v.frame = some f ∧ f.declare? v.name = some f' ∧
      m' = m.setFrame v.frame f' := by
  simp only [declare, bind_eq_ok_iff, frame_eq_ok_iff] at h
  obtain ⟨f, hf, h⟩ := h
  split at h
  · next f' hadd =>
    cases h
    exact ⟨f, f', hf, hadd, rfl⟩
  · cases h

/-- A variable that has been declared can be written. -/
theorem exists_assign_of_cell {cell : Cell} (h : m.cell v = .ok cell) (x : Value) :
    ∃ m', m.assign v x = .ok m' := by
  obtain ⟨f, hf, hget⟩ := cell_eq_ok h
  obtain ⟨f', hset⟩ := Frame.exists_set?_of_get? hget (some x)
  refine ⟨m.setFrame v.frame f', ?_⟩
  simp only [assign, bind_eq_ok_iff, frame_eq_ok_iff]
  exact ⟨f, hf, by rw [hset]; rfl⟩

theorem destination_eq_ok {k : Nat} (h : destination i k = .ok v) : i.operand? k = some (.var v) := by
  unfold destination at h
  split at h
  · next ho =>
    cases h
    exact ho
  · cases h

theorem target_eq_ok {labels : LabelTable} {k target : Nat} (h : m.target labels i k = .ok target) :
    ∃ name, i.operand? k = some (.label name) ∧ labels.resolve? name = some target := by
  unfold Machine.target at h
  split at h
  · next name ho =>
    split at h
    · next position hr =>
      cases h
      exact ⟨name, ho, hr⟩
    · cases h
  · cases h

theorem readOperands_eq_ok {tag : TypeTag} (h : m.readOperands i = .ok (v, tag)) :
    i.operand? 0 = some (.var v) ∧ i.operand? 1 = some (.type tag) ∧ ∃ cell, m.cell v = .ok cell := by
  obtain ⟨v', hv, h⟩ := bind_eq_ok_iff.mp h
  obtain ⟨cell, hcell, h⟩ := bind_eq_ok_iff.mp h
  split at h
  · next tag htag =>
    cases h
    exact ⟨destination_eq_ok hv, htag, cell, hcell⟩
  · cases h

end Found

end Machine

/-! ## Errors at the instruction that is running -/

/-- Causes that lie in the program's own data: no malformed operand and no host. -/
def Cause.isOrdinary : Cause → Bool
  | .malformedOperand .. | .host _ => false
  | _ => true

namespace Machine

/-- An error with an ordinary cause at the machine's position. -/
def Ordinary (m : Machine) (e : RunError) : Prop :=
  e.position = m.position ∧ e.cause.isOrdinary = true

/-- What the cause of an error says about frames and variables is so. -/
def BearsOut (m : Machine) : Cause → Prop
  | .undefinedFrame kind => m.frame? kind = none
  | .undefinedVariable v => ∃ f, m.frame? v.frame = some f ∧ f.get? v.name = none
  | .redefinition v => ∃ f, m.frame? v.frame = some f ∧ f.declare? v.name = none
  | .unsetVariable v => ∃ f cell, m.frame? v.frame = some f ∧ f.get? v.name = some cell ∧
      cell.value = none
  | _ => True

/-- An error of an instruction that does not want for values on the operand stack. The state bears
it out, and it is ordinary if the operands fit. -/
structure Sound (i : Instruction) (m : Machine) (e : RunError) : Prop where
  supplied : e.cause ≠ .emptyStack
  bearsOut : m.BearsOut e.cause
  ordinary : i.Conforms → m.Ordinary e

namespace Sound

variable {i : Instruction} {m : Machine}

theorem of_cause {cause : Cause} (hsupplied : cause ≠ .emptyStack) (hbears : m.BearsOut cause)
    (hordinary : cause.isOrdinary = true) : Sound i m (m.error cause) :=
  ⟨hsupplied, hbears, fun _ => ⟨rfl, hordinary⟩⟩

theorem of_malformed {position index : Nat} (h : ¬i.Conforms) :
    Sound i m ⟨position, .malformedOperand i.opcode index⟩ :=
  ⟨by simp, trivial, fun hi => absurd hi h⟩

/-- The operand stack has no part in it. -/
theorem of_data {α : Type} {data : Stack Value} {r : Except RunError α}
    (h : FailsOnly (Sound i { m with data }) r) : FailsOnly (Sound i m) r := by
  intro e he
  obtain ⟨hsupplied, hbears, hordinary⟩ := h e he
  refine ⟨hsupplied, ?_, hordinary⟩
  have hframe := (SameFrames.data m data).frame?
  cases hc : e.cause with
  | undefinedFrame kind | undefinedVariable v | redefinition v | unsetVariable v =>
    rw [hc] at hbears
    simpa only [BearsOut, hframe] using hbears
  | undefinedLabel name | emptyStack | emptyCallStack | malformedOperand op index
  | rejected op fault | host message => trivial

/-! ### Frames and variables -/

theorem frame_bind {α : Type} {kind : FrameKind} {g : Frame → Except RunError α}
    (hg : ∀ f, m.frame? kind = some f → FailsOnly (Sound i m) (g f)) :
    FailsOnly (Sound i m) (m.frame kind >>= g) := by
  unfold Machine.frame
  cases hf : m.frame? kind with
  | none => exact .error (.of_cause (by simp) hf rfl)
  | some f => exact hg f hf

theorem cell (v : Variable) : FailsOnly (Sound i m) (m.cell v) := by
  refine frame_bind fun f hf => ?_
  split
  · exact .ok _
  · next hget => exact .error (.of_cause (by simp) ⟨f, hf, hget⟩ rfl)

theorem value (v : Variable) : FailsOnly (Sound i m) (m.value v) := by
  unfold Machine.value
  cases hcell : m.cell v with
  | error e => exact .error (cell v e hcell)
  | ok cell =>
    obtain ⟨f, hf, hget⟩ := cell_eq_ok hcell
    cases hvalue : cell.value with
    | none =>
      simp only [bind, Except.bind, hvalue]
      exact .error (.of_cause (by simp) ⟨f, cell, hf, hget, hvalue⟩ rfl)
    | some x =>
      simp only [bind, Except.bind, hvalue]
      exact .ok x

theorem assign (v : Variable) (x : Value) : FailsOnly (Sound i m) (m.assign v x) := by
  refine frame_bind fun f hf => ?_
  split
  · exact .ok _
  · next hset => exact .error (.of_cause (by simp) ⟨f, hf, Frame.get?_of_set? hset⟩ rfl)

theorem declare (v : Variable) : FailsOnly (Sound i m) (m.declare v) := by
  refine frame_bind fun f hf => ?_
  split
  · exact .ok _
  · next hdeclare => exact .error (.of_cause (by simp) ⟨f, hf, hdeclare⟩ rfl)

theorem pushFrame : FailsOnly (Sound i m) m.pushFrame := by
  unfold Machine.pushFrame
  split
  · exact .ok _
  · next hnone => exact .error (.of_cause (by simp) hnone rfl)

theorem popFrame : FailsOnly (Sound i m) m.popFrame := by
  unfold Machine.popFrame
  split
  · exact .ok _
  · next hnone =>
    have hframe : m.frame? .locals = none := congrArg List.head? (Stack.pop?_eq_none_iff.mp hnone)
    exact .error (.of_cause (by simp) hframe rfl)

/-! ### Operands -/

theorem accept {α : Type} (result : Except Fault α) : FailsOnly (Sound i m) (m.accept i result) := by
  cases result with
  | ok a => exact .ok a
  | error fault => exact .error (.of_cause (by simp) trivial rfl)

variable {k : Nat}

theorem destination (hs : i.opcode.signature[k]? = some .var) :
    FailsOnly (Sound i m) (Machine.destination i k) := by
  unfold Machine.destination
  split
  · exact .ok _
  · next hother =>
    refine .error (.of_malformed fun hi => ?_)
    obtain ⟨o, ho, hfit⟩ := hi.operand?_eq_some hs
    cases o with
    | var v => exact hother v ho
    | const value | label name | type tag => cases hfit

theorem symbol (hs : i.opcode.signature[k]? = some .symb) : FailsOnly (Sound i m) (m.symbol i k) := by
  unfold Machine.symbol
  split
  · exact .ok _
  · exact value _
  · next hconst hvar => exact .error (.of_malformed (Instruction.not_conforms_of_symb hs hconst hvar))

theorem target (labels : LabelTable) (hs : i.opcode.signature[k]? = some .label) :
    FailsOnly (Sound i m) (m.target labels i k) := by
  unfold Machine.target
  split
  · split
    · exact .ok _
    · exact .error (.of_cause (by simp) trivial rfl)
  · next hother =>
    refine .error (.of_malformed fun hi => ?_)
    obtain ⟨o, ho, hfit⟩ := hi.operand?_eq_some hs
    obtain ⟨name, rfl, -⟩ := Slot.eq_label_of_accepts hfit
    exact hother name ho

theorem readOperands (hs : i.opcode.signature = [.var, .type]) :
    FailsOnly (Sound i m) (m.readOperands i) := by
  refine (destination (by simp [hs])).bind fun v => (cell v).bind fun _ => ?_
  split
  · exact .ok _
  · next hother =>
    refine .error (.of_malformed fun hi => ?_)
    have hslot : i.opcode.signature[1]? = some .type := by simp [hs]
    obtain ⟨o, ho, hfit⟩ := hi.operand?_eq_some hslot
    cases o with
    | type tag => exact hother tag ho
    | var v | const value | label name => cases hfit

end Sound

/-! ## Writes to the first operand -/

/-- Where a computation gives a machine, it has written the variable that the first operand
names, and no other. -/
def WritesFirst (i : Instruction) (m : Machine) : Except RunError Machine → Prop :=
  Yields (fun m' => ∃ v x, i.operand? 0 = some (.var v) ∧ m.assign v x = .ok m') (Sound i m)

namespace WritesFirst

variable {i : Instruction} {m : Machine}

theorem assign {v : Variable} (hv : destination i 0 = .ok v) (x : Value) :
    WritesFirst i m (m.assign v x) :=
  ⟨fun _ h => ⟨v, x, destination_eq_ok hv, h⟩, Sound.assign v x⟩

theorem unary (hs : i.opcode.signature = [.var, .symb]) (f : Value → Except Fault Value) :
    WritesFirst i m (m.unary i f) :=
  .bind (Sound.destination (by simp [hs])) fun _ hv => .bind (Sound.cell _) fun _ _ =>
    .bind (Sound.symbol (by simp [hs])) fun _ _ => .bind (Sound.accept _) fun y _ => assign hv y

theorem binary (hs : i.opcode.signature = [.var, .symb, .symb])
    (f : Value → Value → Except Fault Value) : WritesFirst i m (m.binary i f) :=
  .bind (Sound.destination (by simp [hs])) fun _ hv => .bind (Sound.cell _) fun _ _ =>
    .bind (Sound.symbol (by simp [hs])) fun _ _ => .bind (Sound.symbol (by simp [hs])) fun _ _ =>
      .bind (Sound.accept _) fun z _ => assign hv z

theorem setChar (hs : i.opcode.signature = [.var, .symb, .symb]) : WritesFirst i m (m.setChar i) :=
  .bind (Sound.destination (by simp [hs])) fun _ hv => .bind (Sound.value _) fun _ _ =>
    .bind (Sound.symbol (by simp [hs])) fun _ _ => .bind (Sound.symbol (by simp [hs])) fun _ _ =>
      .bind (Sound.accept _) fun x _ => assign hv x

theorem type (hs : i.opcode.signature = [.var, .symb]) : WritesFirst i m (m.type i) := by
  refine .bind (Sound.destination (by simp [hs])) fun v hv => .bind (Sound.cell v) fun _ _ => ?_
  split
  · exact assign hv _
  · refine .bind (Sound.cell _) fun cell _ => ?_
    split
    · exact assign hv _
    · exact assign hv _
  · next hconst hvar =>
    have hslot : i.opcode.signature[1]? = some .symb := by simp [hs]
    exact .fail (.of_malformed (Instruction.not_conforms_of_symb hslot hconst hvar))

end WritesFirst

end Machine

end FrameCode

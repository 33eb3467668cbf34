import FrameCode.Proofs.Frames

/-! What an instruction that succeeds leaves alone. Which part of the state an opcode can change at
all is read off the effects that it can have. -/

namespace FrameCode

/-- The frames differ in the value of one cell: the one that the name stands for. -/
def Frame.WritesOne (name : String) (f f' : Frame) : Prop :=
  ∃ (k : Nat) (cell : Cell) (x : Value), f.index[name]? = some k ∧ f.cells[k]? = some cell ∧
    f'.cells[k]? = some { cell with value := some x } ∧ (∀ j ≠ k, f'.cells[j]? = f.cells[j]?) ∧
    f'.index = f.index

/-- The second frame has one more cell, which has no value, behind those of the first. -/
def Frame.AddsOne (name : String) (f f' : Frame) : Prop :=
  f.index[name]? = none ∧ f'.cells = f.cells.push { name } ∧
    f'.index = f.index.insert name f.cells.size

theorem Frame.writesOne_of_set? {f f' : Frame} {name : String} {x : Value}
    (h : f.set? name (some x) = some f') : f.WritesOne name f' := by
  obtain ⟨k, hk, hlt, rfl⟩ := set?_eq_some h
  refine ⟨k, f.cells[k], x, hk, Array.getElem?_eq_getElem hlt, ?_, fun j hj => ?_, rfl⟩
  · rw [Array.getElem?_modify, if_pos rfl, Array.getElem?_eq_getElem hlt]
    rfl
  · simp [Array.getElem?_modify, hj.symm]

theorem Frame.addsOne_of_declare? {f f' : Frame} {name : String}
    (h : f.declare? name = some f') : f.AddsOne name f' := by
  obtain ⟨hnew, rfl⟩ := declare?_eq_some h
  exact ⟨hnew, rfl, rfl⟩

/-- The parts of a machine that instructions work on. -/
inductive Part
  | globals
  | temporary
  | locals
  | data
  | calls
  | input
  | output
  | diagnostics
deriving DecidableEq

/-- The two machines agree in the part. -/
def Part.Same (m m' : Machine) : Part → Prop
  | globals => m'.globals = m.globals
  | temporary => m'.temporary = m.temporary
  | locals => m'.locals = m.locals
  | data => m'.data = m.data
  | calls => m'.calls = m.calls
  | input => m'.host.input = m.host.input
  | output => m'.host.output = m.host.output
  | diagnostics => m'.host.diagnostics = m.host.diagnostics

namespace Opcode

theorem writes_of_onlyGoes {op : Opcode} (h : op.onlyGoes = true) : op.writes = false := by
  cases op with
  | label | jump | jumpIf _ | exit => rfl
  | _ => cases h

theorem writes_of_onlyStacks {op : Opcode} (h : op.onlyStacks = true) : op.writes = false := by
  cases op with
  | pushs | unaryStack _ | binaryStack _ | jumpIfStack _ => rfl
  | _ => cases h

/-- Whether an instruction with the opcode can change a part of the machine. -/
def mayChange (op : Opcode) : Part → Bool
  | .globals => op.writes || op == .defVar
  | .temporary => op.writes || op ∈ [.defVar, .createFrame, .pushFrame, .popFrame]
  | .locals => op.writes || op ∈ [.defVar, .pushFrame, .popFrame]
  | .data => op.onlyStacks || op ∈ [.pops, .clears]
  | .calls => op ∈ [.call, .ret]
  | .input => op == .read
  | .output => op == .write
  | .diagnostics => op ∈ [.dprint, .breakpoint]

end Opcode

namespace Machine

/-! ## What is left alone -/

/-- A frame stands where another one was; all other frames are the same. -/
structure Replaces (kind : FrameKind) (f' : Frame) (m m' : Machine) : Prop where
  globals : m'.globals = if kind = .globals then f' else m.globals
  temporary : m'.temporary = if kind = .temporary then some f' else m.temporary
  locals : m'.locals = if kind = .locals then f' :: m.locals.tail else m.locals

theorem replaces_setFrame {m : Machine} {kind : FrameKind} {f : Frame}
    (found : m.frame? kind = some f) (f' : Frame) : Replaces kind f' m (m.setFrame kind f') := by
  cases kind with
  | globals | temporary => exact ⟨rfl, rfl, rfl⟩
  | locals =>
    obtain ⟨rest, hlocals⟩ := List.head?_eq_some_iff.mp found
    refine ⟨rfl, rfl, ?_⟩
    simp [setFrame, hlocals, Stack.setTop?]

namespace Effect

variable {labels : LabelTable} {i : Instruction} {m m' : Machine} {flow : Flow} {part : Part}

theorem same (h : Effect labels i m flow m') (hpart : i.opcode.mayChange part = false) : part.Same m m' := by
  cases h with
  | none => cases part <;> rfl
  | created opcode =>
    rw [opcode] at hpart
    cases part with
    | temporary => cases hpart
    | _ => rfl
  | pushed opcode | popped opcode =>
    rw [opcode] at hpart
    cases part with
    | temporary | locals => cases hpart
    | _ => rfl
  | called opcode | returned opcode =>
    rw [opcode] at hpart
    cases part with
    | calls => cases hpart
    | _ => rfl
  | declared opcode operand found added =>
    rw [opcode] at hpart
    rw [setFrame_framesOnly m _ _]
    cases part with
    | globals | temporary | locals => cases hpart
    | _ => rfl
  | written opcode operand found set popped read =>
    rw [setFrame_framesOnly m _ _]
    cases part with
    | globals | temporary | locals => simp [Opcode.mayChange, opcode] at hpart
    | data =>
      obtain hkept | ⟨hop, -⟩ := popped
      · exact hkept
      · rw [hop] at hpart
        cases hpart
    | input =>
      obtain hkept | ⟨hop, -⟩ := read
      · exact congrArg Host.input hkept
      · rw [hop] at hpart
        cases hpart
    | output | diagnostics =>
      obtain rfl | ⟨-, input, rfl⟩ := read
      · rfl
      · rfl
    | calls => rfl
  | stacked opcode =>
    cases part with
    | data => simp [Opcode.mayChange, opcode] at hpart
    | _ => rfl
  | cleared opcode =>
    rw [opcode] at hpart
    cases part with
    | data => cases hpart
    | _ => rfl
  | output opcode =>
    rw [opcode] at hpart
    cases part with
    | output => cases hpart
    | _ => rfl
  | diagnosed opcode =>
    cases part with
    | diagnostics => obtain hop | hop := opcode <;> simp [Opcode.mayChange, hop] at hpart
    | _ => rfl

/-- An instruction that writes a variable has written that one and no other. -/
theorem writes_one (h : Effect labels i m flow m') (hop : i.opcode.writes = true) :
    ∃ v f f', i.operand? 0 = some (.var v) ∧ m.frame? v.frame = some f ∧ f.WritesOne v.name f' ∧
      Replaces v.frame f' m m' := by
  cases h with
  | written opcode operand found set popped read =>
    obtain ⟨hglobals, htemporary, hlocals⟩ := replaces_setFrame found _
    exact ⟨_, _, _, operand, found, Frame.writesOne_of_set? set, hglobals, htemporary, hlocals⟩
  | none opcode =>
    rw [Opcode.writes_of_onlyGoes opcode] at hop
    cases hop
  | stacked opcode =>
    rw [Opcode.writes_of_onlyStacks opcode] at hop
    cases hop
  | created opcode | pushed opcode | popped opcode | called opcode | returned opcode
  | declared opcode | cleared opcode | output opcode =>
    rw [opcode] at hop
    cases hop
  | diagnosed opcode => obtain opcode | opcode := opcode <;> rw [opcode] at hop <;> cases hop

theorem adds_one (h : Effect labels i m flow m') (hop : i.opcode = .defVar) :
    ∃ v f f', i.operand? 0 = some (.var v) ∧ m.frame? v.frame = some f ∧ f.AddsOne v.name f' ∧
      Replaces v.frame f' m m' := by
  cases h with
  | declared opcode operand found added =>
    exact ⟨_, _, _, operand, found, Frame.addsOne_of_declare? added, replaces_setFrame found _⟩
  | none opcode | created opcode | pushed opcode | popped opcode | called opcode | returned opcode
  | written opcode | stacked opcode | cleared opcode | output opcode =>
    rw [hop] at opcode
    cases opcode
  | diagnosed opcode => obtain opcode | opcode := opcode <;> rw [hop] at opcode <;> cases opcode

/-- Only the top of the operand stack is worked on, unless the stack is cleared. -/
theorem data_kept (h : Effect labels i m flow m') (hop : i.opcode ≠ .clears) :
    ∃ taken added kept, m.data = taken ++ kept ∧ m'.data = added ++ kept ∧ taken.length ≤ 2 ∧
      added.length ≤ 1 := by
  cases h with
  | stacked opcode goes before few one => exact ⟨_, _, _, before, rfl, few, one⟩
  | written opcode operand found set popped read =>
    obtain rfl | ⟨-, y, hdata⟩ := popped
    · exact ⟨[], [], m.data, rfl, rfl, Nat.zero_le 2, Nat.zero_le 1⟩
    · exact ⟨[y], [], _, hdata, rfl, Nat.le_succ 1, Nat.zero_le 1⟩
  | declared =>
    rw [setFrame_framesOnly m _ _]
    exact ⟨[], [], m.data, rfl, rfl, Nat.zero_le 2, Nat.zero_le 1⟩
  | cleared opcode => exact absurd opcode hop
  | none | created | pushed | popped | called | returned | output | diagnosed =>
    exact ⟨[], [], m.data, rfl, rfl, Nat.zero_le 2, Nat.zero_le 1⟩

end Effect

/-- **What an instruction leaves alone.** Whenever an instruction succeeds, whatever the state:
one that writes the variable in front of its operands has changed the value of that one cell of
the frame that the variable names, and DEFVAR has put one cell without a value behind those of
its frame. No other frame has changed, unless the instruction creates, pushes or pops one, and
the other parts of the machine have only changed for the opcodes that `mayChange` lists. Of the
operand stack all but the two values on top is as it was, CLEARS apart. -/
theorem step_footprint {labels : LabelTable} {i : Instruction} {m : Machine} {flow : Flow}
    (h : (m.step labels i).result = .ok flow) :
    let m' := (m.step labels i).machine
    (i.opcode.writes = true → ∃ v f f', i.operand? 0 = some (.var v) ∧
      m.frame? v.frame = some f ∧ f.WritesOne v.name f' ∧ Replaces v.frame f' m m') ∧
    (i.opcode = .defVar → ∃ v f f', i.operand? 0 = some (.var v) ∧
      m.frame? v.frame = some f ∧ f.AddsOne v.name f' ∧ Replaces v.frame f' m m') ∧
    (∀ part, i.opcode.mayChange part = false → part.Same m m') ∧
    (i.opcode ≠ .clears → ∃ taken added kept, m.data = taken ++ kept ∧ m'.data = added ++ kept ∧
      taken.length ≤ 2 ∧ added.length ≤ 1) := by
  have heffect := (step_outcome labels i m).effect flow h
  exact ⟨heffect.writes_one, heffect.adds_one, fun _ hpart => heffect.same hpart, heffect.data_kept⟩

/-- A variable that all frames have is written in the local frame on top, and there only. -/
theorem step_footprint_of_shadowed :
    let f : Frame := {
      cells := #[⟨"x", some (.bool true)⟩, ⟨"y", none⟩]
      index := ((∅ : Std.ExtTreeMap String Nat).insert "x" 0).insert "y" 1 }
    let m : Machine := {
      globals := f, temporary := some f, locals := [f, f], data := [.int 1, .int 2, .int 3] }
    let s := m.step .empty ⟨1, .pops, [.var ⟨.locals, "x"⟩]⟩
    s.result = .ok .next ∧ s.machine.globals = f ∧ s.machine.temporary = some f ∧
      (∃ f', f.WritesOne "x" f' ∧ s.machine.locals = [f', f]) ∧ s.machine.calls = m.calls ∧
      ∃ taken kept, m.data = taken ++ kept ∧ kept <:+ s.machine.data ∧ taken.length ≤ 2 := by
  intro f m s
  have hresult : s.result = .ok .next := by decide +kernel
  obtain ⟨hwrites, -, hparts, hdata⟩ := step_footprint hresult
  obtain ⟨v, f₀, f', hv, hf, hone, hglobals, htemporary, hlocals⟩ := hwrites rfl
  cases hv
  cases hf
  obtain ⟨taken, added, kept, hbefore, hafter, hfew, -⟩ := hdata (by simp)
  exact ⟨hresult, hglobals, htemporary, ⟨f', hone, hlocals⟩, hparts .calls rfl, taken, kept,
    hbefore, ⟨added, hafter.symm⟩, hfew⟩

end Machine

end FrameCode

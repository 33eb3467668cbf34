import FrameCode.Proofs.Frames

/-! The global frame over a whole run. Of the changes that `Machine.step_frameChange` lists none
takes a global variable away or moves it, and none takes its value away: the frame only grows
(`Machine.globals_after`). Errors that are about variables say how things are, so that a variable
which is there is never reported as missing. -/

namespace FrameCode

/-- The cell can stand in for another: the name is the same, and a value is still there. -/
def Cell.Keeps (cell cell' : Cell) : Prop :=
  cell'.name = cell.name ∧ (cell.value.isSome = true → cell'.value.isSome = true)

namespace Frame

/-- The names of the variables, in the order of their declaration. -/
def names (f : Frame) : List String := f.cells.toList.map Cell.name

/-- New variables come behind those that the frame has; these stay in their places and keep
having values. -/
structure Grows (f f' : Frame) : Prop where
  cells : ∀ (k : Nat) cell, f.cells[k]? = some cell →
    ∃ cell', f'.cells[k]? = some cell' ∧ cell.Keeps cell'
  index : ∀ (name : String) (k : Nat), f.index[name]? = some k → f'.index[name]? = some k

namespace Grows

variable {f f' f'' : Frame} {name : String}

theorem refl (f : Frame) : f.Grows f := ⟨fun _ cell h => ⟨cell, h, rfl, id⟩, fun _ _ h => h⟩

theorem trans (h : f.Grows f') (h' : f'.Grows f'') : f.Grows f'' := by
  refine ⟨fun k cell hk => ?_, fun name k hk => h'.index name k (h.index name k hk)⟩
  obtain ⟨cell', hk', hname, hvalue⟩ := h.cells k cell hk
  obtain ⟨cell'', hk'', hname', hvalue'⟩ := h'.cells k cell' hk'
  exact ⟨cell'', hk'', hname'.trans hname, fun hset => hvalue' (hvalue hset)⟩

theorem declare? (h : f.declare? name = some f') : f.Grows f' := by
  obtain ⟨hnew, rfl⟩ := declare?_eq_some h
  refine ⟨fun k cell hk => ⟨cell, ?_, rfl, id⟩, fun other k hk => ?_⟩
  · obtain ⟨hlt, -⟩ := Array.getElem?_eq_some_iff.mp hk
    rw [Array.getElem?_push, if_neg (Nat.ne_of_lt hlt), hk]
  · have hother : name ≠ other := by
      rintro rfl
      rw [hnew] at hk
      cases hk
    rw [Std.ExtTreeMap.getElem?_insert, if_neg (by simpa using hother), hk]

theorem set? {x : Value} (h : f.set? name (some x) = some f') : f.Grows f' := by
  obtain ⟨place, -, -, rfl⟩ := set?_eq_some h
  refine ⟨fun k cell hk => ?_, fun _ _ hk => hk⟩
  by_cases hplace : place = k
  · refine ⟨{ cell with value := some x }, ?_, rfl, fun _ => rfl⟩
    simp [Array.getElem?_modify, hplace, hk]
  · refine ⟨cell, ?_, rfl, id⟩
    simp [Array.getElem?_modify, hplace, hk]

theorem names_grow (h : f.Grows f') : f.names <+: f'.names := by
  rw [List.prefix_iff_getElem?]
  intro k hk
  have hlt : k < f.cells.size := by simpa [names] using hk
  obtain ⟨cell', hcell', hname, -⟩ := h.cells k f.cells[k] (Array.getElem?_eq_getElem hlt)
  simp [names, hcell', hname]

theorem get? (h : f.Grows f') {cell : Cell} (hcell : f.get? name = some cell) :
    ∃ cell', f'.get? name = some cell' ∧ cell.Keeps cell' := by
  obtain ⟨k, hk, hcell⟩ := Option.bind_eq_some_iff.mp hcell
  obtain ⟨cell', hcell', hkeeps⟩ := h.cells k cell hcell
  exact ⟨cell', Option.bind_eq_some_iff.mpr ⟨k, h.index name k hk, hcell'⟩, hkeeps⟩

end Grows

theorem get?_of_declare? {f f' : Frame} {name : String} (h : f.declare? name = some f') :
    f'.get? name = some { name } := by
  obtain ⟨-, rfl⟩ := declare?_eq_some h
  simp [get?]

/-- The name of a variable that is there is taken. -/
theorem declare?_of_get? {f : Frame} {name : String} {cell : Cell} (h : f.get? name = some cell) :
    f.declare? name = none := by
  obtain ⟨k, hk, -⟩ := Option.bind_eq_some_iff.mp h
  have hcontains : f.contains name = true :=
    Std.ExtTreeMap.contains_eq_isSome_getElem?.trans (by rw [hk]; rfl)
  rw [declare?, if_pos hcontains]

end Frame

namespace Machine

/-! ## The global frame grows -/

/-- A frame of which a copy is changed in its place. -/
theorem grows_setFrame {m : Machine} {kind : FrameKind} {f f' : Frame}
    (found : m.frame? kind = some f) (h : f.Grows f') :
    m.globals.Grows (m.setFrame kind f').globals := by
  cases kind with
  | globals =>
    cases found
    exact h
  | locals | temporary => exact .refl m.globals

theorem FrameChange.globals_grow {i : Instruction} {m : Machine} {s : Step}
    (change : FrameChange i m s) : m.globals.Grows s.machine.globals := by
  cases change with
  | kept same => exact same.globals ▸ .refl _
  | created opcode flow same => exact same.globals ▸ .refl _
  | pushed opcode flow given same => exact same.globals ▸ .refl _
  | popped opcode flow top same => exact same.globals ▸ .refl _
  | declared opcode operand flow found added same =>
    exact same.globals ▸ grows_setFrame found (.declare? added)
  | written operand flow found set same => exact same.globals ▸ grows_setFrame found (.set? set)

variable {p : Program} {m m' : Machine} {i : Instruction}

theorem globals_advance (p : Program) (m : Machine) :
    m.globals.Grows (m.advance p).machine.globals := by
  cases hi : p.fetch? m.position with
  | none =>
    rw [advance_of_none hi]
    exact .refl _
  | some i =>
    rw [advance_of_some hi, (sameFrames_progress _).globals]
    exact (step_frameChange p.labels i m.counted).globals_grow

theorem globals_after (p : Program) (m : Machine) (n : Nat) :
    m.globals.Grows (m.after p n).globals := by
  induction n with
  | zero => exact .refl _
  | succ n ih =>
    rw [after_succ]
    exact ih.trans (globals_advance p _)

/-! ## Variables that have been declared -/

/-- A run that fails does so with the error of the instruction that it is at. -/
theorem exists_result_of_failed {e : RunError} (h : m.advance p = .stopped (.failed e) m') :
    ∃ i, p.fetch? m.position = some i ∧ (m.counted.step p.labels i).result = .error e := by
  cases hi : p.fetch? m.position with
  | none =>
    rw [advance_of_none hi] at h
    cases h
  | some i =>
    rw [advance_of_some hi] at h
    refine ⟨i, rfl, ?_⟩
    unfold Step.progress at h
    split at h
    · cases h
    · cases h
    · cases h
    · next hresult =>
      cases h
      exact hresult

theorem advance_defVar {x : String} (hi : p.fetch? m.position = some i) (hop : i.opcode = .defVar)
    (ho : i.operand? 0 = some (.var ⟨.globals, x⟩)) :
    m.advance p = (m.counted.update (m.counted.declare ⟨.globals, x⟩)).progress := by
  have hdestination : destination i 0 = .ok ⟨.globals, x⟩ := by simp [destination, ho]
  rw [advance_of_some hi]
  simp only [step, hop, hdestination]
  rfl

theorem get?_of_defVar {x : String} (hi : p.fetch? m.position = some i) (hop : i.opcode = .defVar)
    (ho : i.operand? 0 = some (.var ⟨.globals, x⟩)) (h : m.advance p = .running m') :
    m'.globals.get? x = some { name := x } := by
  rw [advance_defVar hi hop ho] at h
  cases hr : m.counted.declare ⟨.globals, x⟩ with
  | error e =>
    rw [hr] at h
    cases h
  | ok next =>
    rw [hr] at h
    cases h
    obtain ⟨f, f', -, hdeclare, rfl⟩ := declare_eq_ok hr
    exact Frame.get?_of_declare? hdeclare

/-- A second declaration stops the run and changes nothing. -/
theorem advance_of_redefinition {x : String} {cell : Cell} (hget : m.globals.get? x = some cell)
    (hi : p.fetch? m.position = some i) (hop : i.opcode = .defVar)
    (ho : i.operand? 0 = some (.var ⟨.globals, x⟩)) :
    m.advance p = .stopped (.failed ⟨m.position, .redefinition ⟨.globals, x⟩⟩) m.counted := by
  have hnone : m.counted.globals.declare? x = none := Frame.declare?_of_get? hget
  have hdeclare : m.counted.declare ⟨.globals, x⟩ =
      .error ⟨m.position, .redefinition ⟨.globals, x⟩⟩ := by
    simp only [declare, frame, frame?, bind, Except.bind, hnone]
    rfl
  rw [advance_defVar hi hop ho, hdeclare]
  rfl

/-- **Global variables are there to stay.** From any state of any run to any later one, stops
that the run was taken up again after included, the names of the global variables are those
from before with new ones behind them, and a variable that had a value has one. So once a
DEFVAR of a global variable has succeeded, every later one of the same variable fails as a
redefinition, and no instruction ever fails because the variable is not defined. -/
theorem globals_stay (p : Program) :
    (∀ (m : Machine) (n : Nat), m.globals.names <+: (m.after p n).globals.names ∧
      ∀ (k : Nat) name value, m.globals.cells[k]? = some ⟨name, some value⟩ →
        ∃ value', (m.after p n).globals.cells[k]? = some ⟨name, some value'⟩) ∧
    ∀ (m m' : Machine) (i : Instruction) (x : String), p.fetch? m.position = some i →
      i.opcode = .defVar → i.operand? 0 = some (.var ⟨.globals, x⟩) → m.advance p = .running m' →
      ∀ n, let later := m'.after p n
        (∀ j, p.fetch? later.position = some j → j.opcode = .defVar →
          j.operand? 0 = some (.var ⟨.globals, x⟩) →
          let e : RunError := ⟨later.position, .redefinition ⟨.globals, x⟩⟩
          later.advance p = .stopped (.failed e) later.counted ∧ e.errorClass.code = 52) ∧
        ∀ e last, later.advance p = .stopped (.failed e) last →
          e.cause ≠ .undefinedVariable ⟨.globals, x⟩ := by
  refine ⟨fun m n => ⟨(globals_after p m n).names_grow, fun k name value hk => ?_⟩, ?_⟩
  · obtain ⟨⟨name', value'⟩, hcell, rfl, hvalue⟩ := (globals_after p m n).cells k _ hk
    obtain ⟨value', rfl⟩ := Option.isSome_iff_exists.mp (hvalue rfl)
    exact ⟨value', hcell⟩
  · intro m m' i x hi hop ho hadv n later
    obtain ⟨cell, hget, -⟩ := (globals_after p m' n).get? (get?_of_defVar hi hop ho hadv)
    refine ⟨fun j hj hop' ho' => ⟨advance_of_redefinition hget hj hop' ho', rfl⟩, ?_⟩
    intro e last hfail hcause
    obtain ⟨j, -, hresult⟩ := exists_result_of_failed hfail
    have hbears := ((step_outcome p.labels j later.counted).leaves e hresult).bearsOut
    rw [hcause] at hbears
    obtain ⟨f, hf, hnone⟩ := hbears
    cases hf
    cases hget.symm.trans hnone

/-- A loop that comes back to its declaration, and is taken up again there. -/
theorem globals_stay_in_loop :
    let x : Operand := .var ⟨.globals, "x"⟩
    let p : Program := {
      instructions := #[⟨1, .defVar, [x]⟩, ⟨2, .move, [x, .const (.int 5)]⟩,
        ⟨3, .defVar, [.var ⟨.globals, "y"⟩]⟩, ⟨4, .jump, [.label "start"]⟩]
      labels := LabelTable.empty.insertNew "start" 1 }
    let m' : Machine := {
      globals := { cells := #[⟨"x", none⟩], index := (∅ : Std.ExtTreeMap String Nat).insert "x" 0 }
      position := 2
      executed := 1 }
    let again := m'.after p 3
    let assigned := m'.after p 1
    (Machine.start {}).advance p = .running m' ∧ again.position = 1 ∧
      again.advance p =
        .stopped (.failed ⟨again.position, .redefinition ⟨.globals, "x"⟩⟩) again.counted ∧
      assigned.globals.names <+: (assigned.after p 4).globals.names ∧
      ∃ value, (assigned.after p 4).globals.cells[0]? = some ⟨"x", some value⟩ := by
  intro x p m' again assigned
  have hadv : (Machine.start {}).advance p = .running m' := rfl
  have hback : p.fetch? again.position = some ⟨1, .defVar, [x]⟩ := by decide +kernel
  have hvalue : assigned.globals.cells[0]? = some ⟨"x", some (.int 5)⟩ := by decide +kernel
  obtain ⟨hgrows, hdefined⟩ := globals_stay p
  obtain ⟨hagain, -⟩ := hdefined (Machine.start {}) m' _ "x" rfl rfl rfl hadv 3
  obtain ⟨hnames, hvalues⟩ := hgrows assigned 4
  exact ⟨hadv, by decide +kernel, (hagain _ hback rfl rfl).1, hnames, hvalues 0 "x" _ hvalue⟩

end Machine

end FrameCode

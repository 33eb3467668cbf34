import FrameCode.Proofs.Access

/-! What one instruction does. `Machine.step_outcome` takes `step` apart, with one lemma for each
function that it is made of: it lists everything that an instruction which succeeds makes of the
machine, with the flow (`Machine.Effect`), and everything that one which fails leaves of it, with
the error (`Machine.Leaves`). Whatever else is said about a step is read off these lists. -/

namespace FrameCode

theorem Value.exitStatus_le {v : Value} {status : Nat} (h : v.exitStatus = .ok status) :
    status ≤ 9 := by
  cases v with
  | int n =>
    simp only [Value.exitStatus, Value.expectInt, bind, Except.bind] at h
    split at h
    · next hn =>
      cases h
      have hle : n.toInt ≤ 9 := Int64.le_iff_toInt_le.mp hn.2
      rw [Int64.toNatClampNeg]
      omega
    · cases h
  | bool b | str s | nil => cases h

namespace Opcode

/-- Opcodes that only decide where the program goes on. -/
def onlyGoes : Opcode → Bool
  | label | jump | jumpIf _ | exit => true
  | _ => false

/-- Opcodes that have their operands or their result on the operand stack, and nowhere else. -/
def onlyStacks : Opcode → Bool
  | pushs | unaryStack _ | binaryStack _ | jumpIfStack _ => true
  | _ => false

/-- Opcodes that write the variable in front of their operands. -/
def writes (op : Opcode) : Bool := op.signature.head? == some .var && op != .defVar

/-- How many values an opcode takes off the operand stack before it uses them. -/
def popped : Opcode → Nat
  | .pops | .unaryStack _ => 1
  | .binaryStack _ | .jumpIfStack _ => 2
  | _ => 0

end Opcode

/-- A host that refuses a read or a write, with its message and itself afterwards. -/
inductive Host.Refuses (h : Host) (message : String) : Host → Prop
  | read {input : Input} (refused : h.input.read = (.error message, input)) :
    Refuses h message { h with input }
  | output {text : String} {output : Sink} (refused : h.output.write text = (.error message, output)) :
    Refuses h message { h with output }
  | diagnostics {text : String} {diagnostics : Sink}
    (refused : h.diagnostics.write text = (.error message, diagnostics)) :
    Refuses h message { h with diagnostics }

namespace Machine

/-! ## Success -/

/-- Where an instruction that neither calls nor returns lets the program go on. -/
inductive Goes (labels : LabelTable) (i : Instruction) : Flow → Prop
  | next : Goes labels i .next
  | jump {name : String} {target : Nat} (operand : i.operand? 0 = some (.label name))
    (resolved : labels.resolve? name = some target) : Goes labels i (.jump target)
  | halt {status : Nat} (opcode : i.opcode = .exit) (bound : status ≤ 9) : Goes labels i (.halt status)

/-- Where an instruction that succeeds lets the program go on, and what it makes of the machine
`m`. These are all the possibilities. -/
inductive Effect (labels : LabelTable) (i : Instruction) (m : Machine) : Flow → Machine → Prop
  | none {flow : Flow} (opcode : i.opcode.onlyGoes = true) (goes : Goes labels i flow) :
    Effect labels i m flow m
  | created (opcode : i.opcode = .createFrame) :
    Effect labels i m .next { m with temporary := some .empty }
  | pushed {f : Frame} (opcode : i.opcode = .pushFrame) (given : m.temporary = some f) :
    Effect labels i m .next { m with temporary := .none, locals := f :: m.locals }
  | popped {f : Frame} {rest : Stack Frame} (opcode : i.opcode = .popFrame)
    (top : m.locals = f :: rest) :
    Effect labels i m .next { m with temporary := some f, locals := rest }
  | called {name : String} {target : Nat} (opcode : i.opcode = .call)
    (operand : i.operand? 0 = some (.label name)) (resolved : labels.resolve? name = some target) :
    Effect labels i m (.jump target) { m with calls := m.position :: m.calls }
  | returned {caller : Nat} {rest : Stack Nat} (opcode : i.opcode = .ret)
    (top : m.calls = caller :: rest) : Effect labels i m (.jump (caller + 1)) { m with calls := rest }
  | declared {v : Variable} {f f' : Frame} (opcode : i.opcode = .defVar)
    (operand : i.operand? 0 = some (.var v)) (found : m.frame? v.frame = some f)
    (added : f.declare? v.name = some f') : Effect labels i m .next (m.setFrame v.frame f')
  | written {v : Variable} {x : Value} {f f' : Frame} {data : Stack Value} {host : Host}
    (opcode : i.opcode.writes = true) (operand : i.operand? 0 = some (.var v))
    (found : m.frame? v.frame = some f) (set : f.set? v.name (some x) = some f')
    (popped : data = m.data ∨ i.opcode = .pops ∧ ∃ y, m.data = y :: data)
    (read : host = m.host ∨ i.opcode = .read ∧ ∃ input, host = { m.host with input }) :
    Effect labels i m .next { m.setFrame v.frame f' with data, host }
  | stacked {flow : Flow} {taken added kept : Stack Value} (opcode : i.opcode.onlyStacks = true)
    (goes : Goes labels i flow) (before : m.data = taken ++ kept) (few : taken.length ≤ 2)
    (one : added.length ≤ 1) : Effect labels i m flow { m with data := added ++ kept }
  | cleared (opcode : i.opcode = .clears) : Effect labels i m .next { m with data := [] }
  | output (opcode : i.opcode = .write) (output : Sink) :
    Effect labels i m .next { m with host := { m.host with output } }
  | diagnosed (opcode : i.opcode = .dprint ∨ i.opcode = .breakpoint) (diagnostics : Sink) :
    Effect labels i m .next { m with host := { m.host with diagnostics } }

/-- A variable that is written after a value has been popped or a line has been read. -/
theorem Effect.of_assign {labels : LabelTable} {i : Instruction} {m m' : Machine} {v : Variable}
    {x : Value} {data : Stack Value} {host : Host} (hop : i.opcode.writes = true)
    (hv : i.operand? 0 = some (.var v)) (h : assign { m with data, host } v x = .ok m')
    (popped : data = m.data ∨ i.opcode = .pops ∧ ∃ y, m.data = y :: data)
    (read : host = m.host ∨ i.opcode = .read ∧ ∃ input, host = { m.host with input }) :
    Effect labels i m .next m' := by
  obtain ⟨f, f', hf, hset, rfl⟩ := assign_eq_ok h
  have hsame : m.SameFrames { m with data, host } := ⟨rfl, rfl, rfl⟩
  have hmachine : setFrame { m with data, host } v.frame f' =
      { m.setFrame v.frame f' with data, host } := by
    cases v.frame <;> rfl
  rw [hsame.frame?] at hf
  rw [hmachine]
  exact .written hop hv hf hset popped read

/-! ## Failure -/

/-- If this is a conditional jump that pops its values, its label is not at fault. -/
def Aimed (labels : LabelTable) (i : Instruction) (m : Machine) : Prop :=
  ∀ equal, i.opcode = .jumpIfStack equal → ∀ e, m.target labels i 0 ≠ .error e

/-- What an instruction that fails with `e` leaves of the machine `m`. These are all the
possibilities. -/
inductive Leaves (labels : LabelTable) (i : Instruction) (m : Machine) (e : RunError) : Machine → Prop
  | whole (none : i.opcode.popped = 0) (sound : Sound i m e) : Leaves labels i m e m
  | refused {message : String} {host : Host} (none : i.opcode.popped = 0)
    (error : e = m.error (.host message)) (refused : m.host.Refuses message host) :
    Leaves labels i m e { m with host }
  | astray {equal : Bool} (opcode : i.opcode = .jumpIfStack equal)
    (target : m.target labels i 0 = .error e) (sound : Sound i m e) : Leaves labels i m e m
  | short (aimed : m.Aimed labels i) (few : m.data.length < i.opcode.popped)
    (error : e = m.error .emptyStack) : Leaves labels i m e { m with data := [] }
  | late {taken kept : Stack Value} (aimed : m.Aimed labels i) (before : m.data = taken ++ kept)
    (all : taken.length = i.opcode.popped) (sound : Sound i m e) :
    Leaves labels i m e { m with data := kept }

namespace Leaves

variable {labels : LabelTable} {i : Instruction} {m m' : Machine} {e : RunError}

/-- An instruction that fails leaves the frames and the calls alone. -/
theorem same (h : Leaves labels i m e m') : m.SameFrames m' ∧ m'.calls = m.calls := by
  cases h <;> exact ⟨⟨rfl, rfl, rfl⟩, rfl⟩

/-- Whatever an instruction fails for, what its error says about frames and variables is so. -/
theorem bearsOut (h : Leaves labels i m e m') : m.BearsOut e.cause := by
  cases h with
  | whole none sound => exact sound.bearsOut
  | astray opcode target sound => exact sound.bearsOut
  | late aimed before all sound => exact sound.bearsOut
  | refused none error refused =>
    rw [error]
    trivial
  | short aimed few error =>
    rw [error]
    trivial

/-- An instruction whose operands fit fails for an ordinary cause at its position, or because
the host refused. -/
theorem proper (h : Leaves labels i m e m') (hi : i.Conforms) : m.Ordinary e ∨
    ∃ message, e = m.error (.host message) ∧ m.host.Refuses message m'.host := by
  cases h with
  | whole none sound => exact .inl (sound.ordinary hi)
  | astray opcode target sound => exact .inl (sound.ordinary hi)
  | late aimed before all sound => exact .inl (sound.ordinary hi)
  | refused none error refused => exact .inr ⟨_, error, refused⟩
  | short aimed few error =>
    rw [error]
    exact .inl ⟨rfl, rfl⟩

end Leaves

/-! ## Outcomes -/

/-- The two machines are at the same place, with as many instructions behind them. -/
def SamePlace (m m' : Machine) : Prop := m'.position = m.position ∧ m'.executed = m.executed

/-- What a step can come to, whether it succeeds or fails. -/
structure Outcome (labels : LabelTable) (i : Instruction) (m : Machine) (s : Step) : Prop where
  effect : ∀ flow, s.result = .ok flow → Effect labels i m flow s.machine
  leaves : ∀ e, s.result = .error e → Leaves labels i m e s.machine

/-- A computation that sends the program on to the label of the instruction or to what comes next. -/
def Directs (labels : LabelTable) (i : Instruction) (m : Machine) : Except RunError Flow → Prop :=
  Yields (Goes labels i) (Sound i m)

namespace Directs

variable {labels : LabelTable} {i : Instruction} {m : Machine}

theorem jump (hs : i.opcode.signature[0]? = some .label) :
    Directs labels i m ((m.target labels i 0).map .jump) := by
  cases ht : m.target labels i 0 with
  | error e => exact .fail (Sound.target labels hs e ht)
  | ok target =>
    obtain ⟨name, ho, hr⟩ := target_eq_ok ht
    exact .pure (.jump ho hr)

/-- A conditional jump goes on or goes to its label. -/
theorem branch {target : Nat} (ht : m.target labels i 0 = .ok target) (equal : Bool) (x y : Value) :
    Directs labels i m (m.branch i equal target x y) := by
  refine .bind (Sound.accept _) fun same _ => .pure ?_
  obtain ⟨name, ho, hr⟩ := target_eq_ok ht
  split
  · exact .jump ho hr
  · exact .next

theorem jumpIf (hs : i.opcode.signature = [.label, .symb, .symb]) (equal : Bool) :
    Directs labels i m (m.jumpIf labels i equal) :=
  .bind (Sound.target labels (by simp [hs])) fun _ ht => .bind (Sound.symbol (by simp [hs])) fun x _ =>
    .bind (Sound.symbol (by simp [hs])) fun y _ => branch ht equal x y

theorem exit (hop : i.opcode = .exit) : Directs labels i m
    (do return .halt (← m.accept i (← m.symbol i 0).exitStatus)) := by
  refine .bind (Sound.symbol (by rw [hop]; rfl)) fun x _ => ?_
  refine .bind (Sound.accept _) fun status hstatus => .pure ?_
  exact .halt hop (Value.exitStatus_le (mapError_eq_ok_iff.mp hstatus))

end Directs

namespace Outcome

variable {labels : LabelTable} {i : Instruction} {m : Machine}

theorem success {m' : Machine} {flow : Flow} (h : Effect labels i m flow m') :
    Outcome labels i m ⟨m', .ok flow⟩ where
  effect := by
    intro flow' hflow
    cases hflow
    exact h
  leaves := by
    intro e he
    cases he

theorem fail {m' : Machine} {e : RunError} (h : Leaves labels i m e m') :
    Outcome labels i m (m'.fail e) where
  effect := by
    intro flow hflow
    cases hflow
  leaves := by
    intro e' he
    cases he
    exact h

theorem update {m' : Machine} {r : Except RunError Machine}
    (hfail : ∀ e, Sound i m e → Leaves labels i m e m')
    (hr : Yields (Effect labels i m .next) (Sound i m) r) : Outcome labels i m (m'.update r) := by
  cases r with
  | ok m'' => exact success (hr.ok m'' rfl)
  | error e => exact fail (hfail e (hr.error e rfl))

theorem go {m' : Machine} {r : Except RunError Flow}
    (hfail : ∀ e, Sound i m e → Leaves labels i m e m')
    (hr : Yields (fun flow => Effect labels i m flow m') (Sound i m) r) :
    Outcome labels i m (m'.go r) := by
  cases r with
  | ok flow => exact success (hr.ok flow rfl)
  | error e => exact fail (hfail e (hr.error e rfl))

/-! ### Instructions that pop nothing -/

section Unpopped

variable (hnone : i.opcode.popped = 0)
include hnone

theorem withSymbol {k : Value → Step} (hs : i.opcode.signature[0]? = some .symb)
    (hk : ∀ x, Outcome labels i m (k x)) : Outcome labels i m (m.withSymbol i k) := by
  unfold Machine.withSymbol
  split
  · next e he => exact fail (.whole hnone (Sound.symbol hs e he))
  · next x _ => exact hk x

theorem write (hop : i.opcode.writes = true) {r : Except RunError Machine} (hr : WritesFirst i m r) :
    Outcome labels i m (m.update r) := by
  refine update (fun _ => .whole hnone) (hr.imp fun m' hm' => ?_)
  obtain ⟨v, x, hv, hassign⟩ := hm'
  exact .of_assign hop hv hassign (.inl rfl) (.inl rfl)

theorem direct (hop : i.opcode.onlyGoes = true) {r : Except RunError Flow}
    (hr : Directs labels i m r) : Outcome labels i m (m.go r) :=
  go (fun _ => .whole hnone) (hr.imp fun _ => .none hop)

end Unpopped

theorem defVar (hop : i.opcode = .defVar) :
    Outcome labels i m (m.update do m.declare (← destination i 0)) := by
  refine update (fun _ => .whole (by rw [hop]; rfl)) ?_
  refine .bind (Sound.destination (by rw [hop]; rfl)) fun v hv => ⟨fun m' h => ?_, Sound.declare v⟩
  obtain ⟨f, f', hf, hadd, rfl⟩ := declare_eq_ok h
  exact .declared hop (destination_eq_ok hv) hf hadd

theorem pushFrame (hop : i.opcode = .pushFrame) : Outcome labels i m (m.update m.pushFrame) := by
  refine update (fun _ => .whole (by rw [hop]; rfl)) ⟨fun m' h => ?_, Sound.pushFrame⟩
  unfold Machine.pushFrame at h
  split at h
  · next f hf =>
    cases h
    exact .pushed hop hf
  · cases h

theorem popFrame (hop : i.opcode = .popFrame) : Outcome labels i m (m.update m.popFrame) := by
  refine update (fun _ => .whole (by rw [hop]; rfl)) ⟨fun m' h => ?_, Sound.popFrame⟩
  unfold Machine.popFrame at h
  split at h
  · next f rest htop =>
    cases h
    exact .popped hop (Stack.pop?_eq_some_iff.mp htop)
  · cases h

theorem call (hop : i.opcode = .call) : Outcome labels i m (m.call labels i) := by
  unfold Machine.call
  split
  · next e he => exact fail (.whole (by rw [hop]; rfl) (Sound.target labels (by rw [hop]; rfl) e he))
  · next target ht =>
    obtain ⟨name, ho, hr⟩ := target_eq_ok ht
    exact success (.called hop ho hr)

theorem ret (hop : i.opcode = .ret) : Outcome labels i m m.ret := by
  unfold Machine.ret
  split
  · exact fail (.whole (by rw [hop]; rfl) (.of_cause (by simp) trivial rfl))
  · next caller rest hcalls => exact success (.returned hop (Stack.pop?_eq_some_iff.mp hcalls))

theorem output (hop : i.opcode = .write) (text : String) : Outcome labels i m (m.write text) := by
  unfold Machine.write
  cases hw : m.host.output.write text with
  | mk answer output =>
    cases answer with
    | ok _ => exact success (.output hop output)
    | error message => exact fail (.refused (by rw [hop]; rfl) rfl (.output hw))

theorem diagnose (hop : i.opcode = .dprint ∨ i.opcode = .breakpoint) (text : String) :
    Outcome labels i m (m.diagnose text) := by
  have hnone : i.opcode.popped = 0 := by
    obtain hop | hop := hop <;> rw [hop] <;> rfl
  unfold Machine.diagnose
  cases hw : m.host.diagnostics.write text with
  | mk answer diagnostics =>
    cases answer with
    | ok _ => exact success (.diagnosed hop diagnostics)
    | error message => exact fail (.refused hnone rfl (.diagnostics hw))

theorem read (hop : i.opcode = .read) : Outcome labels i m (m.read i) := by
  have hnone : i.opcode.popped = 0 := by rw [hop]; rfl
  unfold Machine.read
  split
  · next e he => exact fail (.whole hnone (Sound.readOperands (by rw [hop]; rfl) e he))
  · next v tag ho =>
    obtain ⟨hv, -, cell, hcell⟩ := readOperands_eq_ok ho
    cases hr : m.host.input.read with
    | mk answer input =>
      cases answer with
      | error message => exact fail (.refused hnone rfl (.read hr))
      | ok line =>
        -- the line is taken only when the variable can be written
        have hcell' : Machine.cell { m with host := { m.host with input } } v = .ok cell := hcell
        obtain ⟨m', hassign⟩ := exists_assign_of_cell hcell' (Value.ofInput line tag)
        simp only [hassign]
        exact success (.of_assign (by rw [hop]; rfl) hv hassign (.inl rfl) (.inr ⟨hop, input, rfl⟩))

/-! ### Instructions that pop values -/

section Popped

variable (haimed : m.Aimed labels i)
include haimed

/-- One more value is popped, after those that have been taken. -/
theorem popping (taken kept : Stack Value) (hdata : m.data = taken ++ kept)
    (hmore : taken.length < i.opcode.popped) {k : Value → Machine → Step}
    (hk : ∀ x rest, m.data = (taken ++ [x]) ++ rest → Outcome labels i m (k x { m with data := rest })) :
    Outcome labels i m (Machine.popping { m with data := kept } k) := by
  cases kept with
  | nil =>
    rw [List.append_nil] at hdata
    exact fail (.short haimed (hdata ▸ hmore) rfl)
  | cons x rest => exact hk x rest (by rw [hdata, List.append_assoc]; rfl)

theorem pop (hop : i.opcode = .pops) : Outcome labels i m (m.pop i) := by
  refine popping haimed [] m.data rfl (by simp [hop, Opcode.popped]) fun x rest hdata => ?_
  refine update (fun _ => .late haimed hdata (by rw [hop]; rfl)) ?_
  refine .bind (Sound.destination (by rw [hop]; rfl)) fun v hv => ⟨fun m' h => ?_, ?_⟩
  · exact .of_assign (by rw [hop]; rfl) (destination_eq_ok hv) h (.inr ⟨hop, x, hdata⟩) (.inl rfl)
  · exact Sound.of_data (Sound.assign v x)

end Popped

/-- The result is pushed in place of the values that have been taken. -/
theorem push (taken : Stack Value) {kept : Stack Value} (hop : i.opcode.onlyStacks = true)
    (hdata : m.data = taken ++ kept) (hfew : taken.length ≤ 2)
    (hfail : ∀ e, Sound i m e → Leaves labels i m e { m with data := kept })
    {r : Except RunError Value} (hr : FailsOnly (Sound i m) r) : Outcome labels i m
      (Machine.update { m with data := kept } (r.map (Machine.push { m with data := kept }))) := by
  refine update hfail ⟨fun m' hm' => ?_, hr.map⟩
  cases r with
  | error e => cases hm'
  | ok x =>
    cases hm'
    have hone : [x].length ≤ 1 := Nat.le_refl 1
    exact .stacked hop .next hdata hfew hone

theorem jumpIfStack {equal : Bool} (hop : i.opcode = .jumpIfStack equal) :
    Outcome labels i m (m.jumpIfStack labels i equal) := by
  unfold Machine.jumpIfStack
  split
  · next e he => exact fail (.astray hop he (Sound.target labels (by rw [hop]; rfl) e he))
  · next target ht =>
    have haimed : m.Aimed labels i := by simp [Aimed, ht]
    refine popping haimed [] m.data rfl (by simp [hop, Opcode.popped]) fun y _ hdata => ?_
    refine popping haimed [y] _ hdata (by simp [hop, Opcode.popped]) fun x kept hdata => ?_
    refine go (fun _ => .late haimed hdata (by rw [hop]; rfl)) ?_
    have hbranch : Directs labels i m (m.branch i equal target x y) := .branch ht equal x y
    have hnone : ([] : Stack Value).length ≤ 1 := Nat.zero_le 1
    exact hbranch.imp fun _ hgoes => .stacked (by rw [hop]; rfl) hgoes hdata (Nat.le_refl 2) hnone

end Outcome

/-- What an instruction does, over all instructions and all states. -/
theorem step_outcome (labels : LabelTable) (i : Instruction) (m : Machine) :
    Outcome labels i m (m.step labels i) := by
  unfold step
  cases hop : i.opcode with
  | createFrame => exact .success (.created hop)
  | pushFrame => exact .pushFrame hop
  | popFrame => exact .popFrame hop
  | defVar => exact .defVar hop
  | call => exact .call hop
  | ret => exact .ret hop
  | move | unary op | strlen =>
    exact .write (by rw [hop]; rfl) (by rw [hop]; rfl) (.unary (by rw [hop]; rfl) _)
  | binary op | concat | getChar =>
    exact .write (by rw [hop]; rfl) (by rw [hop]; rfl) (.binary (by rw [hop]; rfl) _)
  | setChar => exact .write (by rw [hop]; rfl) (by rw [hop]; rfl) (.setChar (by rw [hop]; rfl))
  | type => exact .write (by rw [hop]; rfl) (by rw [hop]; rfl) (.type (by rw [hop]; rfl))
  | pushs =>
    exact .push [] (by rw [hop]; rfl) rfl (Nat.zero_le 2) (fun _ => .whole (by rw [hop]; rfl))
      (Sound.symbol (by rw [hop]; rfl))
  | pops => exact .pop (by simp [Aimed, hop]) hop
  | clears => exact .success (.cleared hop)
  | unaryStack op =>
    have haimed : m.Aimed labels i := by simp [Aimed, hop]
    refine .popping haimed [] m.data rfl (by simp [hop, Opcode.popped]) fun x kept hdata => ?_
    exact .push [x] (by rw [hop]; rfl) hdata (Nat.le_succ 1) (fun _ => .late haimed hdata (by rw [hop]; rfl))
      (Sound.of_data (Sound.accept _))
  | binaryStack op =>
    have haimed : m.Aimed labels i := by simp [Aimed, hop]
    refine .popping haimed [] m.data rfl (by simp [hop, Opcode.popped]) fun y _ hdata => ?_
    refine .popping haimed [y] _ hdata (by simp [hop, Opcode.popped]) fun x kept hdata => ?_
    exact .push [y, x] (by rw [hop]; rfl) hdata (Nat.le_refl 2) (fun _ => .late haimed hdata (by rw [hop]; rfl))
      (Sound.of_data (Sound.accept _))
  | read => exact .read hop
  | write => exact .withSymbol (by rw [hop]; rfl) (by rw [hop]; rfl) fun x => .output hop _
  | dprint => exact .withSymbol (by rw [hop]; rfl) (by rw [hop]; rfl) fun x => .diagnose (.inl hop) _
  | breakpoint => exact .diagnose (.inr hop) _
  | label => exact .success (.none (by rw [hop]; rfl) .next)
  | jump => exact .direct (by rw [hop]; rfl) (by rw [hop]; rfl) (.jump (by rw [hop]; rfl))
  | jumpIf equal =>
    exact .direct (by rw [hop]; rfl) (by rw [hop]; rfl) (.jumpIf (by rw [hop]; rfl) equal)
  | jumpIfStack equal => exact .jumpIfStack hop
  | exit => exact .direct (by rw [hop]; rfl) (by rw [hop]; rfl) (.exit hop)

/-- What every effect and every failure has is had by the step. -/
theorem Outcome.elim {labels : LabelTable} {i : Instruction} {m : Machine} {s : Step}
    {P : Step → Prop} (h : Outcome labels i m s)
    (hok : ∀ flow m', Effect labels i m flow m' → P ⟨m', .ok flow⟩)
    (herror : ∀ e m', Leaves labels i m e m' → P ⟨m', .error e⟩) : P s := by
  obtain ⟨m', result⟩ := s
  cases result with
  | ok flow => exact hok flow m' (h.effect flow rfl)
  | error e => exact herror e m' (h.leaves e rfl)

/-- Where a program goes on is left to the flow, and counting to the run. -/
theorem step_samePlace (labels : LabelTable) (i : Instruction) (m : Machine) :
    m.SamePlace (m.step labels i).machine := by
  refine (step_outcome labels i m).elim (P := fun s => m.SamePlace s.machine) ?_ ?_
  · intro flow m' heffect
    cases heffect with
    | declared | written =>
      rw [setFrame_framesOnly m _ _]
      exact ⟨rfl, rfl⟩
    | _ => exact ⟨rfl, rfl⟩
  · intro e m' hleaves
    cases hleaves <;> exact ⟨rfl, rfl⟩

end Machine

end FrameCode

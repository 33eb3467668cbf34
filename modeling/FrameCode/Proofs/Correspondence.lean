import FrameCode.Proofs.Reachable
import FrameCode.Proofs.Renaming

/-! Two programs side by side. Their instructions are the same up to new names and up to
the positions that they stand at, and their machines hold the same up to this. Then one
instruction on either side leads to machines of which this is true again, and it goes on,
exits or fails on both sides alike (`Correspondence.step`, `Correspondence.advance`). There
is one lemma for each function that a step is made of. -/

namespace FrameCode

/-- How what one program does corresponds to what another one does: by names and by
positions of instructions. The numbers of instructions executed and the diagnostics may
differ as `counts` and `sinks` allow. -/
structure Correspondence where
  names : Renaming
  place : Nat → Nat
  counts : Nat → Nat → Prop
  sinks : Sink → Sink → Prop

namespace Correspondence

variable (c : Correspondence)

/-! ## What corresponds -/

def instruction (i : Instruction) : Instruction :=
  { i.rename c.names with position := c.place i.position }

def error (e : RunError) : RunError := ⟨c.place e.position, e.cause.rename c.names⟩

structure Machines (m m' : Machine) : Prop where
  globals : m.globals.Renamed c.names m'.globals
  temporary : Option.Rel (Frame.Renamed c.names) m.temporary m'.temporary
  locals : List.Forall₂ (Frame.Renamed c.names) m.locals m'.locals
  data : m'.data = m.data
  calls : m'.calls = m.calls.map c.place
  position : m'.position = c.place m.position
  executed : c.counts m.executed m'.executed
  input : m'.host.input = m.host.input
  output : m'.host.output = m.host.output
  diagnostics : c.sinks m.host.diagnostics m'.host.diagnostics

/-- Both computations succeed, or both fail with errors that correspond. -/
inductive Results {α β : Type} (R : α → β → Prop) : Except RunError α → Except RunError β → Prop
  | ok {a : α} {b : β} (h : R a b) : Results R (.ok a) (.ok b)
  | error (e : RunError) : Results R (.error e) (.error (c.error e))

/-- Where the programs go on. A return goes to what follows the call on its own side, be
that the corresponding position or not. -/
inductive Flows : Flow → Flow → Prop
  | next : Flows .next .next
  | jump (target : Nat) : Flows (.jump target) (.jump (c.place target))
  | back (caller : Nat) : Flows (.jump (caller + 1)) (.jump (c.place caller + 1))
  | halt (status : Nat) : Flows (.halt status) (.halt status)

structure Steps (s s' : Step) : Prop where
  machine : c.Machines s.machine s'.machine
  result : c.Results c.Flows s.result s'.result

/-- A write to the diagnostics has the same answer on both sides. -/
def Written (w w' : Except String Unit × Sink) : Prop := w'.1 = w.1 ∧ c.sinks w.2 w'.2

/-- What has to hold of the parts that may differ: they are never told apart. -/
structure Lawful : Prop where
  count : ∀ {n n' : Nat}, c.counts n n' → c.counts (n + 1) (n' + 1)
  diagnose : ∀ {s s' : Sink} (text : String), c.sinks s s' → c.Written (s.write text) (s'.write text)
  report : ∀ {m m' : Machine}, c.Machines m m' →
    c.Written (m.host.diagnostics.write m.report) (m'.host.diagnostics.write m'.report)

/-- The labels that an instruction names stand for corresponding positions. -/
def Resolves (labels labels' : LabelTable) (i : Instruction) : Prop :=
  ∀ name, .label name ∈ i.operands →
    labels'.resolve? (c.names.label name) = (labels.resolve? name).map c.place

structure Programs (p p' : Program) : Prop where
  fetch? : ∀ k, p'.fetch? (c.place k) = (p.fetch? k).map c.instruction
  resolves : ∀ k i, p.fetch? k = some i → c.Resolves p.labels p'.labels i

def stop : Stop → Stop
  | .ended => .ended
  | .exited status => .exited status
  | .failed e => .failed (c.error e)

/-- Both runs go on or both stop. Where they go on, the second one is at the position that
corresponds, or right after the one that corresponds to the position before. -/
inductive Proceeds : Progress → Progress → Prop
  | running {m m' : Machine} (machines : c.Machines m { m' with position := c.place m.position })
    (place : m'.position = c.place m.position ∨
      ∃ k, m.position = k + 1 ∧ m'.position = c.place k + 1) : Proceeds (.running m) (.running m')
  | stopped {m m' : Machine} (why : Stop) (machines : c.Machines m m') :
    Proceeds (.stopped why m) (.stopped (c.stop why) m')

variable {c}

namespace Results

variable {α β γ δ : Type} {R : α → β → Prop} {S : γ → δ → Prop}

theorem bind {x : Except RunError α} {x' : Except RunError β} {f : α → Except RunError γ}
    {f' : β → Except RunError δ} (hx : c.Results R x x')
    (hf : ∀ a b, R a b → c.Results S (f a) (f' b)) : c.Results S (x >>= f) (x' >>= f') := by
  cases hx with
  | ok h => exact hf _ _ h
  | error e => exact .error e

theorem map {x : Except RunError α} {x' : Except RunError β} {f : α → γ} {f' : β → δ}
    (hx : c.Results R x x') (hf : ∀ a b, R a b → S (f a) (f' b)) :
    c.Results S (x.map f) (x'.map f') := by
  cases hx with
  | ok h => exact .ok (hf _ _ h)
  | error e => exact .error e

/-- The same value, or the error that corresponds. -/
theorem eq_ok_and_eq_error {x x' : Except RunError α} (hx : c.Results Eq x x') :
    (∀ a, x = .ok a → x' = .ok a) ∧ ∀ e, x = .error e → x' = .error (c.error e) := by
  cases hx with
  | ok h =>
    cases h
    exact ⟨fun _ ha => ha, fun _ he => (by cases he)⟩
  | error e =>
    refine ⟨fun _ ha => (by cases ha), fun _ he => ?_⟩
    cases he
    rfl

end Results

theorem operand?_instruction (i : Instruction) (k : Nat) :
    (c.instruction i).operand? k = (i.operand? k).map (Operand.rename c.names) := by
  simp [instruction, Instruction.rename, Instruction.operand?]

theorem destination (i : Instruction) (k : Nat) :
    c.Results (fun v v' => v' = v.rename c.names) (Machine.destination i k)
      (Machine.destination (c.instruction i) k) := by
  unfold Machine.destination
  rw [operand?_instruction]
  cases i.operand? k with
  | none => exact .error (Machine.malformed i k)
  | some o =>
    cases o with
    | var v => exact .ok rfl
    | const value | label name | type tag => exact .error (Machine.malformed i k)

namespace Machines

variable {m m' : Machine} (hm : c.Machines m m')
include hm

/-! ## Changes of a machine -/

theorem withData (data : Stack Value) : c.Machines { m with data } { m' with data } :=
  { hm with data := rfl }

theorem withCalls {calls calls' : Stack Nat} (h : calls' = calls.map c.place) :
    c.Machines { m with calls } { m' with calls := calls' } :=
  { hm with calls := h }

theorem push (x : Value) : c.Machines (m.push x) (m'.push x) :=
  { hm with data := congrArg (List.cons x) hm.data }

theorem withTemporary {f f' : Option Frame} (h : Option.Rel (Frame.Renamed c.names) f f') :
    c.Machines { m with temporary := f } { m' with temporary := f' } :=
  { hm with temporary := h }

theorem counted (laws : c.Lawful) : c.Machines m.counted m'.counted :=
  { hm with executed := laws.count hm.executed }

theorem setFrame (kind : FrameKind) {f f' : Frame} (h : f.Renamed c.names f') :
    c.Machines (m.setFrame kind f) (m'.setFrame kind f') := by
  cases kind with
  | globals => exact { hm with globals := h }
  | temporary => exact { hm with temporary := .some h }
  | locals =>
    refine { hm with locals := ?_ }
    have hlocals := hm.locals
    simp only [Machine.setFrame]
    generalize m.locals = locals, m'.locals = locals' at hlocals ⊢
    cases hlocals with
    | nil => exact .nil
    | cons _ rest => exact .cons h rest

/-! ## Frames and variables -/

theorem error (cause : Cause) : c.error (m.error cause) = m'.error (cause.rename c.names) := by
  simp only [Correspondence.error, Machine.error, hm.position]

/-- A failure on one side is one on the other. -/
theorem failed {α β : Type} {R : α → β → Prop} (cause : Cause) :
    c.Results R (.error (m.error cause)) (.error (m'.error (cause.rename c.names))) := by
  rw [← hm.error]
  exact .error _

theorem frame? (kind : FrameKind) :
    Option.Rel (Frame.Renamed c.names) (m.frame? kind) (m'.frame? kind) := by
  cases kind with
  | globals => exact .some hm.globals
  | temporary => exact hm.temporary
  | locals =>
    have hlocals := hm.locals
    simp only [Machine.frame?, Stack.top?]
    generalize m.locals = locals, m'.locals = locals' at hlocals ⊢
    cases hlocals with
    | nil => exact .none
    | cons h _ => exact .some h

theorem frame (kind : FrameKind) :
    c.Results (Frame.Renamed c.names) (m.frame kind) (m'.frame kind) := by
  have hframe := hm.frame? kind
  unfold Machine.frame
  generalize m.frame? kind = f, m'.frame? kind = f' at hframe ⊢
  cases hframe with
  | none => exact hm.failed (.undefinedFrame kind)
  | some h => exact .ok h

theorem cell (v : Variable) :
    c.Results (fun a b => b = a.rename c.names) (m.cell v) (m'.cell (v.rename c.names)) := by
  refine (hm.frame v.frame).bind fun f f' hf => ?_
  have hget : f'.get? (v.rename c.names).name = (f.get? v.name).map (Cell.rename c.names) :=
    hf.get? v.name
  rw [hget]
  cases f.get? v.name with
  | none => exact hm.failed (.undefinedVariable v)
  | some cell => exact .ok rfl

theorem value (v : Variable) : c.Results Eq (m.value v) (m'.value (v.rename c.names)) := by
  refine (hm.cell v).bind fun cell cell' hcell => ?_
  have hvalue : cell'.value = cell.value := by rw [hcell, Cell.rename]
  rw [hvalue]
  cases cell.value with
  | none => exact hm.failed (.unsetVariable v)
  | some x => exact .ok rfl

theorem assign (v : Variable) (x : Value) :
    c.Results c.Machines (m.assign v x) (m'.assign (v.rename c.names) x) := by
  refine (hm.frame v.frame).bind fun f f' hf => ?_
  have hset : Option.Rel (Frame.Renamed c.names) (f.set? v.name (some x))
      (f'.set? (v.rename c.names).name (some x)) := hf.set? v.name (some x)
  generalize f.set? v.name (some x) = g, f'.set? (v.rename c.names).name (some x) = g' at hset ⊢
  cases hset with
  | none => exact hm.failed (.undefinedVariable v)
  | some h => exact .ok (hm.setFrame v.frame h)

theorem declare (v : Variable) :
    c.Results c.Machines (m.declare v) (m'.declare (v.rename c.names)) := by
  refine (hm.frame v.frame).bind fun f f' hf => ?_
  have hadd : Option.Rel (Frame.Renamed c.names) (f.declare? v.name)
      (f'.declare? (v.rename c.names).name) := hf.declare? v.name
  generalize f.declare? v.name = g, f'.declare? (v.rename c.names).name = g' at hadd ⊢
  cases hadd with
  | none => exact hm.failed (.redefinition v)
  | some h => exact .ok (hm.setFrame v.frame h)

/-! ## Operands -/

theorem symbol (i : Instruction) (k : Nat) :
    c.Results Eq (m.symbol i k) (m'.symbol (c.instruction i) k) := by
  unfold Machine.symbol
  rw [operand?_instruction]
  cases i.operand? k with
  | none => exact .error (Machine.malformed i k)
  | some o =>
    cases o with
    | var v => exact hm.value v
    | const value => exact .ok rfl
    | label name | type tag => exact .error (Machine.malformed i k)

theorem accept {α : Type} (i : Instruction) (result : Except Fault α) :
    c.Results Eq (m.accept i result) (m'.accept (c.instruction i) result) := by
  cases result with
  | ok a => exact .ok rfl
  | error fault => exact hm.failed (.rejected i.opcode fault)

theorem target {labels labels' : LabelTable} {i : Instruction} (hr : c.Resolves labels labels' i)
    (k : Nat) : c.Results (fun t t' => t' = c.place t) (m.target labels i k)
      (m'.target labels' (c.instruction i) k) := by
  unfold Machine.target
  rw [operand?_instruction]
  cases ho : i.operand? k with
  | none => exact .error (Machine.malformed i k)
  | some o =>
    cases o with
    | label name =>
      simp only [Option.map_some, Operand.rename, hr name (List.mem_of_getElem? ho)]
      cases labels.resolve? name with
      | none => exact hm.failed (.undefinedLabel name)
      | some target => exact .ok rfl
    | var v | const value | type tag => exact .error (Machine.malformed i k)

/-! ## Computations with operands -/

theorem unary (i : Instruction) (f : Value → Except Fault Value) :
    c.Results c.Machines (m.unary i f) (m'.unary (c.instruction i) f) := by
  refine (destination i 0).bind fun v _ hv => ?_
  subst hv
  refine (hm.cell v).bind fun _ _ _ => ?_
  refine (hm.symbol i 1).bind fun x _ hx => ?_
  subst hx
  refine (hm.accept i (f x)).bind fun y _ hy => ?_
  subst hy
  exact hm.assign v y

theorem binary (i : Instruction) (f : Value → Value → Except Fault Value) :
    c.Results c.Machines (m.binary i f) (m'.binary (c.instruction i) f) := by
  refine (destination i 0).bind fun v _ hv => ?_
  subst hv
  refine (hm.cell v).bind fun _ _ _ => ?_
  refine (hm.symbol i 1).bind fun x _ hx => ?_
  subst hx
  refine (hm.symbol i 2).bind fun y _ hy => ?_
  subst hy
  refine (hm.accept i (f x y)).bind fun z _ hz => ?_
  subst hz
  exact hm.assign v z

theorem setChar (i : Instruction) :
    c.Results c.Machines (m.setChar i) (m'.setChar (c.instruction i)) := by
  refine (destination i 0).bind fun v _ hv => ?_
  subst hv
  refine (hm.value v).bind fun string _ hstring => ?_
  subst hstring
  refine (hm.symbol i 1).bind fun index _ hindex => ?_
  subst hindex
  refine (hm.symbol i 2).bind fun replacement _ hreplacement => ?_
  subst hreplacement
  refine (hm.accept i (string.setChar index replacement)).bind fun x _ hx => ?_
  subst hx
  exact hm.assign v x

theorem type (i : Instruction) : c.Results c.Machines (m.type i) (m'.type (c.instruction i)) := by
  refine (destination i 0).bind fun v _ hv => ?_
  subst hv
  refine (hm.cell v).bind fun _ _ _ => ?_
  rw [operand?_instruction]
  cases i.operand? 1 with
  | none => exact hm.failed (.malformedOperand i.opcode 2)
  | some o =>
    cases o with
    | const value => exact hm.assign v _
    | var source =>
      refine (hm.cell source).bind fun cell _ hcell => ?_
      subst hcell
      simp only [Cell.rename]
      cases cell.value with
      | none => exact hm.assign v _
      | some value => exact hm.assign v _
    | label name | type tag => exact hm.failed (.malformedOperand i.opcode 2)

theorem readOperands (i : Instruction) :
    c.Results (fun r r' => r' = (r.1.rename c.names, r.2)) (m.readOperands i)
      (m'.readOperands (c.instruction i)) := by
  refine (destination i 0).bind fun v _ hv => ?_
  subst hv
  refine (hm.cell v).bind fun _ _ _ => ?_
  rw [operand?_instruction]
  cases i.operand? 1 with
  | none => exact hm.failed (.malformedOperand i.opcode 2)
  | some o =>
    cases o with
    | type tag => exact .ok rfl
    | var v | const value | label name => exact hm.failed (.malformedOperand i.opcode 2)

theorem branch (i : Instruction) (equal : Bool) (target : Nat) (x y : Value) :
    c.Results c.Flows (m.branch i equal target x y)
      (m'.branch (c.instruction i) equal (c.place target) x y) := by
  refine (hm.accept i (x.equals y)).bind fun same _ hsame => ?_
  subst hsame
  cases same == equal with
  | true => exact .ok (.jump target)
  | false => exact .ok .next

theorem pushFrame : c.Results c.Machines m.pushFrame m'.pushFrame := by
  have htemporary := hm.temporary
  unfold Machine.pushFrame
  generalize m.temporary = f, m'.temporary = f' at htemporary ⊢
  cases htemporary with
  | none => exact hm.failed (.undefinedFrame .temporary)
  | some h => exact .ok { hm with temporary := .none, locals := .cons h hm.locals }

theorem popFrame : c.Results c.Machines m.popFrame m'.popFrame := by
  have hlocals := hm.locals
  unfold Machine.popFrame
  generalize m.locals = locals, m'.locals = locals' at hlocals ⊢
  cases hlocals with
  | nil => exact hm.failed (.undefinedFrame .locals)
  | cons h rest => exact .ok { hm with temporary := .some h, locals := rest }

/-! ## Outcomes -/

theorem fail (cause : Cause) :
    c.Steps (m.fail (m.error cause)) (m'.fail (m'.error (cause.rename c.names))) :=
  ⟨hm, hm.failed cause⟩

theorem update {r r' : Except RunError Machine} (hr : c.Results c.Machines r r') :
    c.Steps (m.update r) (m'.update r') := by
  cases hr with
  | ok h => exact ⟨h, .ok .next⟩
  | error e => exact ⟨hm, .error e⟩

theorem go {r r' : Except RunError Flow} (hr : c.Results c.Flows r r') :
    c.Steps (m.go r) (m'.go r') := by
  cases hr with
  | ok h => exact ⟨hm, .ok h⟩
  | error e => exact ⟨hm, .error e⟩

theorem pushed {r r' : Except RunError Value} (hr : c.Results Eq r r') :
    c.Steps (m.update (r.map m.push)) (m'.update (r'.map m'.push)) :=
  hm.update (hr.map fun x _ hx => hx ▸ hm.push x)

theorem popping {k k' : Value → Machine → Step}
    (hk : ∀ x rest, c.Machines { m with data := rest } { m' with data := rest } →
      c.Steps (k x { m with data := rest }) (k' x { m' with data := rest })) :
    c.Steps (m.popping k) (m'.popping k') := by
  unfold Machine.popping
  rw [hm.data]
  cases m.data with
  | nil => exact hm.fail .emptyStack
  | cons x rest => exact hk x rest (hm.withData rest)

theorem withSymbol (i : Instruction) {k k' : Value → Step} (hk : ∀ x, c.Steps (k x) (k' x)) :
    c.Steps (m.withSymbol i k) (m'.withSymbol (c.instruction i) k') := by
  have hsymbol := hm.symbol i 0
  unfold Machine.withSymbol
  generalize m.symbol i 0 = r, m'.symbol (c.instruction i) 0 = r' at hsymbol ⊢
  cases hsymbol with
  | ok h => exact h ▸ hk _
  | error e => exact ⟨hm, .error e⟩

theorem write (text : String) : c.Steps (m.write text) (m'.write text) := by
  unfold Machine.write
  rw [hm.output]
  cases m.host.output.write text with
  | mk answer output =>
    have hnew : c.Machines { m with host := { m.host with output } }
        { m' with host := { m'.host with output } } := { hm with output := rfl }
    cases answer with
    | ok _ => exact ⟨hnew, .ok .next⟩
    | error message => exact hnew.fail (.host message)

theorem diagnose {text text' : String} (h : c.Written (m.host.diagnostics.write text)
    (m'.host.diagnostics.write text')) : c.Steps (m.diagnose text) (m'.diagnose text') := by
  unfold Machine.diagnose
  generalize m.host.diagnostics.write text = w, m'.host.diagnostics.write text' = w' at h ⊢
  obtain ⟨answer, diagnostics⟩ := w
  obtain ⟨_, diagnostics'⟩ := w'
  obtain ⟨hanswer, hsinks⟩ := h
  have hnew : c.Machines { m with host := { m.host with diagnostics } }
      { m' with host := { m'.host with diagnostics := diagnostics' } } :=
    { hm with diagnostics := hsinks }
  cases hanswer
  cases answer with
  | ok _ => exact ⟨hnew, .ok .next⟩
  | error message => exact hnew.fail (.host message)

theorem read (i : Instruction) : c.Steps (m.read i) (m'.read (c.instruction i)) := by
  have hoperands := hm.readOperands i
  unfold Machine.read
  generalize m.readOperands i = r, m'.readOperands (c.instruction i) = r' at hoperands ⊢
  cases hoperands with
  | error e => exact ⟨hm, .error e⟩
  | @ok operands _ h =>
    subst h
    obtain ⟨v, tag⟩ := operands
    simp only [hm.input]
    cases m.host.input.read with
    | mk answer input =>
      have hnew : c.Machines { m with host := { m.host with input } }
          { m' with host := { m'.host with input } } := { hm with input := rfl }
      cases answer with
      | ok line => exact hnew.update (hnew.assign v _)
      | error message => exact hnew.fail (.host message)

theorem ret : c.Steps m.ret m'.ret := by
  unfold Machine.ret
  rw [hm.calls]
  cases m.calls with
  | nil => exact hm.fail .emptyCallStack
  | cons caller rest => exact ⟨hm.withCalls rfl, .ok (.back caller)⟩

/-! ## Jumps -/

section Jumps

variable {labels labels' : LabelTable} {i : Instruction} (hr : c.Resolves labels labels' i)
include hr

theorem call : c.Steps (m.call labels i) (m'.call labels' (c.instruction i)) := by
  have htarget := hm.target hr 0
  unfold Machine.call
  generalize m.target labels i 0 = r, m'.target labels' (c.instruction i) 0 = r' at htarget ⊢
  cases htarget with
  | error e => exact ⟨hm, .error e⟩
  | @ok target _ h =>
    subst h
    refine ⟨hm.withCalls ?_, .ok (.jump target)⟩
    simp only [Stack.push, hm.calls, hm.position, List.map_cons]

theorem jumpIf (equal : Bool) :
    c.Results c.Flows (m.jumpIf labels i equal) (m'.jumpIf labels' (c.instruction i) equal) := by
  refine (hm.target hr 0).bind fun target _ htarget => ?_
  subst htarget
  refine (hm.symbol i 1).bind fun x _ hx => ?_
  subst hx
  refine (hm.symbol i 2).bind fun y _ hy => ?_
  subst hy
  exact hm.branch i equal target x y

theorem jumpIfStack (equal : Bool) :
    c.Steps (m.jumpIfStack labels i equal) (m'.jumpIfStack labels' (c.instruction i) equal) := by
  have htarget := hm.target hr 0
  unfold Machine.jumpIfStack
  generalize m.target labels i 0 = r, m'.target labels' (c.instruction i) 0 = r' at htarget ⊢
  cases htarget with
  | error e => exact ⟨hm, .error e⟩
  | @ok target _ h =>
    subst h
    refine hm.popping fun y rest hy => hy.popping fun x rest hx => hx.go ?_
    exact hx.branch i equal target x y

end Jumps

end Machines

/-- **Corresponding instructions on corresponding machines do the same.** What the diagnostics
answer matters to the instructions that write there, and a description of the state to BREAK. -/
theorem step_of_written {labels labels' : LabelTable} {i : Instruction}
    (hr : c.Resolves labels labels' i) {m m' : Machine} (hm : c.Machines m m')
    (hdiagnose : ∀ text, c.Written (m.host.diagnostics.write text) (m'.host.diagnostics.write text))
    (hreport : i.opcode = .breakpoint →
      c.Written (m.host.diagnostics.write m.report) (m'.host.diagnostics.write m'.report)) :
    c.Steps (m.step labels i) (m'.step labels' (c.instruction i)) := by
  have hop : (c.instruction i).opcode = i.opcode := rfl
  unfold Machine.step
  rw [hop]
  cases hcase : i.opcode with
  | createFrame => exact ⟨hm.withTemporary (.some .empty), .ok .next⟩
  | pushFrame => exact hm.update hm.pushFrame
  | popFrame => exact hm.update hm.popFrame
  | defVar => exact hm.update ((destination i 0).bind fun v _ hv => hv ▸ hm.declare v)
  | call => exact hm.call hr
  | ret => exact hm.ret
  | move | unary op | strlen => exact hm.update (hm.unary i _)
  | binary op | concat | getChar => exact hm.update (hm.binary i _)
  | setChar => exact hm.update (hm.setChar i)
  | type => exact hm.update (hm.type i)
  | pushs => exact hm.pushed (hm.symbol i 0)
  | pops =>
    refine hm.popping fun x rest hx => hx.update ?_
    exact (destination i 0).bind fun v _ hv => hv ▸ hx.assign v x
  | clears => exact ⟨hm.withData [], .ok .next⟩
  | unaryStack op => exact hm.popping fun x rest hx => hx.pushed (hx.accept i _)
  | binaryStack op =>
    exact hm.popping fun y rest hy => hy.popping fun x rest hx => hx.pushed (hx.accept i _)
  | read => exact hm.read i
  | write => exact hm.withSymbol i fun x => hm.write _
  | dprint => exact hm.withSymbol i fun x => hm.diagnose (hdiagnose _)
  | breakpoint => exact hm.diagnose (hreport hcase)
  | label => exact ⟨hm, .ok .next⟩
  | jump => exact hm.go ((hm.target hr 0).map fun target _ h => h ▸ .jump target)
  | jumpIf equal => exact hm.go (hm.jumpIf hr equal)
  | jumpIfStack equal => exact hm.jumpIfStack hr equal
  | exit =>
    refine hm.go ((hm.symbol i 0).bind fun x _ hx => ?_)
    subst hx
    refine (hm.accept i x.exitStatus).bind fun status _ hstatus => ?_
    subst hstatus
    exact .ok (.halt status)

theorem step (laws : c.Lawful) {labels labels' : LabelTable} {i : Instruction}
    (hr : c.Resolves labels labels' i) {m m' : Machine} (hm : c.Machines m m') :
    c.Steps (m.step labels i) (m'.step labels' (c.instruction i)) :=
  step_of_written hr hm (fun text => laws.diagnose text hm.diagnostics) fun _ => laws.report hm

theorem Steps.progress {s s' : Step} (h : c.Steps s s') : c.Proceeds s.progress s'.progress := by
  obtain ⟨hm, hresult⟩ := h
  unfold Step.progress
  generalize s.result = r, s'.result = r' at hresult ⊢
  cases hresult with
  | error e => exact .stopped (.failed e) hm
  | ok hflow =>
    cases hflow with
    | next =>
      exact .running { hm with position := rfl } (.inr ⟨_, rfl, congrArg (· + 1) hm.position⟩)
    | jump target => exact .running { hm with position := rfl } (.inl rfl)
    | back caller => exact .running { hm with position := rfl } (.inr ⟨caller, rfl, rfl⟩)
    | halt status => exact .stopped (.exited status) hm

theorem advance (laws : c.Lawful) {p p' : Program} (hp : c.Programs p p') {m m' : Machine}
    (hm : c.Machines m m') : c.Proceeds (m.advance p) (m'.advance p') := by
  have hfetch : p'.fetch? m'.position = (p.fetch? m.position).map c.instruction := by
    rw [hm.position, hp.fetch?]
  cases hi : p.fetch? m.position with
  | none =>
    rw [hi] at hfetch
    rw [Machine.advance_of_none hi, Machine.advance_of_none hfetch]
    exact .stopped .ended hm
  | some i =>
    rw [hi] at hfetch
    rw [Machine.advance_of_some hi, Machine.advance_of_some hfetch]
    exact (step laws (hp.resolves m.position i hi) (hm.counted laws)).progress

/-- Where positions stay, both ways to go on lead to the same one. -/
theorem position_eq_of_id {m m' : Machine} (hplace : c.place = id)
    (h : m'.position = c.place m.position ∨ ∃ k, m.position = k + 1 ∧ m'.position = c.place k + 1) :
    m'.position = m.position := by
  simp only [hplace] at h
  rcases h with hposition | ⟨k, hk, hk'⟩
  · exact hposition
  · exact hk'.trans hk.symm

/-- Programs that stopped have corresponding answers, given that flushing has. -/
theorem conclude {m m' : Machine} (hm : c.Machines m m') (hflush : m'.host.flush = m.host.flush)
    (why : Stop) : c.Results Eq (m.conclude why) (m'.conclude (c.stop why)) := by
  cases why with
  | failed e => exact .error e
  | ended | exited _ =>
    simp only [Machine.conclude, stop, Stop.status, hflush]
    cases m.host.flush with
    | ok _ => exact .ok rfl
    | error message => exact hm.failed (.host message)

end Correspondence

end FrameCode

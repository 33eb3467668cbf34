import FrameCode.Proofs.Correspondence
import FrameCode.Proofs.Run

/-! What instructions have to do with the host. Four opcodes read from it or write to it. All
others neither look at it nor change it: on a machine with another host they do the same
(`Machine.step_withHost`). There is one lemma for each function that a step is made of. -/

namespace FrameCode

/-! ## Hosts that never refuse -/

/-- Every read is answered, be it with a line or with none. -/
def Input.Answers (s : Input) : Prop := ∀ reads, s.refusal reads = none

theorem Input.Answers.read {s : Input} (h : s.Answers) :
    s.read = (.ok s.lines.head?, { s with lines := s.lines.tail, reads := s.reads + 1 }) := by
  simp only [Input.read, h s.reads]

/-- Every write and every flush succeeds. -/
def Sink.Accepts (s : Sink) : Prop :=
  (∀ writes written text, s.refusal writes written text = none) ∧ s.flushRefusal = none

namespace Sink.Accepts

variable {s : Sink} (h : s.Accepts) (text : String)
include h

theorem write : (s.write text).1 = .ok () ∧ (s.write text).2.Accepts := by
  unfold Sink.write
  split
  · exact ⟨rfl, h⟩
  · rw [h.1]
    exact ⟨rfl, h⟩

theorem text_write : (s.write text).2.text = s.text ++ text := by
  unfold Sink.write
  split
  · next hempty => rw [hempty, String.append_empty]
  · rw [h.1]

end Sink.Accepts

theorem Host.flush_eq {host host' : Host} (h : host.diagnostics.Accepts)
    (h' : host'.diagnostics.Accepts) (houtput : host'.output = host.output) :
    host'.flush = host.flush := by
  simp only [Host.flush, houtput, h.2, h'.2]

/-- Diagnostics that refuse nothing are not told apart, whatever is written to them. -/
theorem Correspondence.lawful_of_accepts {c : Correspondence}
    (hcount : ∀ {n n' : Nat}, c.counts n n' → c.counts (n + 1) (n' + 1))
    (hsinks : ∀ {s s' : Sink}, c.sinks s s' ↔ s.Accepts ∧ s'.Accepts) : c.Lawful := by
  have hwritten {s s' : Sink} (h : c.sinks s s') (text text' : String) :
      c.Written (s.write text) (s'.write text') := by
    obtain ⟨hok, haccepts⟩ := (hsinks.mp h).1.write text
    obtain ⟨hok', haccepts'⟩ := (hsinks.mp h).2.write text'
    exact ⟨hok'.trans hok.symm, hsinks.mpr ⟨haccepts, haccepts'⟩⟩
  exact ⟨hcount, fun text h => hwritten h text text, fun h => hwritten h.diagnostics _ _⟩

/-! ## Instructions that leave the host alone -/

/-- The opcodes that read a line or write a text. -/
def Opcode.usesHost : Opcode → Bool
  | .read | .write | .dprint | .breakpoint => true
  | _ => false

/-- The same machine with another host. -/
def Machine.withHost (m : Machine) (host : Host) : Machine := { m with host }

def Step.withHost (s : Step) (host : Host) : Step := { s with machine := s.machine.withHost host }

namespace Machine

variable (m : Machine) (host : Host) (i : Instruction)

/-! ### Computations -/

theorem setFrame_withHost (kind : FrameKind) (f : Frame) :
    (m.withHost host).setFrame kind f = (m.setFrame kind f).withHost host := by
  cases kind <;> rfl

theorem assign_withHost (v : Variable) (x : Value) :
    (m.withHost host).assign v x = (withHost · host) <$> m.assign v x := by
  have hframe : (m.withHost host).frame v.frame = m.frame v.frame := rfl
  unfold assign
  rw [map_bind, hframe]
  refine bind_congr fun f => ?_
  cases f.set? v.name (some x) with
  | none => rfl
  | some f' => exact congrArg Except.ok (setFrame_withHost m host v.frame f')

theorem declare_withHost (v : Variable) :
    (m.withHost host).declare v = (withHost · host) <$> m.declare v := by
  have hframe : (m.withHost host).frame v.frame = m.frame v.frame := rfl
  unfold declare
  rw [map_bind, hframe]
  refine bind_congr fun f => ?_
  cases f.declare? v.name with
  | none => rfl
  | some f' => exact congrArg Except.ok (setFrame_withHost m host v.frame f')

theorem unary_withHost (f : Value → Except Fault Value) :
    (m.withHost host).unary i f = (withHost · host) <$> m.unary i f := by
  unfold unary
  simp only [map_bind, ← assign_withHost]
  rfl

theorem binary_withHost (f : Value → Value → Except Fault Value) :
    (m.withHost host).binary i f = (withHost · host) <$> m.binary i f := by
  unfold binary
  simp only [map_bind, ← assign_withHost]
  rfl

theorem setChar_withHost :
    (m.withHost host).setChar i = (withHost · host) <$> m.setChar i := by
  unfold setChar
  simp only [map_bind, ← assign_withHost]
  rfl

theorem type_withHost : (m.withHost host).type i = (withHost · host) <$> m.type i := by
  unfold type
  simp only [map_bind]
  refine bind_congr fun v => bind_congr fun _ => ?_
  split
  · exact assign_withHost m host v _
  · rw [map_bind]
    refine bind_congr fun cell => ?_
    split
    · exact assign_withHost m host v _
    · exact assign_withHost m host v _
  · rfl

theorem pushFrame_withHost :
    (m.withHost host).pushFrame = (withHost · host) <$> m.pushFrame := by
  have htemporary : (m.withHost host).temporary = m.temporary := rfl
  unfold pushFrame
  rw [htemporary]
  cases m.temporary <;> rfl

theorem popFrame_withHost : (m.withHost host).popFrame = (withHost · host) <$> m.popFrame := by
  have hlocals : (m.withHost host).locals = m.locals := rfl
  unfold popFrame
  rw [hlocals]
  cases m.locals <;> rfl

/-! ### Outcomes -/

theorem update_withHost {r r' : Except RunError Machine} (h : r' = (withHost · host) <$> r) :
    (m.withHost host).update r' = (m.update r).withHost host := by
  rw [h]
  cases r <;> rfl

theorem go_withHost (r : Except RunError Flow) :
    (m.withHost host).go r = (m.go r).withHost host := by
  cases r <;> rfl

theorem pushed_withHost (r : Except RunError Value) :
    (m.withHost host).update (r.map (m.withHost host).push) =
      (m.update (r.map m.push)).withHost host := by
  cases r <;> rfl

theorem popping_withHost {k k' : Value → Machine → Step}
    (hk : ∀ x rest, k' x ({ m with data := rest }.withHost host) =
      (k x { m with data := rest }).withHost host) :
    (m.withHost host).popping k' = (m.popping k).withHost host := by
  have hdata : (m.withHost host).data = m.data := rfl
  unfold popping
  rw [hdata]
  cases m.data with
  | nil => rfl
  | cons x rest => exact hk x rest

theorem call_withHost (labels : LabelTable) :
    (m.withHost host).call labels i = (m.call labels i).withHost host := by
  have htarget : (m.withHost host).target labels i 0 = m.target labels i 0 := rfl
  unfold call
  rw [htarget]
  cases m.target labels i 0 <;> rfl

theorem ret_withHost : (m.withHost host).ret = m.ret.withHost host := by
  have hcalls : (m.withHost host).calls = m.calls := rfl
  unfold ret
  rw [hcalls]
  cases m.calls <;> rfl

theorem jumpIfStack_withHost (labels : LabelTable) (equal : Bool) :
    (m.withHost host).jumpIfStack labels i equal =
      (m.jumpIfStack labels i equal).withHost host := by
  have htarget : (m.withHost host).target labels i 0 = m.target labels i 0 := rfl
  unfold jumpIfStack
  rw [htarget]
  cases m.target labels i 0 with
  | error e => rfl
  | ok target =>
    exact popping_withHost m host fun y _ => popping_withHost _ host fun x _ => go_withHost _ host _

end Machine

/-- **Most instructions do not know the host.** With another one they do the same, and leave it
as it is. -/
theorem Machine.step_withHost {i : Instruction} (h : i.opcode.usesHost = false) (labels : LabelTable)
    (m : Machine) (host : Host) :
    (m.withHost host).step labels i = (m.step labels i).withHost host := by
  unfold step
  cases hop : i.opcode with
  | read | write | dprint | breakpoint =>
    rw [hop] at h
    cases h
  | createFrame | clears | label => rfl
  | pushFrame => exact update_withHost m host (pushFrame_withHost m host)
  | popFrame => exact update_withHost m host (popFrame_withHost m host)
  | defVar =>
    refine update_withHost m host ?_
    rw [map_bind]
    exact bind_congr fun v => declare_withHost m host v
  | call => exact call_withHost m host i labels
  | ret => exact ret_withHost m host
  | move | unary op | strlen => exact update_withHost m host (unary_withHost m host i _)
  | binary op | concat | getChar => exact update_withHost m host (binary_withHost m host i _)
  | setChar => exact update_withHost m host (setChar_withHost m host i)
  | type => exact update_withHost m host (type_withHost m host i)
  | pushs => exact pushed_withHost m host _
  | pops =>
    refine popping_withHost m host fun x rest => update_withHost _ host ?_
    rw [map_bind]
    exact bind_congr fun v => assign_withHost _ host v x
  | unaryStack op => exact popping_withHost m host fun x _ => pushed_withHost _ host _
  | binaryStack op =>
    exact popping_withHost m host fun y _ => popping_withHost _ host fun x _ =>
      pushed_withHost _ host _
  | jump | jumpIf equal | exit => exact go_withHost m host _
  | jumpIfStack equal => exact jumpIfStack_withHost m host i labels equal

theorem Machine.host_step {i : Instruction} (h : i.opcode.usesHost = false) (labels : LabelTable)
    (m : Machine) : (m.step labels i).machine.host = m.host := by
  have hsame := step_withHost h labels m m.host
  exact congrArg (fun s => s.machine.host) hsame

theorem Step.host_progress (s : Step) : s.progress.machine.host = s.machine.host := by
  unfold Step.progress
  split <;> rfl

/-! ## Instructions that use the host -/

namespace Machine

variable {m : Machine}

theorem write_of_accepts (h : m.host.output.Accepts) (text : String) : m.write text =
    ⟨m.withHost { m.host with output := (m.host.output.write text).2 }, .ok .next⟩ := by
  have hok := (h.write text).1
  unfold write
  generalize m.host.output.write text = w at hok ⊢
  obtain ⟨answer, output⟩ := w
  cases hok
  rfl

theorem diagnose_of_accepts (h : m.host.diagnostics.Accepts) (text : String) : m.diagnose text =
    ⟨m.withHost { m.host with diagnostics := (m.host.diagnostics.write text).2 }, .ok .next⟩ := by
  have hok := (h.write text).1
  unfold diagnose
  generalize m.host.diagnostics.write text = w at hok ⊢
  obtain ⟨answer, diagnostics⟩ := w
  cases hok
  rfl

section Read

variable {i : Instruction}

theorem read_of_error {e : RunError} (ho : m.readOperands i = .error e) : m.read i = m.fail e := by
  unfold read
  rw [ho]

variable {v : Variable} {tag : TypeTag} (ho : m.readOperands i = .ok (v, tag)) {input : Input}
include ho

theorem read_of_refusal {message : String} (h : m.host.input.read = (.error message, input)) :
    m.read i = (m.withHost { m.host with input }).fail (m.error (.host message)) := by
  unfold read
  rw [ho, h]
  rfl

theorem read_of_line {line : Option String} (h : m.host.input.read = (.ok line, input)) :
    let taken := m.withHost { m.host with input }
    m.read i = taken.update (taken.assign v (Value.ofInput line tag)) := by
  unfold read
  rw [ho, h]
  rfl

end Read

end Machine

end FrameCode

import FrameCode.Machine.Step

/-! Runs: one instruction after the other, up to a number of steps. A run that stopped
can be taken up again where it stopped. -/

namespace FrameCode

/-- Why a run stops: there is no instruction at its position, or an instruction
exits or fails. -/
inductive Stop where
  | ended
  | exited (status : Nat)
  | failed (e : RunError)
deriving DecidableEq, Repr

namespace Stop

/-- The end of the program is status 0. -/
def status : Stop → Except RunError Nat
  | ended => .ok 0
  | exited status => .ok status
  | failed e => .error e

end Stop

inductive Progress where
  | running (m : Machine)
  | stopped (why : Stop) (m : Machine)

namespace Machine

/-- Executes the instruction at the machine's position. One that exits or fails
leaves the position where it is. -/
def advance (p : Program) (m : Machine) : Progress :=
  match p.fetch? m.position with
  | none => .stopped .ended m
  | some i =>
    let s := step p.labels i { m with executed := m.executed + 1 }
    match s.result with
    | .ok .next => .running { s.machine with position := s.machine.position + 1 }
    | .ok (.jump position) => .running { s.machine with position }
    | .ok (.halt status) => .stopped (.exited status) s.machine
    | .error e => .stopped (.failed e) s.machine

/-- At most `fuel` instructions, and fewer if the run stops. -/
def run (p : Program) : Nat → Machine → Progress
  | 0, m => .running m
  | fuel + 1, m =>
    match m.advance p with
    | .running m => run p fuel m
    | .stopped why m => .stopped why m

/-- The answer of a run that stopped: its streams are flushed, and an error of the
program goes before one of the flush. -/
def conclude (m : Machine) (why : Stop) : Except RunError Nat := do
  let status ← why.status
  m.host.flush.mapError fun message => m.error (.host message)
  return status

end Machine

namespace Program

/-- Runs a program from its start, for at most `fuel` instructions. -/
def run (p : Program) (fuel : Nat) (host : Host) : Option (Except RunError Nat × Machine) :=
  match (Machine.start host).run p fuel with
  | .running _ => none
  | .stopped why m => some (m.conclude why, m)

end Program

end FrameCode

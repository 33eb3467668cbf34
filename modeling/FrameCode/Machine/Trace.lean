import FrameCode.Machine.Run

/-! What a run reports about itself while it goes on. -/

namespace FrameCode

inductive Event where
  | loaded (instructions labels : Nat)
  | executing (position : Nat) (i : Instruction)
  | ended (executed : Nat)
  | halted (status executed : Nat)
  | failed (position : Nat) (e : RunError)

namespace Event

def level : Event → String
  | executing .. => "TRACE"
  | _ => "DEBUG"

def message : Event → String
  | loaded .. => "program loaded"
  | executing .. => "execute"
  | ended _ => "end of program"
  | halted .. => "halted"
  | failed _ e => "failed: " ++ e.message

def fields : Event → List (String × String)
  | loaded instructions labels =>
    [("instructions", Text.Decimal.ofNat instructions), ("labels", Text.Decimal.ofNat labels)]
  | executing position i =>
    [("position", Text.Decimal.ofNat position), ("instruction", i.text)]
  | ended executed => [("executed", Text.Decimal.ofNat executed)]
  | halted status executed =>
    [("code", Text.Decimal.ofNat status), ("executed", Text.Decimal.ofNat executed)]
  | failed position e =>
    [("position", Text.Decimal.ofNat position), ("class", e.errorClass.name)]

/-- The event at the end of a run. -/
def ofStop (m : Machine) : Stop → Event
  | .ended => ended m.executed
  | .exited status => halted status m.executed
  | .failed e => failed m.position e

end Event

namespace Program

/-- What loading a program reports. -/
def loadEvent (p : Program) : Event := .loaded p.size p.labels.size

end Program

namespace Machine

/-- The events of a run of at most `fuel` instructions, in order. -/
def trace (p : Program) : Nat → Machine → List Event
  | 0, _ => []
  | fuel + 1, m =>
    let begun := (p.fetch? m.position).toList.map (Event.executing m.position)
    match m.advance p with
    | .running m' => begun ++ trace p fuel m'
    | .stopped why m' => begun ++ [Event.ofStop m' why]

end Machine

end FrameCode

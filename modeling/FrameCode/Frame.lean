import FrameCode.Value
import Std.Data.ExtTreeMap

/-! Frames: the variables that have been declared, in the order of declaration. An
index finds a variable by its name. -/

namespace FrameCode

/-- A variable of a frame; it has no value until one is written. -/
structure Cell where
  name : String
  value : Option Value := none
deriving DecidableEq, Repr

structure Frame where
  cells : Array Cell := #[]
  index : Std.ExtTreeMap String Nat := ∅
deriving DecidableEq

namespace Frame

def empty : Frame := {}

def size (f : Frame) : Nat := f.cells.size

def contains (f : Frame) (name : String) : Bool := f.index.contains name

/-- Adds a variable without a value, unless the name is taken. -/
def declare? (f : Frame) (name : String) : Option Frame :=
  if f.contains name then none
  else some { cells := f.cells.push { name }, index := f.index.insert name f.cells.size }

def get? (f : Frame) (name : String) : Option Cell :=
  f.index[name]?.bind fun i => f.cells[i]?

/-- Writes the value of a variable that is there, or takes it away. -/
def set? (f : Frame) (name : String) (value : Option Value) : Option Frame :=
  f.index[name]?.bind fun i =>
    if i < f.cells.size then
      some { f with cells := f.cells.modify i fun cell => { cell with value } }
    else none

end Frame

end FrameCode

import FrameCode.Instruction
import Std.Data.ExtTreeMap
import Std.Data.ExtTreeSet

/-! Programs: instructions in order of execution and the positions of their labels.
Positions count from one. -/

namespace FrameCode

/-- Positions by label name. Two tables with the same entries are equal. -/
structure LabelTable where
  positions : Std.ExtTreeMap String Nat := ∅
deriving DecidableEq

namespace LabelTable

def empty : LabelTable := {}

def resolve? (t : LabelTable) (name : String) : Option Nat := t.positions[name]?

def size (t : LabelTable) : Nat := t.positions.size

/-- A name that has a position keeps it, and that position is the answer. -/
def insert (t : LabelTable) (name : String) (position : Nat) : Except Nat LabelTable :=
  match t.resolve? name with
  | some existing => .error existing
  | none => .ok { positions := t.positions.insert name position }

/-- Enters a name unless it is there already. -/
def insertNew (t : LabelTable) (name : String) (position : Nat) : LabelTable :=
  match t.insert name position with
  | .ok t => t
  | .error _ => t

end LabelTable

structure Program where
  instructions : Array Instruction
  labels : LabelTable
deriving DecidableEq

namespace Program

def size (p : Program) : Nat := p.instructions.size

/-- The instruction that runs at a position, whatever position it states itself. -/
def fetch? (p : Program) (position : Nat) : Option Instruction :=
  if position = 0 then none else p.instructions[position - 1]?

/-- The labels that instructions mention and the table knows, by name. In a program that was loaded
these are all labels of the table. -/
def mentionedLabels (p : Program) : List (String × Nat) :=
  let names := Std.ExtTreeSet.ofList
    (p.instructions.toList.flatMap fun i => i.operands.filterMap Operand.label?)
  p.labels.positions.toList.filter fun entry => entry.1 ∈ names

/-- The line that marks a text as a program. -/
def header : String := ".triad"

/-- The program as a text that assembles and loads to it again. -/
def source (p : Program) : String :=
  header ++ "\n" ++ String.join (p.instructions.toList.map fun i => i.text ++ "\n")

/-- One line for each instruction, with the positions aligned to the right. -/
def listing (p : Program) : String :=
  let width := (Nat.toDigits 10 p.size).length
  String.join (p.instructions.toList.map fun i =>
    Text.Decimal.padded width i.position ++ "  " ++ i.text ++ "\n")

end Program

end FrameCode

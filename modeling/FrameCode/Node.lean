import FrameCode.Text.Decimal

/-! Nodes: instructions as they are written down, before any check. An attribute may
be missing, and a child element may have any tag. -/

namespace FrameCode

/-- A child element of a node, with the kind and the text of an operand. -/
structure Argument where
  tag : String
  kind : Option String
  text : String
deriving DecidableEq, Repr

structure Node where
  order : Option String := none
  opcode : Option String := none
  children : List Argument := []
deriving DecidableEq, Repr

namespace Node

def child (n : Node) (a : Argument) : Node := { n with children := n.children ++ [a] }

/-- Adds a child whose tag counts the children: `arg1`, `arg2` and so on. -/
def arg (n : Node) (kind text : String) : Node :=
  n.child ⟨"arg" ++ Text.Decimal.ofNat (n.children.length + 1), some kind, text⟩

end Node

end FrameCode

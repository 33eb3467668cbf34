import FrameCode.ErrorClass
import FrameCode.Node
import FrameCode.Program
import FrameCode.Source.Token

/-! From a source text to nodes: one node for each line that holds words, a first
line that is the header apart. What a word of an operand means is read off the
opcode's signature; an opcode that is not in the catalogue passes. -/

namespace FrameCode

inductive SourceFault where
  | unexpectedDirective (token : String)
  | tooManyOperands (count : Nat)
  | malformedOperand (token : String)
deriving DecidableEq, Repr

structure SourceError where
  line : Nat
  fault : SourceFault
deriving DecidableEq, Repr

namespace SourceFault

def text : SourceFault → String
  | unexpectedDirective token => s!"unexpected directive '{token}'"
  | tooManyOperands count => s!"{count} operands given, at most 3 allowed"
  | malformedOperand token => s!"malformed operand '{token}'"

end SourceFault

namespace SourceError

def message (e : SourceError) : String := s!"line {e.line}: " ++ e.fault.text

def errorClass (_ : SourceError) : ErrorClass := .structural

end SourceError

namespace Token

/-- Kind and text of the operand that a word gives for a slot. Without a slot a
plain word is a label. -/
def operand? (slot : Option Slot) (t : Token) : Option (String × String) :=
  match slot, t with
  | some .label, t => some ("label", t.text)
  | some .type, t => some ("type", t.text)
  | _, .tagged mark body =>
    if (FrameKind.ofMark? mark).isSome then some ("var", t.text)
    else if (TypeTag.ofName? mark).isSome then some (mark, body)
    else none
  | none, .word text => some ("label", text)
  | _, _ => none

def isHeader : List Token → Bool
  | [.directive text] => Text.sameLetters text Program.header
  | _ => false

end Token

namespace Node

/-- Adds the operands that words give for the slots of a signature. -/
def withOperands (n : Node) : List Slot → List Token → Except SourceFault Node
  | _, [] => .ok n
  | slots, t :: rest =>
    match t.operand? slots.head? with
    | some (kind, text) => (n.arg kind text).withOperands slots.tail rest
    | none => .error (.malformedOperand t.text)

/-- The node of a line, from its first word and the others. -/
def ofTokens (order : Nat) (head : Token) (args : List Token) : Except SourceFault Node :=
  match head with
  | .directive text => .error (.unexpectedDirective text)
  | _ =>
    if 3 < args.length then .error (.tooManyOperands args.length)
    else
      let name := head.text
      let signature := ((Opcode.ofMnemonic? name).map Opcode.signature).getD []
      let node : Node := { order := some (Text.Decimal.ofNat order), opcode := some name }
      node.withOperands signature args

end Node

namespace Source

/-- The lines that hold words, each with its number in the text. -/
def content (text : String) : List (Nat × Token × List Token) :=
  (Text.lines text.toList).zipIdx.filterMap fun (line, k) =>
    match Token.ofLine line with
    | [] => none
    | head :: args => some (k + 1, head, args)

/-- Drops the header, which only the first of the lines can be. -/
def body : List (Nat × Token × List Token) → List (Nat × Token × List Token)
  | (line, head, args) :: rest =>
    if Token.isHeader (head :: args) then rest else (line, head, args) :: rest
  | [] => []

/-- The nodes of numbered lines, with orders that count up from `order`. -/
def nodes (order : Nat) : List (Nat × Token × List Token) → Except SourceError (List Node)
  | [] => .ok []
  | (line, head, args) :: rest => do
    let node ← (Node.ofTokens order head args).mapError (⟨line, ·⟩)
    return node :: (← nodes (order + 1) rest)

def assemble (text : String) : Except SourceError (List Node) := nodes 1 (body (content text))

end Source

end FrameCode

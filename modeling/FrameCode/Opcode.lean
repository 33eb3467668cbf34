import FrameCode.Operator

/-! The catalogue of opcodes: mnemonics, and the operands that each one takes. -/

namespace FrameCode

/-- What an operand may be: a variable, a symbol (a variable or a constant), a
label or the name of a type. -/
inductive Slot where
  | var
  | symb
  | label
  | type
deriving DecidableEq, Repr

/-- Operators with a stack form give two opcodes each. A conditional jump is taken
when its values are equal, or when they are not. -/
inductive Opcode where
  | createFrame
  | pushFrame
  | popFrame
  | defVar
  | call
  | ret
  | move
  | pushs
  | pops
  | clears
  | unary (op : Unary)
  | binary (op : Binary)
  | unaryStack (op : Unary)
  | binaryStack (op : Binary)
  | read
  | write
  | concat
  | strlen
  | getChar
  | setChar
  | type
  | label
  | jump
  | jumpIf (equal : Bool)
  | jumpIfStack (equal : Bool)
  | exit
  | dprint
  | breakpoint
deriving DecidableEq, Repr

namespace Opcode

def mnemonic : Opcode → String
  | createFrame => "CREATEFRAME"
  | pushFrame => "PUSHFRAME"
  | popFrame => "POPFRAME"
  | defVar => "DEFVAR"
  | call => "CALL"
  | ret => "RETURN"
  | move => "MOVE"
  | pushs => "PUSHS"
  | pops => "POPS"
  | clears => "CLEARS"
  | unary op => op.name
  | binary op => op.name
  | unaryStack op => op.name ++ "S"
  | binaryStack op => op.name ++ "S"
  | read => "READ"
  | write => "WRITE"
  | concat => "CONCAT"
  | strlen => "STRLEN"
  | getChar => "GETCHAR"
  | setChar => "SETCHAR"
  | type => "TYPE"
  | label => "LABEL"
  | jump => "JUMP"
  | jumpIf true => "JUMPIFEQ"
  | jumpIf false => "JUMPIFNEQ"
  | jumpIfStack true => "JUMPIFEQS"
  | jumpIfStack false => "JUMPIFNEQS"
  | exit => "EXIT"
  | dprint => "DPRINT"
  | breakpoint => "BREAK"

def signature : Opcode → List Slot
  | createFrame | pushFrame | popFrame | ret | clears | breakpoint => []
  | unaryStack _ | binaryStack _ => []
  | defVar | pops => [.var]
  | pushs | write | exit | dprint => [.symb]
  | call | label | jump | jumpIfStack _ => [.label]
  | move | strlen | type | unary _ => [.var, .symb]
  | read => [.var, .type]
  | concat | getChar | setChar | binary _ => [.var, .symb, .symb]
  | jumpIf _ => [.label, .symb, .symb]

def arity (op : Opcode) : Nat := op.signature.length

def all : List Opcode :=
  [.createFrame, .pushFrame, .popFrame, .defVar, .call, .ret, .move, .pushs, .pops, .clears,
    .binary .add, .binary .sub, .binary .mul, .binary .idiv, .binary .lt, .binary .gt,
    .binary .eq, .binary .and, .binary .or, .unary .not, .binaryStack .add, .binaryStack .sub,
    .binaryStack .mul, .binaryStack .idiv, .binaryStack .lt, .binaryStack .gt, .binaryStack .eq,
    .binaryStack .and, .binaryStack .or, .unaryStack .not, .unary .int2Char, .binary .stri2Int,
    .unaryStack .int2Char, .binaryStack .stri2Int, .read, .write, .concat, .strlen, .getChar,
    .setChar, .type, .label, .jump, .jumpIf true, .jumpIf false, .jumpIfStack true,
    .jumpIfStack false, .exit, .dprint, .breakpoint]

/-- The case of ASCII letters does not matter; blanks do. -/
def ofMnemonic? (name : String) : Option Opcode :=
  all.find? fun op => Text.sameLetters op.mnemonic name

end Opcode

end FrameCode

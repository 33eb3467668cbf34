import FrameCode.Text.Blank

/-! Variables: a name in one of the three frames. -/

namespace FrameCode

inductive FrameKind where
  | globals
  | locals
  | temporary
deriving DecidableEq, Repr

namespace FrameKind

def all : List FrameKind := [.globals, .locals, .temporary]

/-- What stands before the `@` of a variable. -/
def mark : FrameKind → String
  | globals => "GF"
  | locals => "LF"
  | temporary => "TF"

def ofMark? (mark : String) : Option FrameKind := all.find? fun k => k.mark == mark

end FrameKind

structure Variable where
  frame : FrameKind
  name : String
deriving DecidableEq, Repr

namespace Variable

def text (v : Variable) : String := v.frame.mark ++ "@" ++ v.name

/-- The name is everything after the first `@`, and not empty. -/
def ofText? (text : String) : Option Variable := do
  let (mark, name) ← Text.cut? '@' text.toList
  let frame ← FrameKind.ofMark? (String.ofList mark)
  if name = [] then none else some ⟨frame, String.ofList name⟩

end Variable

end FrameCode

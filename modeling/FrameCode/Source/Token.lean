import FrameCode.Text.Lines

/-! The words of a source line. A `#` starts a comment. -/

namespace FrameCode

/-- A word that starts with a dot is a directive, even where it holds an `@`. Any
other word with an `@` is a mark and a body. -/
inductive Token where
  | directive (text : String)
  | tagged (mark body : String)
  | word (text : String)
deriving DecidableEq, Repr

namespace Token

def ofWord (cs : List Char) : Token :=
  if cs.head? = some '.' then directive (String.ofList cs)
  else match Text.cut? '@' cs with
    | some (mark, body) => tagged (String.ofList mark) (String.ofList body)
    | none => word (String.ofList cs)

def text : Token → String
  | directive text => text
  | tagged mark body => mark ++ "@" ++ body
  | word text => text

/-- The words of a line up to its comment. -/
def ofLine (line : List Char) : List Token :=
  (Text.words (line.takeWhile (· != '#'))).map ofWord

end Token

end FrameCode

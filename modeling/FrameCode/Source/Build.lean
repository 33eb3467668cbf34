import FrameCode.Program.Load
import FrameCode.Source.Assemble

/-! From a source text to a program: assembling, then loading. -/

namespace FrameCode

inductive BuildError where
  | source (e : SourceError)
  | load (e : LoadError)
deriving DecidableEq, Repr

namespace BuildError

def message : BuildError → String
  | source e => e.message
  | load e => e.message

def errorClass : BuildError → ErrorClass
  | source e => e.errorClass
  | load e => e.errorClass

end BuildError

namespace Program

def ofSource (text : String) : Except BuildError Program := do
  let nodes ← (Source.assemble text).mapError .source
  (load nodes).mapError .load

/-- Whether the program's own source text gives the program again. For a program that was loaded it
does so exactly if the names in it are plain. -/
def readsBack (p : Program) : Except BuildError Bool := do
  return (← ofSource p.source) == p

end Program

end FrameCode

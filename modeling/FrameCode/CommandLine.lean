import FrameCode.CommandLine.File
import FrameCode.CommandLine.Request
import FrameCode.Machine.Run
import FrameCode.Source.Build

/-! The commands `run`, `check` and `listing`: from the arguments and the files that
they name to an exit code and two texts. -/

namespace FrameCode.CommandLine

/-! ## Answers -/

/-- The exit code of a command and what it printed. -/
structure Outcome where
  code : Nat
  stdout : String := ""
  stderr : String := ""
deriving DecidableEq, Repr

namespace Outcome

/-- A line that begins with `error:`. -/
def failure (code : Nat) (message : String) : Outcome :=
  { code, stderr := s!"error: {message}\n" }

def unreadable (path message : String) : Outcome :=
  failure 1 s!"cannot read '{path}': {message}"

def versionText : String := "triad 0.1.0\n"

def usageText : String :=
  "Usage: triad run SOURCE [--input FILE]\n       triad check SOURCE\n       triad listing SOURCE\n"

/-- The answer of a run that stopped. The error line follows the diagnostics. -/
def ofRun (m : Machine) (why : Stop) : Outcome :=
  let stdout := m.host.output.text
  let stderr := m.host.diagnostics.text
  match m.conclude why with
  | .ok status => { code := status, stdout, stderr }
  | .error e =>
    { code := e.errorClass.code, stdout, stderr := stderr ++ s!"error: {e.message}\n" }

end Outcome

/-! ## Commands -/

/-- What is left to do once the files have been read: nothing, or to run a program
on an input, the standard one where none is given. -/
inductive Plan where
  | done (outcome : Outcome)
  | run (program : Program) (input : Option Input)

/-- The program in a file. -/
def program (file : String → File) (path : String) : Except Outcome Program :=
  match (file path).text with
  | .error message => .error (.unreadable path message)
  | .ok text =>
    (Program.ofSource text).mapError fun e => .failure e.errorClass.code e.message

/-- The source is loaded before the input is opened. -/
def perform (file : String → File) (command : Command) (source : String)
    (input : Option String) : Plan :=
  match program file source with
  | .error outcome => .done outcome
  | .ok p =>
    match command with
    | .check =>
      .done {
        code := 0
        stdout := s!"OK: {source} ({p.size} instructions, {p.labels.size} labels)\n" }
    | .listing => .done { code := 0, stdout := p.listing }
    | .run =>
      match input with
      | none => .run p none
      | some path =>
        match (file path).input with
        | .error message => .done (.unreadable path message)
        | .ok input => .run p (some input)

def plan (file : String → File) (arguments : List String) : Plan :=
  match Request.ofArguments arguments with
  | none => .done { code := 2, stderr := Outcome.usageText }
  | some .help => .done { code := 0, stdout := Outcome.usageText }
  | some .version => .done { code := 0, stdout := Outcome.versionText }
  | some (.perform command source input) => perform file command source input

/-- The whole command, with a run of at most `fuel` instructions. The variable `TRIAD_LOG` is taken
to be unset: the log is then at its default level, at which no event of a run is printed, so that
nothing but the answer goes to the two texts. -/
def outcome (file : String → File) (stdin : Input) (arguments : List String) (fuel : Nat) :
    Option Outcome :=
  match plan file arguments with
  | .done outcome => some outcome
  | .run p input =>
    match (Machine.start { input := input.getD stdin }).run p fuel with
    | .running _ => none
    | .stopped why m => some (.ofRun m why)

end FrameCode.CommandLine

import FrameCode.Text.Blank

/-! What the arguments of a command ask for. They are read from left to right; a
request for help or for the version, or an error, ends the reading. -/

namespace FrameCode.CommandLine

inductive Command where
  | run
  | check
  | listing
deriving DecidableEq, Repr

namespace Command

def all : List Command := [.run, .check, .listing]

def name : Command → String
  | run => "run"
  | check => "check"
  | listing => "listing"

def ofName? (name : String) : Option Command := all.find? fun c => c.name == name

end Command

/-- What the arguments ask for. Only `run` takes an input file. -/
inductive Request where
  | perform (command : Command) (source : String) (input : Option String)
  | help
  | version
deriving DecidableEq, Repr

/-- An argument by its form. A single dash is a value. -/
inductive Form where
  | separator
  | long (name : String) (value : Option String)
  | short (letter : Char)
  | value (text : String)
deriving DecidableEq, Repr

namespace Form

def ofArgument (text : String) : Form :=
  match text.toList with
  | ['-', '-'] => separator
  | '-' :: '-' :: cs =>
    match Text.cut? '=' cs with
    | some (name, attached) => long (String.ofList name) (some (String.ofList attached))
    | none => long (String.ofList cs) none
  | '-' :: letter :: _ => short letter
  | _ => value text

/-- The text of a value; it may not be empty. -/
def value? : Form → Option String
  | value text => if text = "" then none else some text
  | _ => none

end Form

namespace Request

/-- The source, which has to be given once. -/
def withSource (source : Option String) (text : String) : Option (Option String) :=
  if source.isSome ∨ text = "" then none else some (some text)

/-- The request at the end of the arguments. -/
def complete (command : Command) (source input : Option String) : Option Request :=
  source.map fun source => perform command source input

/-- After a separator every argument is a value. -/
def ofValues (command : Command) (input : Option String) :
    Option String → List String → Option Request
  | source, [] => complete command source input
  | source, text :: rest =>
    match withSource source text with
    | some source => ofValues command input source rest
    | none => none

/-- The arguments of a command; none if they are used wrongly. -/
def ofOptions (command : Command) :
    Option String → Option String → List String → Option Request
  | source, input, [] => complete command source input
  | source, input, text :: rest =>
    match Form.ofArgument text with
    | .separator => ofValues command input source rest
    | .short letter => if letter = 'h' then some help else none
    | .long "help" none => some help
    | .long "input" attached =>
      if command ≠ .run ∨ input.isSome then none
      else match attached, rest with
        | some value, rest => if value = "" then none else ofOptions command source (some value) rest
        | none, value :: rest =>
          match (Form.ofArgument value).value? with
          | some value => ofOptions command source (some value) rest
          | none => none
        | none, [] => none
    | .long _ _ => none
    | .value text =>
      match withSource source text with
      | some source => ofOptions command source input rest
      | none => none

/-- Help may be asked for on one command, or on help itself. -/
def ofHelp : List String → Option Request
  | [] => some help
  | [name] => if name = "help" ∨ (Command.ofName? name).isSome then some help else none
  | _ => none

/-- What all the arguments ask for; none if they are used wrongly. -/
def ofArguments : List String → Option Request
  | [] => none
  | text :: rest =>
    match Form.ofArgument text with
    | .long "help" none => some help
    | .long "version" none => some version
    | .short 'h' => some help
    | .short 'V' => some version
    | .value "help" => ofHelp rest
    | .value name => (Command.ofName? name).bind fun command => ofOptions command none none rest
    | _ => none

end Request

end FrameCode.CommandLine

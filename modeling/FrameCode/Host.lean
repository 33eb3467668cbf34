import FrameCode.Text.Lines
import FrameCode.Text.Utf8

/-! What a program runs in: lines to read and two sinks to write to. Any read and any
write may be refused, with a message that says why. -/

namespace FrameCode

/-- Lines still to be read. `refusal` decides by the number of reads before. -/
structure Input where
  lines : List String := []
  reads : Nat := 0
  refusal : Nat → Option String := fun _ => none

namespace Input

/-- The bytes up to the first line feed and with it, and the bytes behind. Where there is no line
feed these are all bytes. -/
def untilFeed : List UInt8 → List UInt8 × List UInt8
  | [] => ([], [])
  | b :: rest =>
    if b = 0x0A then ([b], rest)
    else
      let (taken, rest) := untilFeed rest
      (b :: taken, rest)

/-- Takes the next line off a byte stream and reads it as UTF-8. Every line feed ends a line: it is
dropped, and so is one carriage return right before it. Bytes that no line feed ends are a line as
they are, and where no bytes are left there is no line. -/
def nextLine? (bytes : List UInt8) : Option (String × List UInt8) :=
  let (taken, rest) := untilFeed bytes
  let line := if taken.getLast? = some 0x0A then Text.dropReturn 0x0D taken.dropLast else taken
  if taken = [] then none else some (String.ofList (Text.Utf8.decode line), rest)

/-- The lines of a byte stream, each read as UTF-8. They are what `nextLine?` takes off the bytes
one after the other, so that every line feed ends one of them. -/
def linesOfBytes (bytes : List UInt8) : List String :=
  (Text.splitLines 0x0A 0x0D bytes).map fun line => String.ofList (Text.Utf8.decode line)

def ofBytes (bytes : List UInt8) : Input := { lines := linesOfBytes bytes }

/-- The next line; none at the end of the input. A refused read takes no line. -/
def read (s : Input) : Except String (Option String) × Input :=
  match s.refusal s.reads with
  | some message => (.error message, { s with reads := s.reads + 1 })
  | none => (.ok s.lines.head?, { s with lines := s.lines.tail, reads := s.reads + 1 })

end Input

/-- What has been written. `refusal` decides by the number of writes before, the text
written so far and the new text. -/
structure Sink where
  text : String := ""
  writes : Nat := 0
  refusal : Nat → String → String → Option String := fun _ _ _ => none
  flushRefusal : Option String := none

namespace Sink

/-- A write succeeds whole or leaves the text as it is. An empty text is never
offered to the sink. -/
def write (s : Sink) (text : String) : Except String Unit × Sink :=
  if text = "" then (.ok (), s)
  else match s.refusal s.writes s.text text with
    | some message => (.error message, { s with writes := s.writes + 1 })
    | none => (.ok (), { s with text := s.text ++ text, writes := s.writes + 1 })

/-- Refuses each text that would take the sink above a number of bytes. -/
def bounded (limit : Nat) (message : String) : Sink where
  refusal := fun _ written text =>
    if limit < written.utf8ByteSize + text.utf8ByteSize then some message else none

end Sink

structure Host where
  input : Input := {}
  output : Sink := {}
  diagnostics : Sink := {}

namespace Host

/-- Flushes the output, then the diagnostics; the first refusal is the answer. -/
def flush (h : Host) : Except String Unit :=
  match h.output.flushRefusal, h.diagnostics.flushRefusal with
  | some message, _ => .error message
  | none, some message => .error message
  | none, none => .ok ()

end Host

end FrameCode

import FrameCode.Text.Blank

/-! Splitting a text into lines and a line into words. Lines are split over any
alphabet, so that the same rule reads characters and bytes. -/

namespace FrameCode.Text

/-- Puts an element in front of the first list, or alone where there is none. -/
def consFirst {α : Type} (a : α) : List (List α) → List (List α)
  | [] => [[a]]
  | first :: rest => (a :: first) :: rest

/-- Every `lf` ends a line, and one `cr` right before it goes with it. Text after
the last `lf` is a line of its own unless it is empty. -/
def splitLines {α : Type} [DecidableEq α] (lf cr : α) : List α → List (List α)
  | [] => []
  | a :: rest =>
    if a = lf then [] :: splitLines lf cr rest
    else if a = cr ∧ rest.head? = some lf then splitLines lf cr rest
    else consFirst a (splitLines lf cr rest)

/-- A line without one `cr` at its end. -/
def dropReturn {α : Type} [DecidableEq α] (cr : α) (line : List α) : List α :=
  if line.getLast? = some cr then line.dropLast else line

def lines (text : List Char) : List (List Char) := splitLines '\n' '\r' text

/-- The maximal runs of characters that are not blank. -/
def words : List Char → List (List Char)
  | [] => []
  | c :: rest =>
    if isWordBlank c then words rest
    else if rest.head?.all isWordBlank then [c] :: words rest
    else consFirst c (words rest)

end FrameCode.Text

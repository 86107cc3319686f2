import PhpInsight.Text.Blank
import PhpInsight.Text.Search

namespace PhpInsight.Text

def dropCarriageReturn (line : List Char) : List Char := (dropStop? ['\r'] line).getD line

/-- Reads the pieces between line feeds; what follows the last one is no line when it is empty. -/
def linesOfPieces : List (List Char) → List (List Char)
  | [] => []
  | [last] => if last.isEmpty then [] else [last]
  | piece :: pieces => dropCarriageReturn piece :: linesOfPieces pieces

/-- A line ends at a line feed, and a carriage return directly before it belongs to the line end.
-/
def lines (cs : List Char) : List (List Char) := linesOfPieces (splitBy (· == '\n') cs)

/-- The lines of a text with their line feeds, so that together they are the text. -/
def fullLines : List Char → List (List Char)
  | [] => []
  | c :: cs =>
    if c = '\n' then [c] :: fullLines cs
    else match fullLines cs with
      | [] => [[c]]
      | l :: ls => (c :: l) :: ls

end PhpInsight.Text

import PhpInsight.Text.Bytes

namespace PhpInsight.Completion

/-- The closing brackets that are due behind a text, the innermost first, when `due` were before. -/
def closersFrom : (due : List Char) → List Char → List Char
  | due, [] => due
  | due, c :: cs =>
    if c = '(' then closersFrom (')' :: due) cs
    else if c = '[' then closersFrom (']' :: due) cs
    else if due.head? = some c then closersFrom due.tail cs
    else closersFrom due cs

def closers (cs : List Char) : List Char := closersFrom [] cs

/-- What takes the place of an expression in a line that starts with `before`. -/
def filler (before : List Char) : List Char := "null".toList ++ closers before ++ [';']

def lastLine (cs : List Char) : List Char := (cs.reverse.takeWhile (· ≠ '\n')).reverse

/-- A text with what stands from `start` to the end of the line replaced, padded with spaces so
that later positions stay where the line is long enough. -/
def repair? (source : List Char) (start : Nat) : Option (List Char) := do
  let head ← Text.headBytes? start source
  let rest ← Text.dropBytes? start source
  let line := rest.takeWhile (· ≠ '\n')
  let tail := rest.dropWhile (· ≠ '\n')
  let replacement := filler (lastLine head)
  let padding := Text.byteLength line - Text.byteLength replacement
  return head ++ replacement ++ List.replicate padding ' ' ++ tail

end PhpInsight.Completion

import PhpInsight.Text.Bytes
import PhpInsight.Text.Lines

namespace PhpInsight.CommandLine

/-- Lines and columns count from one, columns in characters; zero means the same as one. -/
structure Location where
  file : String
  line : Nat
  column : Nat
  /-- Files and directories whose classes are known. -/
  includes : List String

namespace Location

def isLineEnd (c : Char) : Bool := c = '\n' || c = '\r'

/-- The byte offset of a location. A column behind the end of its line means that end, and the line
behind the last one means the end of the text. -/
def offset? (l : Location) (source : List Char) : Option Nat :=
  let lines := Text.fullLines source
  let n := l.line - 1
  match lines[n]? with
  | some line =>
    let before := Text.byteLength (lines.take n).flatten
    some (before + Text.byteLength ((Text.dropEnd isLineEnd line).take (l.column - 1)))
  | none => if n = lines.length then some (Text.byteLength source) else none

end Location

end PhpInsight.CommandLine

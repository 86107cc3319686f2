import PhpInsight.Text.Blank

namespace PhpInsight.CommandLine.Path

def isSlash (c : Char) : Bool := c = '/'

def join (directory name : String) : String :=
  match directory.toList.getLast? with
  | none => name
  | some c => if isSlash c then directory ++ name else directory ++ "/" ++ name

/-- The segments that lead somewhere: neither empty ones nor a dot. -/
def segments (path : String) : List String :=
  ((Text.splitBy isSlash path.toList).map String.ofList).filter fun s ↦ s ≠ "" && s ≠ "."

def name? (path : String) : Option String :=
  (segments path).getLast?.filter fun s ↦ s ≠ ".."

def extension? (path : String) : Option String := do
  let name ← name? path
  let (extension, stem) ← Text.splitFirst? (· == '.') name.toList.reverse
  guard !stem.isEmpty
  return String.ofList extension.reverse

end PhpInsight.CommandLine.Path

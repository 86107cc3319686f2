import PhpInsight.CommandLine.Run

namespace PhpInsight.CommandLine

def attempt {α : Type} (action : IO α) : IO (Option α) := do
  try return some (← action)
  catch _ => return none

def listingTo : (depth : Nat) → (path : String) → IO Listing
  | 0, _ => return .unlistable
  | depth + 1, path => do
    let some place ← attempt (IO.FS.realPath path) | return .leaf
    if !(← place.isDir) then return .leaf
    let some entries ← attempt place.readDir | return .unlistable
    let names := (entries.toList.map IO.FS.DirEntry.fileName).mergeSort
    return .directory (← names.mapM fun n ↦ return (n, ← listingTo depth (Path.join path n)))

/-- Paths are no longer than this, and each directory on them takes at least a character. -/
def maxDepth : Nat := 4096

def isRegularFile (path : String) : IO Bool := do
  let place ← IO.FS.realPath path
  match (← place.metadata).type with
  | .file => return true
  | _ => return false

def system : Host IO where
  read? path := attempt (IO.FS.readFile path)
  isFile path := return (← attempt (isRegularFile path)).getD false
  listing := listingTo maxDepth
  canonical? path := attempt (return (← IO.FS.realPath path).toString)
  openLog path := return (← attempt (IO.FS.Handle.mk path .append)).isSome
  input? := attempt (do (← IO.getStdin).readToEnd)

end PhpInsight.CommandLine

def main (args : List String) : IO UInt32 := do
  let outcome ← PhpInsight.CommandLine.run PhpInsight.CommandLine.system args
  (← IO.getStdout).putStr outcome.output
  (← IO.getStderr).putStr outcome.errors
  return outcome.code.toUInt32

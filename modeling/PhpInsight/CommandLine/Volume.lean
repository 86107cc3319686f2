import PhpInsight.CommandLine.Host

namespace PhpInsight.CommandLine

/-- A directory held in memory, on which the commands can run. It is the root of all paths. -/
structure Volume where
  /-- The files by the segments of their paths, with their texts if they are texts. -/
  files : List (List String × Option String)
  input : Option String := some ""

namespace Volume

def text? (v : Volume) (place : List String) : Option (Option String) := v.files.lookup place

def hasDirectory (v : Volume) (place : List String) : Bool :=
  place.isEmpty || v.files.any fun f ↦ place.isPrefixOf f.1 && place ≠ f.1

/-- Follows segments from a directory. Only directories can be left again or entered, and the one
above the root is nowhere. -/
def follow? (v : Volume) : (place : List String) → List String → Option (List String)
  | place, [] => some place
  | place, s :: ss =>
    if !v.hasDirectory place then none
    else if s = ".." then if place.isEmpty then none else v.follow? place.dropLast ss
    else v.follow? (place ++ [s]) ss

def endsInDirectory (path : String) : Bool :=
  match path.toList.reverse with
  | '/' :: _ => true
  | ['.'] => true
  | '.' :: '/' :: _ => true
  | _ => false

def place? (v : Volume) (path : String) : Option (List String) := do
  guard (path ≠ "" && path.toList.head? ≠ some '/')
  let place ← v.follow? [] (Path.segments path)
  guard (!endsInDirectory path || v.hasDirectory place)
  return place

def read? (v : Volume) (path : String) : Option String := do
  (← v.text? (← v.place? path))

def isFile (v : Volume) (path : String) : Bool :=
  ((v.place? path).bind v.text?).isSome

def names (files : List (List String)) : List String :=
  ((files.filterMap List.head?).foldl
    (fun seen n ↦ if seen.contains n then seen else n :: seen) []).mergeSort

def below (name : String) (files : List (List String)) : List (List String) :=
  files.filterMap fun f ↦ match f with
    | s :: ss => if s = name then some ss else none
    | [] => none

def listingOf : (depth : Nat) → List (List String) → Listing
  | 0, _ => .leaf
  | depth + 1, files =>
    if files.contains [] then .leaf
    else .directory ((names files).map fun n ↦ (n, listingOf depth (below n files)))

def pathsFrom (v : Volume) (place : List String) : List (List String) :=
  v.files.filterMap fun f ↦ if place.isPrefixOf f.1 then some (f.1.drop place.length) else none

def listing (v : Volume) (path : String) : Listing :=
  match v.place? path with
  | none => .leaf
  | some place =>
    if v.hasDirectory place then
      let paths := v.pathsFrom place
      listingOf ((paths.map List.length).foldl max 0 + 1) paths
    else .leaf

def canonical? (v : Volume) (path : String) : Option String := do
  let place ← v.place? path
  guard (v.hasDirectory place || (v.text? place).isSome)
  return "/" ++ "/".intercalate place

def openLog (v : Volume) (path : String) : Option Volume := do
  let place ← v.place? path
  guard !v.hasDirectory place
  guard (v.hasDirectory place.dropLast)
  return if (v.text? place).isSome then v else { v with files := v.files ++ [(place, some "")] }

def host : Host (StateM Volume) where
  read? path := do return (← get).read? path
  isFile path := do return (← get).isFile path
  listing path := do return (← get).listing path
  canonical? path := do return (← get).canonical? path
  openLog path := do
    match (← get).openLog path with
    | some v =>
      set v
      return true
    | none => return false
  input? := do return (← get).input

end Volume

end PhpInsight.CommandLine

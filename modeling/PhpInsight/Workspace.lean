import PhpInsight.ClassInfo.OfDeclaration
import PhpInsight.Registry
import PhpInsight.UsageCache

namespace PhpInsight

structure Workspace where
  registry : Registry := {}
  /-- Documents outside the registry, consulted after it. -/
  libraries : List Document := []

abbrev ClassKey : Type := Nat × String

abbrev ClassCache : Type := UsageCache ClassKey ClassInfo

def classKey (name : String) : String := Text.lower (withoutLeadingBackslashes name)

namespace Workspace

def generation (w : Workspace) : Nat := w.registry.generation

def documents (w : Workspace) : List Document := w.registry.documents ++ w.libraries

def locate? (w : Workspace) (name : String) : Option ClassInfo :=
  w.documents.findSome? fun d ↦ d.locate? name

/-- How many classes can be located, so that no longer path leads upwards from a class. -/
def classCount (w : Workspace) : Nat := (w.documents.flatMap Document.classes).length

def cached? (w : Workspace) (name : String) : StateM ClassCache (Option ClassInfo) := do
  let (known, cache) := (← get).get (w.generation, classKey name)
  set cache
  return known

/-- What is taken over for a name, unless it is on the path. -/
def findAncestor? (w : Workspace) (path : List String)
    (flatten : ClassInfo → StateM ClassCache ClassInfo) (name : String) :
    StateM ClassCache (Option ClassInfo) := do
  if path.contains (classKey name) then return none
  match ← w.cached? name with
  | some known => return some known
  | none =>
    match w.locate? name with
    | none => return none
    | some c => return some (← flatten c)

def inheritFrom (w : Workspace) (path : List String)
    (flatten : ClassInfo → StateM ClassCache ClassInfo) (withPrivate : Bool) (c : ClassInfo)
    (name : String) : StateM ClassCache ClassInfo := do
  match ← w.findAncestor? path flatten name with
  | some ancestor => return c.inherit ancestor withPrivate
  | none => return c

/-- A class with the members that it inherits. `visiting` are the classes on the path from which
it was reached, none of which is entered again. -/
def flattenUsing (w : Workspace) : (fuel : Nat) → (visiting : List String) → ClassInfo →
    StateM ClassCache ClassInfo
  | 0, _, c => return c
  | fuel + 1, visiting, c => do
    let path := Text.lower c.name :: visiting
    let withTraits ← c.traits.foldlM (w.inheritFrom path (flattenUsing w fuel path) true) c
    (c.parent.toList ++ c.interfaces).foldlM
      (w.inheritFrom path (flattenUsing w fuel path) false) withTraits

def flattenedUsing (w : Workspace) (c : ClassInfo) : StateM ClassCache ClassInfo :=
  w.flattenUsing (w.classCount + 1) [] c

/-- A class with all that it inherits, which is remembered under the generation of the registry.
-/
def reflect? (w : Workspace) (name : String) : StateM ClassCache (Option ClassInfo) := do
  match ← w.cached? name with
  | some c => return some c
  | none =>
    match w.locate? name with
    | none => return none
    | some c =>
      let c ← w.flattenedUsing c
      modify fun cache ↦ cache.set (w.generation, classKey name) c
      return some c

/-- Like `reflect?`, but a class that the document declares is taken from there, as it is now. -/
def reflectFrom? (w : Workspace) (d : Document) (name : String) :
    StateM ClassCache (Option ClassInfo) := do
  match d.locate? name with
  | some c => return some (← w.flattenedUsing c)
  | none => w.reflect? name

end Workspace

end PhpInsight

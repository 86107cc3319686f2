import PhpInsight.Completion.Item
import PhpInsight.Text.Lines
import PhpInsight.Text.LowerCase

namespace PhpInsight.Completion

structure Tag where
  name : List Char
  kind : ItemKind
  namespaceName : List Char

def tagKind? (text : List Char) : Option ItemKind :=
  if ["c", "class"].contains (String.ofList text) then some .class
  else if ["i", "interface"].contains (String.ofList text) then some .interface
  else none

def undoubled : List Char → List Char
  | '\\' :: '\\' :: cs => '\\' :: undoubled cs
  | c :: cs => c :: undoubled cs
  | [] => []

/-- A field without a name is a kind; the last field of a name counts. -/
def readField (found : Option ItemKind × List Char) (field : List Char) :
    Option ItemKind × List Char :=
  match Text.splitFirst? (· == ':') field with
  | none => (tagKind? field, found.2)
  | some (name, value) =>
    if String.ofList name = "kind" then (tagKind? value, found.2)
    else if String.ofList name = "namespace" then (found.1, undoubled value)
    else found

/-- A line has a name, a file and an address, then fields that say the kind and the namespace, all
separated by tabs. -/
def Tag.ofLine? (line : List Char) : Option Tag := do
  let (name, _) ← Text.splitFirst? (· == '\t') line
  let (_, fields) ← Text.splitAround? [';', '"', '\t'] line
  let (kind, space) := (Text.splitBy (· == '\t') fields).foldl readField (none, [])
  return ⟨name, ← kind, space⟩

def isHeader (line : List Char) : Bool := Text.startsWith "!_TAG_".toList line

def tagsOf (contents : List Char) : List Tag :=
  ((Text.lines contents).filter fun l ↦ !isHeader l).filterMap Tag.ofLine?

inductive TagsFile
  | missing
  /-- A file that holds no text. -/
  | unreadable
  | text (contents : List Char)

/-- The index of a project, asked only about names of some length. -/
structure TagsIndex where
  file : TagsFile
  minLength : Nat

namespace TagsIndex

def isPresent (t : TagsIndex) : Bool :=
  match t.file with
  | .missing => false
  | _ => true

def tags (t : TagsIndex) : List Tag :=
  match t.file with
  | .text contents => tagsOf contents
  | _ => []

def itemOf (t : Tag) : Item where
  label := String.ofList t.name
  kind := t.kind
  detail := some (String.ofList t.namespaceName)

def lookup (t : TagsIndex) (start : String) : List Item :=
  let start := Text.lowerCase start.toList
  (t.tags.filter fun tag ↦ Text.startsWith start (Text.lowerCase tag.name)).map itemOf

end TagsIndex

end PhpInsight.Completion

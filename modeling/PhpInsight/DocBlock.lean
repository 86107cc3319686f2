import PhpInsight.Text.Search
import PhpInsight.TypeText

namespace PhpInsight

structure DocTag where
  name : String
  body : List Char

/-- A doc comment taken apart: a summary, then tags with bodies that may run over several lines.
-/
structure DocBlock where
  /-- The lines before the first blank line or tag. -/
  summaryLines : List (List Char) := []
  inSummary : Bool := true
  tags : List DocTag := []

/-- A `@property` tag. The type and the name are empty where the tag gives none. -/
structure PropertyTag where
  typeText : String
  name : String
  description : String

namespace DocBlock

def joinLine (text line : List Char) : List Char :=
  if text.isEmpty then line else text ++ ' ' :: line

def continueLast (line : List Char) : List DocTag → List DocTag
  | [] => []
  | [t] => [{ t with body := joinLine t.body line }]
  | t :: ts => t :: continueLast line ts

def tagOf (text : List Char) : DocTag :=
  let (name, body) := (Text.splitFirst? Text.isBlank text).getD (text, [])
  ⟨String.ofList name, Text.trimChars body⟩

def addLine (b : DocBlock) : List Char → DocBlock
  | '@' :: text => { b with inSummary := false, tags := b.tags ++ [tagOf text] }
  | [] => { b with inSummary := b.inSummary && b.summaryLines.isEmpty }
  | line =>
    if !b.tags.isEmpty then { b with tags := continueLast line b.tags }
    else if b.inSummary then { b with summaryLines := b.summaryLines ++ [line] }
    else b

/-- A line without the asterisk that decorates its start. -/
def undecorated (line : List Char) : List Char :=
  match Text.trimChars line with
  | '*' :: rest => Text.trimChars rest
  | line => line

def dropStarts (start : List Char) : (fuel : List Char) → List Char → List Char
  | [], cs => cs
  | _ :: fuel, cs =>
    match Text.dropStart? start cs with
    | some rest => dropStarts start fuel rest
    | none => cs

def withoutDelimiters (comment : List Char) : List Char :=
  let text := Text.trimChars comment
  let text := dropStarts ['/', '*', '*'] text text
  (dropStarts ['/', '*'] text text.reverse).reverse

def ofComment (comment : String) : DocBlock :=
  let lines := Text.splitBy (· == '\n') (withoutDelimiters comment.toList)
  (lines.map undecorated).foldl addLine {}

def summary (b : DocBlock) : String := String.ofList (b.summaryLines.foldl joinLine [])

def bodies (b : DocBlock) (names : List String) : List (List Char) :=
  (b.tags.filter fun t ↦ names.contains t.name).map DocTag.body

def typesOf (body : List Char) : List String :=
  (TypeText.unionMembers (TypeText.splitType body).1).map String.ofList

def returnTypes (b : DocBlock) : List String := ((b.bodies ["return"]).head?.map typesOf).getD []

def varTypes (b : DocBlock) : List String := ((b.bodies ["var"]).head?.map typesOf).getD []

def paramName? (body : List Char) : Option String := do
  let word ← (Text.words (TypeText.splitType body).2).head?
  let word := dropStarts ['&'] word word
  let word := dropStarts ['.', '.', '.'] word word
  (Text.dropStart? ['$'] word).map String.ofList

/-- The types of the first `@param` tag about a variable, given without its `$`. -/
def paramTypes (b : DocBlock) (name : String) : List String :=
  (((b.bodies ["param"]).find? fun body ↦ paramName? body = some name).map typesOf).getD []

def propertyTagOf (body : List Char) : PropertyTag :=
  let (type, rest) := if body.head? = some '$' then ([], body) else TypeText.splitType body
  match Text.dropBlanks rest with
  | '$' :: named =>
    let (name, description) := (Text.splitFirst? Text.isBlank named).getD (named, [])
    ⟨String.ofList type, String.ofList name, String.ofList (Text.trimChars description)⟩
  | rest => ⟨String.ofList type, "", String.ofList (Text.trimChars rest)⟩

def propertyTags (b : DocBlock) : List PropertyTag :=
  (b.bodies ["property", "property-read", "property-write"]).map propertyTagOf

end DocBlock

end PhpInsight

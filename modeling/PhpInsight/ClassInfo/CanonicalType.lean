import PhpInsight.Document.NameResolution
import PhpInsight.TypeText

namespace PhpInsight.Document

def canonicalSimpleType (d : Document) : SimpleType → String
  | .builtin keyword => Text.lower keyword.name
  | .named n =>
    if n.isUnqualified && TypeText.isBuiltin n.last then Text.lower n.last
    else match d.resolveName? n with
      | some name => "\\" ++ name
      | none => n.display

/-- Class names get their full form behind a backslash, builtin words are lower case. -/
def canonicalTypeHint (d : Document) : TypeHint → String
  | .simple t => d.canonicalSimpleType t
  | .nullable t _ => "?" ++ d.canonicalSimpleType t
  | .union ts _ => "|".intercalate (ts.map d.canonicalSimpleType)

/-- The question marks in front of a type, blanks between them aside, and the type itself. -/
def leadingMarks : List Char → List Char × List Char
  | [] => ([], [])
  | c :: cs =>
    if c = '?' then
      let (marks, type) := leadingMarks cs
      ('?' :: marks, type)
    else if Text.isBlank c then leadingMarks cs
    else ([], c :: cs)

/-- Generic types and array shapes stay as they are written. -/
def isShape (cs : List Char) : Bool := cs.any fun c ↦ ['<', '[', '(', '\x7b', '$', ' '].contains c

/-- One type of a doc comment. -/
def canonicalDocType (d : Document) (text : String) : String :=
  let (marks, type) := leadingMarks (Text.trimChars text.toList)
  let type := String.ofList type
  let canonical :=
    if TypeText.isBuiltin type then Text.lower type
    else if isShape type.toList then type
    else match d.resolveText? type with
      | some name => "\\" ++ name
      | none => type
  String.ofList marks ++ canonical

def canonicalDocTypes (d : Document) (types : List String) : List String :=
  (types.flatMap TypeText.splitUnion).map d.canonicalDocType

end PhpInsight.Document

import PhpInsight.ClassInfo.CanonicalType
import PhpInsight.ClassInfo

namespace PhpInsight

inductive InferredType
  /-- A fully qualified name without a leading backslash. -/
  | «class» (name : String)
  | scalar (s : Scalar)
  /-- Several types, each a class name or a builtin word. -/
  | union (members : List String)
  | unresolved
  deriving DecidableEq, Inhabited

namespace InferredType

def className? : InferredType → Option String
  | «class» name => some name
  | _ => none

def isResolved : InferredType → Bool
  | unresolved => false
  | _ => true

def display : InferredType → String
  | «class» name => name
  | scalar s => s.display
  | union members => "|".intercalate members
  | unresolved => "unresolved"

def ofClass? : Option String → InferredType
  | some name => .class name
  | none => unresolved

def distinct (members : List String) : List String :=
  members.foldl (fun seen m ↦ if seen.contains m then seen else seen ++ [m]) []

/-- The union of types given by their rendering. -/
def ofMembers (members : List String) : InferredType :=
  match distinct members with
  | [] => unresolved
  | [m] => match Scalar.ofText? m with
    | some s => scalar s
    | none => .class m
  | ms => union ms

end InferredType

open InferredType

namespace Document

def classNameType (d : Document) (n : Name) : InferredType := .ofClass? (d.resolveName? n)

def simpleTypeOf (d : Document) : SimpleType → InferredType
  | .builtin keyword => match Scalar.ofText? keyword.name with
    | some s => .scalar s
    | none => .unresolved
  | .named n => d.classNameType n

/-- What a member adds to a union. Builtin words that are no scalars stay as words. -/
def unionMemberOf? (d : Document) (t : SimpleType) : Option String :=
  match d.simpleTypeOf t, t with
  | .unresolved, .builtin keyword => some (Text.lower keyword.name)
  | .unresolved, .named _ => none
  | type, _ => some type.display

def typeHintType (d : Document) : TypeHint → InferredType
  | .simple t => d.simpleTypeOf t
  | .nullable t _ => d.simpleTypeOf t
  | .union ts _ => ofMembers (ts.filterMap d.unionMemberOf?)

end Document

namespace ClassInfo

def isArrayShape (lower : List Char) : Bool :=
  lower.reverse.take 2 = [']', '['] ||
    ["array<", "array\x7b", "list<"].any fun s ↦ Text.startsWith s.toList lower

def singleType (c : ClassInfo) (text : String) : InferredType :=
  let lower := Text.lower text
  if text.isEmpty then .unresolved
  else if ["self", "static", "$this", "this"].contains lower then .class c.name
  else if lower = "parent" then .ofClass? c.parent
  else match Scalar.ofText? lower with
    | some s => .scalar s
    | none =>
      if isArrayShape lower.toList then .scalar .array
      else if TypeText.isBuiltin lower ||
          text.toList.any fun ch ↦ ['<', '(', '\x7b', '$', ' '].contains ch then .unresolved
      else .ofClass? (c.origin.resolveText? text)

/-- A trimmed type text without a question mark before it. -/
def withoutMark (text : String) : String :=
  match Text.trimChars text.toList with
  | '?' :: rest => String.ofList rest
  | rest => String.ofList rest

def memberType (c : ClassInfo) (text : String) : InferredType := c.singleType (withoutMark text)

def unionMember? (c : ClassInfo) (text : String) : Option String :=
  match c.memberType text with
  | .unresolved => if TypeText.isBuiltin text then some (Text.lower text) else none
  | type => some type.display

/-- The meaning of a type text of the class. A union of which one member is left means what that
member means. -/
def typeOfText (c : ClassInfo) (text : String) : InferredType :=
  let text := withoutMark text
  let members := TypeText.splitUnion text
  if members.length ≤ 1 then c.singleType text
  else match members.filterMap c.unionMember? with
    | [m] => c.memberType m
    | ms => ofMembers ms

end ClassInfo

end PhpInsight

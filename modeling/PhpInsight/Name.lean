import PhpInsight.Span
import PhpInsight.Text.Blank

namespace PhpInsight

inductive NameKind
  | unqualified
  | qualified
  /-- Written with a leading backslash. -/
  | fullyQualified
  deriving DecidableEq, Inhabited

/-- A class, function or constant name: segments separated by backslashes. -/
structure Name where
  parts : List String
  kind : NameKind
  span : Span
  deriving DecidableEq, Inhabited

namespace Name

def kindOf (fullyQualified : Bool) (parts : List String) : NameKind :=
  if fullyQualified then .fullyQualified
  else if parts.length ≤ 1 then .unqualified
  else .qualified

def ofParts (fullyQualified : Bool) (parts : List String) (span : Span) : Name :=
  ⟨parts, kindOf fullyQualified parts, span⟩

/-- Reads a name from text. Empty segments are dropped; a text without any other is no name. -/
def parse? (text : String) (span : Span) : Option Name :=
  let trimmed := Text.trimChars text.toList
  let (fullyQualified, body) := match trimmed with
    | '\\' :: body => (true, body)
    | body => (false, body)
  let parts := ((Text.splitBy (· == '\\') body).filter (!·.isEmpty)).map String.ofList
  if parts.isEmpty then none else some (ofParts fullyQualified parts span)

def first (n : Name) : String := n.parts.headD ""

def last (n : Name) : String := n.parts.getLastD ""

def isUnqualified (n : Name) : Bool := n.kind = .unqualified

def isFullyQualified (n : Name) : Bool := n.kind = .fullyQualified

def joined (n : Name) : String := "\\".intercalate n.parts

def display (n : Name) : String :=
  if n.isFullyQualified then "\\" ++ n.joined else n.joined

end Name

end PhpInsight

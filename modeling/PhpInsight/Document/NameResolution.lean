import PhpInsight.Document.Declaration

namespace PhpInsight.Document

def isKeyword (n : Name) (keyword : String) : Bool :=
  n.isUnqualified && Text.sameIgnoringCase n.last keyword

/-- Of several imports under one name the last one counts. -/
def import? (d : Document) (localName : String) : Option UseItem :=
  d.imports.reverse.find? fun u ↦ Text.sameIgnoringCase u.localName localName

/-- The class that a name means if it is none of the keywords. The first segment may be an import;
a name without segments otherwise belongs to the namespace of the file. -/
def qualify (d : Document) (n : Name) : String :=
  if n.isFullyQualified then n.joined
  else match d.import? n.first with
    | some u =>
      if n.isUnqualified then u.name.joined
      else "\\".intercalate (u.name.parts ++ n.parts.drop 1)
    | none =>
      if n.isUnqualified then
        match d.namespaceName with
        | some space => space ++ "\\" ++ n.last
        | none => n.last
      else n.joined

def isClassKeyword (n : Name) : Bool :=
  isKeyword n "self" || isKeyword n "static" || isKeyword n "parent"

def parentName? (d : Document) : Option String := do
  let c ← d.class?
  guard (c.kind = .class)
  let parent ← c.parents.head?
  guard !isClassKeyword parent
  return d.qualify parent

/-- The fully qualified name of the class that a name means, without a leading backslash. -/
def resolveName? (d : Document) (n : Name) : Option String :=
  if isKeyword n "self" || isKeyword n "static" then d.className?
  else if isKeyword n "parent" then d.parentName?
  else some (d.qualify n)

def resolveText? (d : Document) (text : String) : Option String :=
  (Name.parse? text default).bind d.resolveName?

end PhpInsight.Document

import PhpInsight.DocBlock
import PhpInsight.Document.Declaration

namespace PhpInsight

structure ParamInfo where
  name : String
  type : Option String
  docTypes : List String
  byRef : Bool
  variadic : Bool
  hasDefault : Bool

structure MethodInfo where
  name : String
  modifiers : Modifiers
  params : List ParamInfo
  returnType : Option String
  docReturnTypes : List String
  doc : Option String
  declaringClass : String

structure PropertyInfo where
  name : String
  modifiers : Modifiers
  type : Option String
  docTypes : List String
  doc : Option String
  declaringClass : String

structure ConstantInfo where
  name : String
  modifiers : Modifiers
  doc : Option String
  declaringClass : String

/-- What is known about a class, its own members or all that it has. Types of members are texts
that mean the same in every document, up to `self`, `static` and `parent`. -/
structure ClassInfo where
  /-- Fully qualified, without a leading backslash, as all class names here. -/
  name : String
  kind : ClassKind
  modifiers : Modifiers
  parent : Option String
  interfaces : List String
  traits : List String
  doc : Option String
  methods : List MethodInfo
  properties : List PropertyInfo
  constants : List ConstantInfo
  /-- The document that declares the class. -/
  origin : Document

def MethodInfo.isConstructor (m : MethodInfo) : Bool :=
  Text.sameIgnoringCase m.name ClassDecl.constructorName

/-- The declared type, when it is neither nullable nor a union. -/
def PropertyInfo.simpleType? (p : PropertyInfo) : Option String :=
  p.type.filter fun t ↦ t.toList.head? ≠ some '?' && !t.toList.contains '|'

namespace ClassInfo

def method? (c : ClassInfo) (name : String) : Option MethodInfo :=
  c.methods.find? fun m ↦ Text.sameIgnoringCase m.name name

def property? (c : ClassInfo) (name : String) : Option PropertyInfo :=
  c.properties.find? fun p ↦ p.name = name

def constant? (c : ClassInfo) (name : String) : Option ConstantInfo :=
  c.constants.find? fun k ↦ k.name = name

def propertyTags (c : ClassInfo) : List PropertyTag :=
  (c.doc.map fun doc ↦ (DocBlock.ofComment doc).propertyTags).getD []

/-- Adds what is visible of `inherited` and does not clash with a member already there. -/
def inheritMembers {α : Type} (clash : α → α → Bool) (visible : α → Bool) (own inherited : List α) :
    List α :=
  inherited.foldl (fun all m ↦ if visible m && !all.any (clash m) then all ++ [m] else all) own

/-- A class with the members that it takes from another one. Private members come from traits
only, whose code becomes part of the class. -/
def inherit (c ancestor : ClassInfo) (withPrivate : Bool) : ClassInfo :=
  let visible (m : Modifiers) : Bool := withPrivate || m.visibility ≠ .private
  { c with
    methods := inheritMembers (fun m n ↦ Text.sameIgnoringCase n.name m.name)
      (fun m ↦ visible m.modifiers) c.methods ancestor.methods
    properties := inheritMembers (fun p q ↦ q.name = p.name) (fun p ↦ visible p.modifiers)
      c.properties ancestor.properties
    constants := inheritMembers (fun p q ↦ q.name = p.name) (fun p ↦ visible p.modifiers)
      c.constants ancestor.constants }

end ClassInfo

end PhpInsight

import PhpInsight.Document
import PhpInsight.Text.AsciiCase

namespace PhpInsight

structure DeclaredClass where
  namespaceName : Option Name
  decl : ClassDecl

def DeclaredClass.name (c : DeclaredClass) : String :=
  match c.namespaceName with
  | some n => n.joined ++ "\\" ++ c.decl.name.name
  | none => c.decl.name.name

namespace ClassDecl

def methods (c : ClassDecl) : List MethodDecl :=
  c.members.filterMap fun m ↦ match m.kind with
    | .method d => some d
    | _ => none

def method? (c : ClassDecl) (name : String) : Option MethodDecl :=
  c.methods.find? fun m ↦ Text.sameIgnoringCase m.name.name name

def constructorName : String := "__construct"

def constructor? (c : ClassDecl) : Option MethodDecl := c.method? constructorName

end ClassDecl

inductive DeclaredProperty
  | declared (member : Member) (modifiers : Modifiers) (typeHint : Option TypeHint)
      (item : PropertyItem)
  | promoted (param : Param) (modifiers : Modifiers)

namespace DeclaredProperty

def name : DeclaredProperty → String
  | declared _ _ _ item => item.name.name
  | promoted param _ => param.name.name

def typeHint : DeclaredProperty → Option TypeHint
  | declared _ _ hint _ => hint
  | promoted param _ => param.typeHint

def modifiers : DeclaredProperty → Modifiers
  | declared _ ms _ _ => ms
  | promoted _ ms => ms

def doc : DeclaredProperty → Option String
  | declared member _ _ _ => member.doc
  | promoted _ _ => none

def ofMember (m : Member) : List DeclaredProperty :=
  match m.kind with
  | .property ms hint items => items.map (declared m ms hint)
  | .method d =>
    if Text.sameIgnoringCase d.name.name ClassDecl.constructorName then
      d.params.filterMap fun p ↦ p.promoted.map (promoted p)
    else []
  | _ => []

end DeclaredProperty

def ClassDecl.properties (c : ClassDecl) : List DeclaredProperty :=
  c.members.flatMap DeclaredProperty.ofMember

namespace Document

def namespaceName (d : Document) : Option String :=
  d.statements.findSome? fun s ↦ match s.kind with
    | .namespace (some n) _ => some n.joined
    | _ => none

mutual

def importsOf : Stmt → List UseItem
  | ⟨.use .normal items, _⟩ => items
  | ⟨.namespace _ (some body), _⟩ => importsOfAll body
  | _ => []

def importsOfAll : List Stmt → List UseItem
  | [] => []
  | s :: ss => importsOf s ++ importsOfAll ss

end

def imports (d : Document) : List UseItem := importsOfAll d.statements

def classesOf (namespaceName : Option Name) (body : List Stmt) : List DeclaredClass :=
  body.filterMap fun s ↦ match s.kind with
    | .classLike c => some ⟨namespaceName, c⟩
    | _ => none

/-- The classes of some statements; `current` is the namespace opened last. -/
def classesFrom (current : Option Name) : List Stmt → List DeclaredClass
  | [] => []
  | s :: ss =>
    match s.kind with
    | .namespace n none => classesFrom n ss
    | .namespace n (some body) => classesOf n body ++ classesFrom current ss
    | .classLike c => ⟨current, c⟩ :: classesFrom current ss
    | _ => classesFrom current ss

def classes (d : Document) : List DeclaredClass := classesFrom none d.statements

def class? (d : Document) : Option ClassDecl := d.classes.head?.map DeclaredClass.decl

def className? (d : Document) : Option String := d.classes.head?.map DeclaredClass.name

def constructor? (d : Document) : Option MethodDecl := d.class?.bind ClassDecl.constructor?

def property? (d : Document) (name : String) : Option DeclaredProperty :=
  d.class?.bind fun c ↦ c.properties.find? fun p ↦ p.name = name

end Document

end PhpInsight

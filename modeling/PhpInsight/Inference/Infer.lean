import PhpInsight.Inference.InferredType
import PhpInsight.Workspace

namespace PhpInsight

namespace Expr

def variableName? (e : Expr) : Option String :=
  match e.kind with
  | .variable name => some name
  | _ => none

end Expr

namespace Node

def binds (name : String) : Node → Bool
  | .expr ⟨.assign target _ _, _⟩ => target.variableName? = some name
  | .param p => p.name.name = name
  | _ => false

/-- The last of the nodes that reach furthest. -/
def lastReaching : List Node → Option Node
  | [] => none
  | n :: ns => match lastReaching ns with
    | some m => if m.span.stop < n.span.stop then some n else some m
    | none => some n

end Node

namespace Document

/-- What binds a variable for a reference: the nearest binding that ends no later than the
reference and does not contain it. -/
def bindingOf (d : Document) (name : String) (reference : Span) : Option Node :=
  Node.lastReaching <| d.nodes.filter fun n ↦
    n.binds name && n.span.stop ≤ reference.stop && !n.span.encloses reference

end Document

def Stmt.assignedToThis? (property : String) (s : Stmt) : Option Expr :=
  match s.kind with
  | .expression ⟨.assign ⟨.propertyFetch receiver name _, _⟩ value _, _⟩ =>
    if receiver.variableName? = some "this" && name.name = property then some value else none
  | _ => none

abbrev Infer (α : Type) : Type := StateM ClassCache α

namespace Workspace

variable (w : Workspace)

def receiverClass? (d : Document) (receiver : InferredType) : Infer (Option ClassInfo) := do
  match receiver.className? with
  | some name => w.reflectFrom? d name
  | none => return none

def returnType (d : Document) (receiver : InferredType) (method : String) :
    Infer InferredType := do
  let some c ← w.receiverClass? d receiver | return .unresolved
  let some m := c.method? method | return .unresolved
  return c.typeOfText (m.returnType.getD ("|".intercalate m.docReturnTypes))

def firstResolved (types : List InferredType) : InferredType :=
  (types.find? InferredType.isResolved).getD .unresolved

/-- What the declaration of a property says about its type: a simple declared type, the last type
of its doc comment, or a tag of its class. -/
def declaredPropertyType (c : ClassInfo) (name : String) : InferredType :=
  let property := c.property? name
  let declared := property.bind PropertyInfo.simpleType?
  let documented := property.bind fun p ↦ p.docTypes.getLast?
  let tag := c.propertyTags.find? fun t ↦ t.name = name && !t.typeText.isEmpty
  let tagged := tag.map fun t ↦
    "|".intercalate ((TypeText.splitUnion t.typeText).map c.origin.canonicalDocType)
  firstResolved ((declared.toList ++ documented.toList ++ tagged.toList).map c.typeOfText)

/-- What the constructor of a class assigns to a property, with the document that says so. -/
def constructorValue? (d : Document) (c : ClassInfo) (property : String) :
    Infer (Option (Document × Expr)) := do
  let some m := c.method? ClassDecl.constructorName | return none
  let owner ←
    if m.declaringClass = c.name then pure (some c.origin)
    else pure ((← w.reflectFrom? d m.declaringClass).map ClassInfo.origin)
  let some owner := owner | return none
  let found := owner.classes.find? fun k ↦ Text.sameIgnoringCase k.name m.declaringClass
  let body := (found.bind fun k ↦ k.decl.constructor?).bind MethodDecl.body
  return (body.bind fun ss ↦ ss.findSome? (Stmt.assignedToThis? property)).map (owner, ·)

/-- The type of an expression. Each expression that has to be looked into on the way takes one
of `depth`. -/
def exprType : (depth : Nat) → Document → Expr → Infer InferredType
  | 0, _, _ => return .unresolved
  | depth + 1, d, e =>
    let classRefType : ClassRef → Infer InferredType
      | .named n => return d.classNameType n
      | .dynamic e => exprType depth d e
    match e.kind with
    | .variable "this" => return .ofClass? d.className?
    | .variable name =>
      match d.bindingOf name e.span with
      | some (.expr b) => exprType depth d b
      | some (.param p) => return (p.typeHint.map d.typeHintType).getD .unresolved
      | _ => return .unresolved
    | .staticPropertyFetch c _ | .classConstFetch c _ | .staticCall c _ _ | .new c _ =>
      classRefType c
    | .assign _ value _ => exprType depth d value
    | .methodCall receiver name _ _ => do
      w.returnType d (← exprType depth d receiver) name.name
    | .propertyFetch receiver name _ => do
      let some c ← w.receiverClass? d (← exprType depth d receiver) | return .unresolved
      let declared := declaredPropertyType c name.name
      if declared.isResolved then return declared
      match ← w.constructorValue? d c name.name with
      | some (owner, value) => exprType depth owner value
      | none => return .unresolved
    | _ => return .unresolved

/-- The type of a node as seen from a document, to whose tree the node need not belong. -/
def nodeType (depth : Nat) (d : Document) : Node → Infer InferredType
  | .expr e => w.exprType depth d e
  | .name n => return d.classNameType n
  | .type t => return d.typeHintType t
  | .param p => return (p.typeHint.map d.typeHintType).getD .unresolved
  | .stmt _ | .member _ => return .unresolved

/-- Constructors may assign to a property what is computed from the property itself. -/
def maxDepth : Nat := 32

/-- A variable has the type of what last binds it before the reference, members the type of their
declaration. Nothing is known about control flow. -/
def infer (d : Document) (n : Node) : Infer InferredType := w.nodeType maxDepth d n

end Workspace

end PhpInsight

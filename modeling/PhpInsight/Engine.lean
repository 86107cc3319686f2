import PhpInsight.Completion.Provider
import PhpInsight.Completion.Repair
import PhpInsight.Grammar.Target
import PhpInsight.Inference.Infer

namespace PhpInsight

/-- What tells the nodes of all parses apart: the generation of the registry, the document, the
kind of the node and its span. -/
structure TypeKey where
  generation : Nat
  document : Nat
  kind : NodeKind
  span : Span
  deriving DecidableEq

abbrev TypeCache : Type := UsageCache TypeKey InferredType

/-- The services over the open documents, with everything they remember between questions. -/
structure Engine where
  workspace : Workspace := {}
  classes : ClassCache := {}
  types : TypeCache := {}
  tags : Option Completion.TagsIndex := none
  /-- The identity of the next document. -/
  nextId : Nat := 0

namespace Engine

def parse (uri : String) (source : List Char) (version : Int) :
    StateM Engine (Except SyntaxError Document) := do
  let e ← get
  match Document.parse e.nextId uri source version with
  | .ok d =>
    set { e with nextId := e.nextId + 1 }
    return .ok d
  | .error err => return .error err

def add (d : Document) : StateM Engine Unit :=
  modify fun e ↦ { e with workspace := { e.workspace with registry := e.workspace.registry.add d } }

def clear : StateM Engine Unit :=
  modify fun e ↦ { e with workspace := { e.workspace with registry := e.workspace.registry.clear } }

def withClasses {α : Type} (ask : Workspace → StateM ClassCache α) : StateM Engine α := do
  let e ← get
  let (a, classes) := (ask e.workspace).run e.classes
  set { e with classes := classes }
  return a

def reflect? (name : String) : StateM Engine (Option ClassInfo) :=
  withClasses fun w ↦ w.reflect? name

def reflectFrom? (d : Document) (name : String) : StateM Engine (Option ClassInfo) :=
  withClasses fun w ↦ w.reflectFrom? d name

def infer (d : Document) (n : Node) : StateM Engine InferredType :=
  withClasses fun w ↦ w.infer d n

def typeKey (e : Engine) (d : Document) (n : Node) : TypeKey :=
  ⟨e.workspace.generation, d.id, n.kind, n.span⟩

/-- Like `infer`, for a node of the document's own tree; the answer is remembered. -/
def resolve (d : Document) (n : Node) : StateM Engine InferredType := do
  let e ← get
  let key := e.typeKey d n
  let (known, types) := e.types.get key
  match known with
  | some type =>
    set { e with types := types }
    return type
  | none =>
    let type ← infer d n
    modify fun e ↦ { e with types := e.types.set key type }
    return type

def typeAt (d : Document) (offset : Nat) : StateM Engine InferredType :=
  match d.exprAt offset with
  | some x => resolve d (.expr x)
  | none => return .unresolved

def cleanCache : StateM Engine Nat := do
  let e ← get
  let (m, types) := e.types.clean
  let (n, classes) := e.classes.clean
  set { e with types := types, classes := classes }
  return m + n

def receiverType (d : Document) (target : Expr) : StateM Engine InferredType :=
  match Completion.instanceReceiver? target, Completion.staticClass? target with
  | some receiver, _ => infer d (.expr receiver)
  | none, some _ => infer d (.expr target)
  | none, none => return .unresolved

def completeIn (d : Document) (target : Expr) : StateM Engine (List Completion.Item) := do
  let receiver ← match (← receiverType d target).className? with
    | some name => reflectFrom? d name
    | none => pure none
  return Completion.completeWith (Completion.Provider.all (← get).tags) ⟨d, target, receiver⟩

/-- The document to complete in: the text itself, or the repaired text, or what is registered
under the URI, or else an empty file. -/
def documentFor (uri : String) (source : List Char) (target : Expr) :
    StateM Engine (Option Document) := do
  if let .ok d ← parse uri source 0 then return some d
  if let some repaired := Completion.repair? source target.span.start then
    if let .ok d ← parse uri repaired 0 then return some d
  if let some d := (← get).workspace.registry.get? uri then return some d
  return (← parse uri "<?php\n".toList 0).toOption

/-- Items for the expression that ends at a cursor in a text, which need not parse. -/
def complete (uri : String) (source : List Char) (cursor : Nat) :
    StateM Engine (List Completion.Item) := do
  match Grammar.completionTarget source cursor with
  | none => return []
  | some target =>
    match ← documentFor uri source target with
    | some d => completeIn d target
    | none => return []

end Engine

end PhpInsight

import PhpInsight.ClassInfo
import PhpInsight.ClassInfo.CanonicalType

namespace PhpInsight

def ParamInfo.ofParam (d : Document) (doc : Option DocBlock) (p : Param) : ParamInfo where
  name := p.name.name
  type := p.typeHint.map d.canonicalTypeHint
  docTypes := (doc.map fun b ↦ d.canonicalDocTypes (b.paramTypes p.name.name)).getD []
  byRef := p.byRef
  variadic := p.variadic
  hasDefault := p.default.isSome

def MethodInfo.ofMethod (d : Document) (owner : String) (doc : Option String) (m : MethodDecl) :
    MethodInfo :=
  let block := doc.map DocBlock.ofComment
  { name := m.name.name
    modifiers := m.modifiers
    params := m.params.map (ParamInfo.ofParam d block)
    returnType := m.returnType.map d.canonicalTypeHint
    docReturnTypes := (block.map fun b ↦ d.canonicalDocTypes b.returnTypes).getD []
    doc := doc
    declaringClass := owner }

namespace ClassInfo

def methodsOf (d : Document) (owner : String) (m : Member) : List MethodInfo :=
  match m.kind with
  | .method decl => [.ofMethod d owner m.doc decl]
  | _ => []

def propertiesOf (d : Document) (owner : String) (m : Member) : List PropertyInfo :=
  match m.kind with
  | .property ms hint items =>
    let docTypes := (m.doc.map fun c ↦
      d.canonicalDocTypes (DocBlock.ofComment c).varTypes).getD []
    items.map fun i ↦ {
      name := i.name.name
      modifiers := ms
      type := hint.map d.canonicalTypeHint
      docTypes := docTypes
      doc := m.doc
      declaringClass := owner }
  | _ => []

def constantsOf (owner : String) (m : Member) : List ConstantInfo :=
  match m.kind with
  | .constant ms items => items.map fun i ↦ ⟨i.name.name, ms, m.doc, owner⟩
  | _ => []

def traitsOf (d : Document) (m : Member) : List String :=
  match m.kind with
  | .traitUse names => names.filterMap d.resolveName?
  | _ => []

def promotedOf (owner : String) (decl : ClassDecl) (methods : List MethodInfo) :
    List PropertyInfo :=
  match decl.constructor?, methods.find? MethodInfo.isConstructor with
  | some m, some info =>
    (m.params.zip info.params).filterMap fun (p, info) ↦ p.promoted.map fun ms ↦ {
      name := p.name.name
      modifiers := ms
      type := info.type
      docTypes := info.docTypes
      doc := none
      declaringClass := owner }
  | _, _ => []

def ofDeclaration (d : Document) (c : DeclaredClass) : ClassInfo :=
  let owner := c.name
  let decl := c.decl
  let methods := decl.members.flatMap (methodsOf d owner)
  let properties := decl.members.flatMap (propertiesOf d owner)
  { name := owner
    kind := decl.kind
    modifiers := decl.modifiers
    parent := match decl.kind with
      | .class => decl.parents.head?.bind d.resolveName?
      | _ => none
    interfaces := match decl.kind with
      | .class => decl.interfaces.filterMap d.resolveName?
      | .interface => decl.parents.filterMap d.resolveName?
      | .trait => []
    traits := decl.members.flatMap (traitsOf d)
    doc := decl.doc
    methods := methods
    properties := inheritMembers (fun p q ↦ q.name = p.name) (fun _ ↦ true) properties
      (promotedOf owner decl methods)
    constants := decl.members.flatMap (constantsOf owner)
    origin := d }

end ClassInfo

def withoutLeadingBackslashes (name : String) : String :=
  String.ofList (name.toList.dropWhile (· = '\\'))

/-- The class of a document with a name, whose case does not matter. -/
def Document.locate? (d : Document) (name : String) : Option ClassInfo :=
  let wanted := withoutLeadingBackslashes name
  (d.classes.find? fun c ↦ Text.sameIgnoringCase c.name wanted).map (ClassInfo.ofDeclaration d)

end PhpInsight

import PhpInsight.ClassInfo
import PhpInsight.Completion.Tags

namespace PhpInsight.Completion

structure Request where
  document : Document
  target : Expr
  /-- The class of whose members a choice is offered. -/
  receiver : Option ClassInfo

def staticClass? (target : Expr) : Option ClassRef :=
  match target.kind with
  | .classConstFetch c _ | .staticPropertyFetch c _ => some c
  | _ => none

/-- Behind `::` a method or a constant may follow; behind `::$` only a static property. -/
def isStaticMember (target : Expr) : Bool :=
  match target.kind with
  | .classConstFetch _ _ => true
  | _ => false

def instanceReceiver? (target : Expr) : Option Expr :=
  match target.kind with
  | .propertyFetch receiver _ _ => some receiver
  | _ => none

inductive StaticScope
  | all
  | inherited
  | «public»
  deriving DecidableEq, Inhabited

namespace StaticScope

def admits (s : StaticScope) (v : Visibility) : Bool :=
  match s with
  | .all => true
  | .inherited => v ≠ .private
  | .public => v = .public

/-- The class of the document sees all its members; of any other class only the public ones. -/
def ofReceiver (r : Request) : StaticScope :=
  match r.receiver, r.document.className? with
  | some c, some own => if Text.sameIgnoringCase c.name own then .all else .public
  | _, _ => .public

def ofClassRef (r : Request) : ClassRef → StaticScope
  | .named n =>
    if n.isUnqualified then
      let word := Text.lower n.last
      if word = "self" || word = "static" then .all
      else if word = "parent" then .inherited
      else ofReceiver r
    else ofReceiver r
  | .dynamic _ => ofReceiver r

def of? (r : Request) : Option StaticScope := (staticClass? r.target).map (ofClassRef r)

end StaticScope

/-- A type as it is shown, class names without the leading backslash. -/
def displayType (text : String) : String :=
  let member : List Char → List Char
    | '?' :: cs => '?' :: cs.dropWhile (· = '\\')
    | cs => cs.dropWhile (· = '\\')
  let members := (Text.splitBy (· == '|') text.toList).map member
  String.ofList (List.intercalate ['|'] members)

/-- The declared type, or else the documented ones, or else `mixed`. -/
def displayTypes (declared : Option String) (documented : List String) : String :=
  match declared with
  | some type => displayType type
  | none => if documented.isEmpty then "mixed" else displayType ("|".intercalate documented)

def displayParam (p : ParamInfo) : String :=
  let type :=
    if p.type.isNone && p.docTypes.isEmpty then "" else displayTypes p.type p.docTypes ++ " "
  type ++ (if p.variadic then "..." else "") ++ "$" ++ p.name

def displayModifiers (m : Modifiers) : String :=
  " ".intercalate <|
    (if m.isAbstract then ["abstract"] else []) ++ (if m.isFinal then ["final"] else []) ++
      [m.visibility.display] ++ (if m.isStatic then ["static"] else [])

def signature (m : MethodInfo) : String :=
  displayModifiers m.modifiers ++ " " ++ m.name ++ "(" ++
    ", ".intercalate (m.params.map displayParam) ++ "): " ++
    displayTypes m.returnType m.docReturnTypes

def methodItem (m : MethodInfo) : Item where
  label := m.name
  kind := .method
  detail := some (signature m)
  documentation := m.doc
  insertText := some m.name

def propertyItem (p : PropertyInfo) : Item where
  label := p.name
  kind := .property
  detail := some (displayTypes p.type p.docTypes)
  documentation := p.doc

def constantItem (c : ConstantInfo) : Item where
  label := c.name
  kind := .constant
  detail := some c.declaringClass
  documentation := c.doc

def tagItem (t : PropertyTag) : Item where
  label := t.name
  kind := .property
  detail := some t.typeText
  documentation := some t.description

/-- A provider decides from the shape of the expression whether it has something to say, and then
offers members of the receiver that fit. -/
inductive Provider
  | instanceMethod | instanceProperty | propertyDocTag
  | staticMethod | staticProperty | classConstant
  /-- Class names from the tags index of the project, if it has one. -/
  | tags (index : Option TagsIndex)

namespace Provider

def name : Provider → String
  | instanceMethod => "instance-method"
  | instanceProperty => "instance-property"
  | propertyDocTag => "property-doc-tag"
  | staticMethod => "static-method"
  | staticProperty => "static-property"
  | classConstant => "class-constant"
  | tags _ => "ctags"

def typedName? (target : Expr) : Option Name :=
  match target.kind with
  | .constFetch n => some n
  | _ => none

def supports (p : Provider) (target : Expr) : Bool :=
  match p with
  | instanceMethod | instanceProperty | propertyDocTag => (instanceReceiver? target).isSome
  | staticMethod | classConstant => isStaticMember target
  | staticProperty => (staticClass? target).isSome
  | tags index =>
    match index, typedName? target with
    | some t, some n => t.minLength ≤ n.last.length && t.isPresent
    | _, _ => false

/-- Offers for every member of the receiver that passes a test on the scope of the access. -/
def inScope {α : Type} (r : Request) (members : ClassInfo → List α)
    (admitted : StaticScope → α → Bool) (item : α → Item) : List Item :=
  match r.receiver, StaticScope.of? r with
  | some c, some s => ((members c).filter (admitted s)).map item
  | _, _ => []

def complete (p : Provider) (r : Request) : List Item :=
  let ofReceiver (items : ClassInfo → List Item) : List Item := (r.receiver.map items).getD []
  match p with
  | instanceMethod => ofReceiver fun c ↦
      (c.methods.filter fun m ↦ !m.isConstructor && !m.modifiers.isStatic).map methodItem
  | instanceProperty => ofReceiver fun c ↦
      (c.properties.filter fun p ↦ !p.modifiers.isStatic).map propertyItem
  | propertyDocTag => ofReceiver fun c ↦ c.propertyTags.map tagItem
  | staticMethod => inScope r ClassInfo.methods
      (fun s m ↦ !m.isConstructor && m.modifiers.isStatic && s.admits m.modifiers.visibility)
      methodItem
  | staticProperty => inScope r ClassInfo.properties
      (fun s p ↦ p.modifiers.isStatic && s.admits p.modifiers.visibility) propertyItem
  | classConstant => inScope r ClassInfo.constants
      (fun s c ↦ s.admits c.modifiers.visibility) constantItem
  | tags index =>
    match index, typedName? r.target with
    | some t, some n => t.lookup n.last
    | _, _ => []

def all (index : Option TagsIndex) : List Provider :=
  [instanceMethod, instanceProperty, propertyDocTag, staticMethod, staticProperty, classConstant,
    tags index]

end Provider

def completeWith (providers : List Provider) (r : Request) : List Item :=
  (providers.filter fun p ↦ p.supports r.target).flatMap fun p ↦ p.complete r

end PhpInsight.Completion

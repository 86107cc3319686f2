import PhpInsight.Name

namespace PhpInsight

/-- A name without segments. Variables are stored without their `$`, which the span includes. -/
structure Identifier where
  name : String
  span : Span
  deriving DecidableEq, Inhabited

inductive SimpleType
  /-- A type keyword such as `int` or `mixed`. -/
  | builtin (keyword : Identifier)
  | named (name : Name)
  deriving DecidableEq, Inhabited

inductive TypeHint
  | simple (type : SimpleType)
  | nullable (inner : SimpleType) (span : Span)
  | union (members : List SimpleType) (span : Span)
  deriving DecidableEq, Inhabited

def SimpleType.span : SimpleType → Span
  | builtin keyword => keyword.span
  | named name => name.span

def SimpleType.display : SimpleType → String
  | builtin keyword => keyword.name
  | named name => name.display

def TypeHint.span : TypeHint → Span
  | simple type => type.span
  | nullable _ span => span
  | union _ span => span

def TypeHint.display : TypeHint → String
  | simple type => type.display
  | nullable inner _ => "?" ++ inner.display
  | union members _ => "|".intercalate (members.map SimpleType.display)

inductive Visibility
  | «public»
  | «protected»
  | «private»
  deriving DecidableEq, Inhabited

def Visibility.display : Visibility → String
  | .public => "public"
  | .protected => "protected"
  | .private => "private"

/-- Declaration modifiers. Without a visibility the declaration is public. -/
structure Modifiers where
  explicitVisibility : Option Visibility := none
  isStatic : Bool := false
  isAbstract : Bool := false
  isFinal : Bool := false
  isReadonly : Bool := false
  deriving DecidableEq, Inhabited

def Modifiers.visibility (m : Modifiers) : Visibility := m.explicitVisibility.getD .public

def Modifiers.isEmpty (m : Modifiers) : Bool := m = {}

inductive Modifier
  | visibility (v : Visibility)
  | «static»
  | «abstract»
  | final
  | readonly
  deriving DecidableEq

def Modifiers.add (m : Modifiers) : Modifier → Modifiers
  | .visibility v => { m with explicitVisibility := some v }
  | .static => { m with isStatic := true }
  | .abstract => { m with isAbstract := true }
  | .final => { m with isFinal := true }
  | .readonly => { m with isReadonly := true }

/-- Of several visibilities the last one counts. -/
def Modifiers.ofList (ms : List Modifier) : Modifiers := ms.foldl Modifiers.add {}

inductive UseKind
  | normal
  | function
  | const
  deriving DecidableEq, Inhabited

/-- One imported name; the imports of a group stand here one by one. -/
structure UseItem where
  name : Name
  aliasName : Option Identifier
  span : Span
  deriving DecidableEq, Inhabited

/-- The name by which the file refers to the import. -/
def UseItem.localName (u : UseItem) : String :=
  match u.aliasName with
  | some a => a.name
  | none => u.name.last

inductive ClassKind
  | «class»
  | interface
  | trait
  deriving DecidableEq, Inhabited

inductive BinaryOp
  | coalesce | booleanOr | booleanAnd | logicalOr | logicalAnd | logicalXor
  | bitwiseOr | bitwiseXor | bitwiseAnd
  | equal | notEqual | identical | notIdentical | spaceship
  | less | lessOrEqual | greater | greaterOrEqual
  | shiftLeft | shiftRight | concat | plus | minus | mul | div | mod | pow
  deriving DecidableEq, Inhabited

inductive UnaryOp
  | not | minus | plus | bitwiseNot | silence
  | preIncrement | preDecrement | postIncrement | postDecrement
  deriving DecidableEq, Inhabited

structure ClosureUse where
  name : Identifier
  byRef : Bool
  deriving DecidableEq, Inhabited

mutual

structure Expr where
  kind : ExprKind
  span : Span

inductive ExprKind
  | variable (name : String)
  | assign (target value : Expr) (byRef : Bool)
  | compoundAssign (op : BinaryOp) (target value : Expr)
  | new (target : ClassRef) (args : List Argument)
  | methodCall (receiver : Expr) (name : Identifier) (args : List Argument) (nullsafe : Bool)
  /-- The name is empty while it is being typed. -/
  | propertyFetch (receiver : Expr) (name : Identifier) (nullsafe : Bool)
  | staticCall (target : ClassRef) (name : Identifier) (args : List Argument)
  | staticPropertyFetch (target : ClassRef) (name : Identifier)
  | classConstFetch (target : ClassRef) (name : Identifier)
  | functionCall (name : Name) (args : List Argument)
  /-- A call of anything but a plain function name. -/
  | invoke (callee : Expr) (args : List Argument)
  /-- A bare name: a constant, `true`, `null`. -/
  | constFetch (name : Name)
  /-- The characters between the quotes, escapes left as written. -/
  | string (value : String)
  | number (value : String)
  | array (items : List ArrayItem)
  | arrayDimFetch (array : Expr) (index : Option Expr)
  | binary (op : BinaryOp) (left right : Expr)
  | unary (op : UnaryOp) (operand : Expr)
  | ternary (condition : Expr) (consequent : Option Expr) (alternative : Expr)
  | instanceOf (expr : Expr) (target : ClassRef)
  | cast (type : String) (expr : Expr)
  | clone (expr : Expr)
  | throw (expr : Expr)
  | include (expr : Expr)
  | isset (items : List Expr)
  | empty (expr : Expr)
  | closure (isStatic byRef : Bool) (params : List Param) (uses : List ClosureUse)
      (returnType : Option TypeHint) (body : List Stmt)
  | arrowFunction (isStatic byRef : Bool) (params : List Param) (returnType : Option TypeHint)
      (body : Expr)

inductive ClassRef
  | named (name : Name)
  | dynamic (expr : Expr)

structure Argument where
  value : Expr
  spread : Bool
  name : Option Identifier

structure ArrayItem where
  key : Option Expr
  value : Expr
  byRef : Bool
  spread : Bool

structure Param where
  name : Identifier
  typeHint : Option TypeHint
  default : Option Expr
  byRef : Bool
  variadic : Bool
  promoted : Option Modifiers
  span : Span

structure Stmt where
  kind : StmtKind
  span : Span

inductive StmtKind
  /-- Without a body the namespace lasts to the next one. -/
  | namespace (name : Option Name) (body : Option (List Stmt))
  | use (kind : UseKind) (items : List UseItem)
  | classLike (decl : ClassDecl)
  | function (decl : FunctionDecl)
  | const (items : List ConstItem)
  | expression (expr : Expr)
  | return (value : Option Expr)
  | echo (values : List Expr)
  | if (condition : Expr) (consequent : List Stmt) (elseIfs : List ElseIf)
      (otherwise : Option (List Stmt))
  | while (condition : Expr) (body : List Stmt)
  | doWhile (body : List Stmt) (condition : Expr)
  | for (init condition step : List Expr) (body : List Stmt)
  | foreach (subject : Expr) (key : Option Expr) (value : Expr) (body : List Stmt)
  | switch (subject : Expr) (cases : List Case)
  | try (body : List Stmt) (catches : List Catch) (cleanup : Option (List Stmt))
  | block (body : List Stmt)
  | global (names : List Identifier)
  | static (vars : List StaticVar)
  | break
  | continue
  | nop

structure ElseIf where
  condition : Expr
  body : List Stmt

structure Case where
  /-- Absent for `default:`. -/
  condition : Option Expr
  body : List Stmt

structure Catch where
  types : List Name
  binding : Option Identifier
  body : List Stmt

structure StaticVar where
  name : Identifier
  default : Option Expr

structure ConstItem where
  name : Identifier
  value : Expr

structure ClassDecl where
  kind : ClassKind
  name : Identifier
  modifiers : Modifiers
  /-- The parent of a class, or the parents of an interface. -/
  parents : List Name
  interfaces : List Name
  members : List Member
  doc : Option String

structure FunctionDecl where
  name : Identifier
  byRef : Bool
  params : List Param
  returnType : Option TypeHint
  body : List Stmt
  doc : Option String

structure Member where
  kind : MemberKind
  span : Span
  doc : Option String

inductive MemberKind
  | property (modifiers : Modifiers) (typeHint : Option TypeHint) (items : List PropertyItem)
  | method (decl : MethodDecl)
  | constant (modifiers : Modifiers) (items : List ConstItem)
  | traitUse (names : List Name)

structure PropertyItem where
  name : Identifier
  default : Option Expr
  span : Span

structure MethodDecl where
  modifiers : Modifiers
  name : Identifier
  byRef : Bool
  params : List Param
  returnType : Option TypeHint
  /-- Absent for abstract and interface methods. -/
  body : Option (List Stmt)

end

end PhpInsight

import PhpInsight.Grammar.Operator
import PhpInsight.Grammar.Rules

namespace PhpInsight.Grammar

open Peg Peg.Parser

variable (g : Rules)

def binaryExpr (op : BinaryOp) (left right : Expr) : Expr :=
  ⟨.binary op left right, ⟨left.span.start, right.span.stop⟩⟩

def classRefOf (e : Expr) : ClassRef :=
  match e.kind with
  | .constFetch name => .named name
  | _ => .dynamic e

def variableExpr : Parser Expr := do
  let start ← position
  let v ← variableName
  return ⟨.variable v.name, ⟨start, ← position⟩⟩

def argument : Parser Argument :=
  let spread : Parser Argument := do
    literal "..."
    trivia
    return ⟨← anyExpr g, true, none⟩
  let named : Parser Argument := do
    let name ← identifier
    trivia
    literal ":"
    notAhead (literal ":")
    trivia
    return ⟨← anyExpr g, false, some name⟩
  let plain : Parser Argument := do
    return ⟨← anyExpr g, false, none⟩
  spread <|> named <|> plain

def arguments : Parser (List Argument) := do
  literal "("
  trivia
  let args ← sepBy (argument g) comma
  trailingComma
  trivia
  literal ")"
  return args

def memberOperator : Parser Bool :=
  (do literal "?->"; return true) <|> (do literal "->"; return false)

/-- A dynamic member name keeps its text as written. -/
def memberName : Parser Identifier :=
  let held : Parser Unit := do
    literal "$"
    let _ ← word
  let computed : Parser Unit := do
    let _ ← between "\x7b" (anyExpr g) "\x7d"
  let dynamic : Parser Identifier := do
    let start ← position
    let text ← textOf (held <|> computed)
    return ⟨text, ⟨start, ← position⟩⟩
  identifier <|> dynamic

def memberSuffix (e : Expr) : Parser Expr := do
  let nullsafe ← memberOperator
  trivia
  let name ← memberName g
  let args ← optionalAfter (arguments g)
  let kind := match args with
    | some args => .methodCall e name args nullsafe
    | none => .propertyFetch e name nullsafe
  return ⟨kind, ⟨e.span.start, ← position⟩⟩

def staticPropertySuffix (e : Expr) : Parser Expr := do
  literal "::"
  trivia
  let name ← variableName
  return ⟨.staticPropertyFetch (classRefOf e) name, ⟨e.span.start, ← position⟩⟩

def staticMemberSuffix (e : Expr) : Parser Expr := do
  literal "::"
  trivia
  let name ← identifier
  let args ← optionalAfter (arguments g)
  let kind := match args with
    | some args => .staticCall (classRefOf e) name args
    | none => .classConstFetch (classRefOf e) name
  return ⟨kind, ⟨e.span.start, ← position⟩⟩

def indexSuffix (e : Expr) : Parser Expr := do
  let index ← between "[" (optional (anyExpr g)) "]"
  return ⟨.arrayDimFetch e index, ⟨e.span.start, ← position⟩⟩

def callSuffix (e : Expr) : Parser Expr := do
  let args ← arguments g
  let kind := match e.kind with
    | .constFetch name => .functionCall name args
    | _ => .invoke e args
  return ⟨kind, ⟨e.span.start, ← position⟩⟩

def suffix (e : Expr) : Parser Expr :=
  memberSuffix g e <|> staticPropertySuffix e <|> staticMemberSuffix g e <|> indexSuffix g e <|>
    callSuffix g e

def suffixes (e : Expr) : Parser Expr :=
  foldMany (fun e ↦ do trivia; suffix g e) e

def newClass : Parser ClassRef :=
  (do return .named (← plainName)) <|> (do return .dynamic (← variableExpr)) <|>
    (do return .dynamic (← between "(" (anyExpr g) ")"))

def newExpr : Parser Expr := do
  let start ← position
  keyword "new"
  trivia
  let target ← newClass g
  let args ← optionalAfter (arguments g)
  return ⟨.new target (args.getD []), ⟨start, ← position⟩⟩

def closureUse : Parser ClosureUse := do
  let byRef ← byReference
  return ⟨← variableName, byRef⟩

def closureUses : Parser (List ClosureUse) := do
  keyword "use"
  trivia
  literal "("
  trivia
  let uses ← sepBy1 closureUse comma
  trailingComma
  trivia
  literal ")"
  return uses

def staticWord : Parser Bool := do
  return (← optionalBefore (keyword "static")).isSome

def closure : Parser Expr := do
  let start ← position
  let isStatic ← staticWord
  keyword "function"
  trivia
  let byRef ← byReference
  let ps ← params g
  let uses ← optionalAfter closureUses
  let type ← returnType
  trivia
  let body ← block g
  return ⟨.closure isStatic byRef ps (uses.getD []) type body, ⟨start, ← position⟩⟩

def arrowFunction : Parser Expr := do
  let start ← position
  let isStatic ← staticWord
  keyword "fn"
  trivia
  let byRef ← byReference
  let ps ← params g
  let type ← returnType
  trivia
  literal "=>"
  trivia
  let body ← anyExpr g
  return ⟨.arrowFunction isStatic byRef ps type body, ⟨start, ← position⟩⟩

def arrayItem : Parser ArrayItem :=
  let spread : Parser ArrayItem := do
    literal "..."
    trivia
    return ⟨none, ← anyExpr g, false, true⟩
  let reference : Parser ArrayItem := do
    literal "&"
    trivia
    return ⟨none, ← anyExpr g, true, false⟩
  let plain : Parser ArrayItem := do
    let first ← anyExpr g
    let second ← optionalAfter do
      literal "=>"
      trivia
      let byRef ← byReference
      return (byRef, ← anyExpr g)
    match second with
    | some (byRef, value) => return ⟨some first, value, byRef, false⟩
    | none => return ⟨none, first, false, false⟩
  spread <|> reference <|> plain

def arrayItems : Parser (List ArrayItem) := do
  let items ← sepBy (arrayItem g) comma
  trailingComma
  return items

def arrayLiteral : Parser Expr :=
  let brackets : Parser Expr := do
    let start ← position
    let items ← between "[" (arrayItems g) "]"
    return ⟨.array items, ⟨start, ← position⟩⟩
  let call : Parser Expr := do
    let start ← position
    keyword "array"
    trivia
    let items ← between "(" (arrayItems g) ")"
    return ⟨.array items, ⟨start, ← position⟩⟩
  brackets <|> call

def stringExpr : Parser Expr := do
  let start ← position
  let value ← stringLiteral
  return ⟨.string value, ⟨start, ← position⟩⟩

def numberExpr : Parser Expr := do
  let start ← position
  let value ← number
  return ⟨.number value, ⟨start, ← position⟩⟩

def issetExpr : Parser Expr := do
  let start ← position
  keyword "isset"
  trivia
  literal "("
  trivia
  let items ← sepBy1 (anyExpr g) comma
  trailingComma
  trivia
  literal ")"
  return ⟨.isset items, ⟨start, ← position⟩⟩

def emptyExpr : Parser Expr := do
  let start ← position
  keyword "empty"
  trivia
  let e ← between "(" (anyExpr g) ")"
  return ⟨.empty e, ⟨start, ← position⟩⟩

/-- Parentheses leave no node behind; they only widen the span. -/
def parenthesized : Parser Expr := do
  let start ← position
  let e ← between "(" (anyExpr g) ")"
  return ⟨e.kind, ⟨start, ← position⟩⟩

def constExpr (p : Parser Name) : Parser Expr := do
  let start ← position
  let n ← p
  return ⟨.constFetch n, ⟨start, ← position⟩⟩

def primary : Parser Expr :=
  variableExpr <|> newExpr g <|> closure g <|> arrowFunction g <|> stringExpr <|> numberExpr <|>
    arrayLiteral g <|> issetExpr g <|> emptyExpr g <|> parenthesized g <|> constExpr plainName

def chain : Parser Expr := do
  suffixes g (← primary g)

def plainAssignment (target : Expr) : Parser Expr := do
  literal "="
  notAhead (oneOf (.ofChars ['=', '>']))
  trivia
  let byRef ← byReference
  let value ← anyExpr g
  return ⟨.assign target value byRef, ⟨target.span.start, value.span.stop⟩⟩

def compoundOperator : Parser BinaryOp :=
  firstOf <| compoundOperators.map fun (text, op) ↦ do
    literal text
    return op

def compoundAssignment (target : Expr) : Parser Expr := do
  let op ← compoundOperator
  trivia
  let value ← anyExpr g
  return ⟨.compoundAssign op target value, ⟨target.span.start, value.span.stop⟩⟩

/-- A chain, or an assignment to it. The value of an assignment is a whole expression. -/
def atom : Parser Expr := do
  let target ← chain g
  let assignment ← optionalAfter (plainAssignment g target <|> compoundAssignment g target)
  return assignment.getD target

/-- An operator before its operand, which is read one level above. -/
def leading (level : Nat) (operator : Parser (Expr → ExprKind)) : Parser Expr := do
  let start ← position
  let kind ← operator
  trivia
  let e ← g.binary (level + 1)
  return ⟨kind e, ⟨start, e.span.stop⟩⟩

def leadingSign (text : String) (op : UnaryOp) : Parser (Expr → ExprKind) := do
  literal text
  return .unary op

def leadingCast : Parser (Expr → ExprKind) := do
  let type ← between "(" castType ")"
  return .cast type

def leadingWord (text : String) (kind : Expr → ExprKind) : Parser (Expr → ExprKind) := do
  keyword text
  return kind

def includeWord : Parser (Expr → ExprKind) :=
  leadingWord "require_once" .include <|> leadingWord "require" .include <|>
    leadingWord "include_once" .include <|> leadingWord "include" .include

def operand : Parser Expr :=
  leading g Level.throw (leadingWord "throw" .throw) <|>
  leading g Level.negation (leadingSign "!" .not) <|>
  firstOf (signOperators.map fun (text, op) ↦ leading g Level.sign (leadingSign text op)) <|>
  leading g Level.sign leadingCast <|>
  leading g Level.sign (leadingWord "clone" .clone) <|>
  leading g Level.sign includeWord <|>
  atom g

def infixSymbol (o : InfixOperator) : Parser Unit := do
  firstOf (o.spellings.map literal)
  notAhead (oneOf (.ofChars o.notBefore))

def infixTail (o : InfixOperator) (left : Expr) : Parser Expr := do
  trivia
  infixSymbol o
  trivia
  return binaryExpr o.op left (← g.binary o.rightLevel)

def instanceOfClass : Parser ClassRef :=
  (do return .named (← plainName)) <|> (do return .dynamic (← variableExpr))

def instanceOfTail (left : Expr) : Parser Expr := do
  trivia
  keyword "instanceof"
  trivia
  let target ← instanceOfClass
  return ⟨.instanceOf left target, ⟨left.span.start, ← position⟩⟩

def stepTail (text : String) (op : UnaryOp) (operand : Expr) : Parser Expr := do
  trivia
  literal text
  return ⟨.unary op operand, ⟨operand.span.start, ← position⟩⟩

/-- Everything that may follow a left operand, with its level, in the order of trying. -/
def tails : List (Nat × (Expr → Parser Expr)) :=
  looseOperators.map (fun o ↦ (o.level, infixTail g o)) ++
  (Level.instanceOf, instanceOfTail) ::
  tightOperators.map (fun o ↦ (o.level, infixTail g o)) ++
  stepOperators.map (fun (text, op) ↦ (Level.step, stepTail text op))

/-- Applies the first tail of level `min` or tighter that matches. -/
def tailFrom (all : List (Nat × (Expr → Parser Expr))) (min : Nat) (left : Expr) : Parser Expr :=
  firstOf ((all.filter (min ≤ ·.1)).map (·.2 left))

def binaryFrom (min : Nat) : Parser Expr := do
  foldMany (tailFrom (tails g) min) (← operand g)

def ternaryTail (condition : Expr) : Parser Expr := do
  trivia
  literal "?"
  notAhead (literal "?")
  notAhead (literal "->")
  trivia
  let consequent ← optional (anyExpr g)
  trivia
  literal ":"
  notAhead (literal ":")
  trivia
  let alternative ← g.ternary
  return ⟨.ternary condition consequent alternative,
    ⟨condition.span.start, alternative.span.stop⟩⟩

def ternary : Parser Expr := do
  let condition ← binaryFrom g 0
  return (← optional (ternaryTail g condition)).getD condition

def wordTail (o : WordOperator) (left : Expr) : Parser Expr := do
  trivia
  keyword o.word
  trivia
  return binaryExpr o.op left (← g.expr (o.level + 1))

def wordTails : List (Nat × (Expr → Parser Expr)) :=
  wordOperators.map fun o ↦ (o.level, wordTail g o)

/-- Loose operators are tried first. The right operand of an operator is read at a level that
makes the operator associate as its table entry says. -/
def exprFrom (min : Nat) : Parser Expr := do
  foldMany (tailFrom (wordTails g) min) (← ternary g)

def exprList : Parser (List Expr) := sepBy (anyExpr g) comma

end PhpInsight.Grammar

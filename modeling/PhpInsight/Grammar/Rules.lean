import PhpInsight.Grammar.Trivia

namespace PhpInsight.Grammar

open Peg Peg.Parser

/-- The rules that refer to one another. Each rule is written over a `Rules` that stands for the
others. -/
structure Rules where
  statement : Parser Stmt
  /-- An expression whose word operators are of the given level or a tighter one. -/
  expr : Nat → Parser Expr
  ternary : Parser Expr
  /-- An operand of operators of the given level or a tighter one. -/
  binary : Nat → Parser Expr

def Rules.empty : Rules := ⟨fail, fun _ ↦ fail, fail, fun _ ↦ fail⟩

variable (g : Rules)

def anyExpr : Parser Expr := g.expr 0

def statements : Parser (List Stmt) := manyAfter g.statement

def block : Parser (List Stmt) := do
  literal "\x7b"
  let body ← statements g
  trivia
  literal "\x7d"
  return body

def byReference : Parser Bool := do
  return (← optionalBefore (literal "&")).isSome

def typeKeywords : List String :=
  ["int", "float", "bool", "string", "array", "object", "iterable", "callable", "void", "mixed",
    "null", "never", "false", "true"]

def simpleTypeOf (n : Name) : SimpleType :=
  if n.isUnqualified && typeKeywords.contains (Text.lower n.last) then .builtin ⟨n.last, n.span⟩
  else .named n

def simpleType : Parser SimpleType := do
  return simpleTypeOf (← name)

def typeHint : Parser TypeHint :=
  let nullable : Parser TypeHint := do
    let start ← position
    literal "?"
    trivia
    let inner ← simpleType
    return .nullable inner ⟨start, ← position⟩
  let union : Parser TypeHint := do
    let start ← position
    let first ← simpleType
    let others ← manyAfter do
      literal "|"
      notAhead (literal "|")
      trivia
      simpleType
    let span := ⟨start, ← position⟩
    return if others.isEmpty then .simple first else .union (first :: others) span
  nullable <|> union

def returnType : Parser (Option TypeHint) :=
  optionalAfter do
    literal ":"
    trivia
    typeHint

def modifier : Parser Modifier :=
  firstOf
    [ do keyword "public"; return .visibility .public,
      do keyword "protected"; return .visibility .protected,
      do keyword "private"; return .visibility .private,
      do keyword "static"; return .static,
      do keyword "abstract"; return .abstract,
      do keyword "final"; return .final,
      do keyword "readonly"; return .readonly,
      do keyword "var"; return .visibility .public ]

def modifiersOf (p : Parser Modifier) : Parser Modifiers := do
  let found ← many do
    let m ← p
    trivia
    return m
  return .ofList found

def modifiers : Parser Modifiers := modifiersOf modifier

def defaultValue : Parser (Option Expr) :=
  optionalAfter do
    literal "="
    trivia
    anyExpr g

def param : Parser Param := do
  let start ← position
  let mods ← modifiers
  let hint ← optionalBefore typeHint
  let byRef ← byReference
  let variadic ← optionalBefore (literal "...")
  let name ← variableName
  let value ← defaultValue g
  return {
    name := name
    typeHint := hint
    default := value
    byRef := byRef
    variadic := variadic.isSome
    promoted := if mods.isEmpty then none else some mods
    span := ⟨start, ← position⟩ }

def params : Parser (List Param) := do
  literal "("
  trivia
  let found ← sepBy (param g) comma
  trailingComma
  trivia
  literal ")"
  return found

end PhpInsight.Grammar

import PhpInsight.Grammar.Expression

namespace PhpInsight.Grammar

open Peg Peg.Parser

variable (g : Rules)

/-- A statement ends at a semicolon or before the closing tag. -/
def statementEnd : Parser Unit := literal ";" <|> ahead (literal "?>")

def condition : Parser Expr := between "(" (anyExpr g) ")"

def body : Parser (List Stmt) :=
  block g <|> do
    let s ← g.statement
    return [s]

def constItem : Parser ConstItem := do
  let name ← identifier
  trivia
  literal "="
  trivia
  return ⟨name, ← anyExpr g⟩

def constItems : Parser (List ConstItem) := sepBy1 (constItem g) comma

def nameList : Parser (List Name) := sepBy1 name comma

def methodBody : Parser (Option (List Stmt)) :=
  (do return some (← block g)) <|> (do literal ";"; return none)

/-- The rules of a conflicting trait use are skipped over. -/
def traitUse : Parser MemberKind := do
  keyword "use"
  trivia
  let traits ← nameList
  trivia
  let adaptations : Parser Unit := do
    literal "\x7b"
    skipMany do
      notAhead (literal "\x7d")
      oneOf .any
    literal "\x7d"
  literal ";" <|> adaptations
  return .traitUse traits

def method : Parser MemberKind := do
  let mods ← modifiers
  keyword "function"
  trivia
  let byRef ← byReference
  let name ← identifier
  trivia
  let ps ← params g
  let type ← returnType
  trivia
  let body ← methodBody g
  return .method ⟨mods, name, byRef, ps, type, body⟩

def constantMember : Parser MemberKind := do
  let mods ← modifiers
  keyword "const"
  trivia
  let items ← constItems g
  trivia
  literal ";"
  return .constant mods items

def propertyItem : Parser PropertyItem := do
  let start ← position
  let name ← variableName
  let value ← defaultValue g
  return ⟨name, value, ⟨start, ← position⟩⟩

/-- A property needs a modifier; that none was written shows only behind the declaration. -/
def propertyMember : Parser MemberKind := do
  let mods ← modifiers
  let hint ← optionalBefore typeHint
  let items ← sepBy1 (propertyItem g) comma
  trivia
  literal ";"
  if mods.isEmpty then failExpecting "property modifier" else return .property mods hint items

def member : Parser Member := do
  let start ← position
  let kind ← traitUse <|> method g <|> constantMember g <|> propertyMember g
  return ⟨kind, ⟨start, ← position⟩, none⟩

def classBody : Parser (List Member) := do
  literal "\x7b"
  let members ← manyAfter (member g)
  trivia
  literal "\x7d"
  return members

def classModifier : Parser Modifier :=
  firstOf
    [ do keyword "abstract"; return .abstract,
      do keyword "final"; return .final,
      do keyword "readonly"; return .readonly ]

def listAfter {α : Type} (word : String) (p : Parser (List α)) : Parser (List α) := do
  let found ← optionalAfter do
    keyword word
    trivia
    p
  return found.getD []

def classDecl : Parser ClassDecl := do
  let mods ← modifiersOf classModifier
  keyword "class"
  trivia
  let name ← identifier
  let parents ← listAfter "extends" (do return [← PhpInsight.Grammar.name])
  let interfaces ← listAfter "implements" nameList
  trivia
  let members ← classBody g
  return ⟨.class, name, mods, parents, interfaces, members, none⟩

def interfaceDecl : Parser ClassDecl := do
  keyword "interface"
  trivia
  let name ← identifier
  let parents ← listAfter "extends" nameList
  trivia
  let members ← classBody g
  return ⟨.interface, name, {}, parents, [], members, none⟩

def traitDecl : Parser ClassDecl := do
  keyword "trait"
  trivia
  let name ← identifier
  trivia
  let members ← classBody g
  return ⟨.trait, name, {}, [], [], members, none⟩

def classLike : Parser ClassDecl := classDecl g <|> interfaceDecl g <|> traitDecl g

def functionDecl : Parser FunctionDecl := do
  keyword "function"
  trivia
  let byRef ← byReference
  let name ← identifier
  trivia
  let ps ← params g
  let type ← returnType
  trivia
  let body ← block g
  return ⟨name, byRef, ps, type, body, none⟩

def namespaceStatement : Parser StmtKind :=
  let open_ : Parser StmtKind := do
    keyword "namespace"
    trivia
    let n ← name
    trivia
    literal ";"
    return .namespace (some n) none
  let braced : Parser StmtKind := do
    keyword "namespace"
    trivia
    let n ← optionalBefore name
    return .namespace n (some (← block g))
  open_ <|> braced

def useKind : Parser UseKind :=
  (do keyword "function"; trivia; return .function) <|>
    (do keyword "const"; trivia; return .const)

def useItem : Parser UseItem := do
  let start ← position
  let n ← name
  let aliasName ← optionalAfter do
    keyword "as"
    trivia
    identifier
  return ⟨n, aliasName, ⟨start, ← position⟩⟩

/-- An import of a group under the name that the group stands behind. -/
def groupedUse (group : Name) (u : UseItem) : UseItem :=
  let kind := if group.isFullyQualified then NameKind.fullyQualified else .qualified
  { u with name := ⟨group.parts ++ u.name.parts, kind, u.name.span⟩ }

def useClause : Parser (List UseItem) :=
  let grouped : Parser (List UseItem) := do
    let group ← name
    literal "\\"
    trivia
    literal "\x7b"
    trivia
    let items ← sepBy1 useItem comma
    trailingComma
    trivia
    literal "\x7d"
    return items.map (groupedUse group)
  grouped <|> sepBy1 useItem comma

def useStatement : Parser StmtKind := do
  keyword "use"
  trivia
  let kind ← optional useKind
  let items ← useClause
  trivia
  literal ";"
  return .use (kind.getD .normal) items

def declareStatement : Parser StmtKind := do
  keyword "declare"
  trivia
  literal "("
  trivia
  let directive : Parser Unit := do
    let _ ← identifier
    trivia
    literal "="
    trivia
    let _ ← anyExpr g
  let _ ← sepBy directive comma
  trivia
  literal ")"
  trivia
  literal ";"
  return .nop

def elseIf : Parser ElseIf := do
  keyword "elseif"
  trivia
  let c ← condition g
  trivia
  return ⟨c, ← body g⟩

def ifStatement : Parser StmtKind := do
  keyword "if"
  trivia
  let c ← condition g
  trivia
  let consequent ← body g
  let elseIfs ← manyAfter (elseIf g)
  let otherwise ← optionalAfter do
    keyword "else"
    trivia
    body g
  return .if c consequent elseIfs otherwise

def whileStatement : Parser StmtKind := do
  keyword "while"
  trivia
  let c ← condition g
  trivia
  return .while c (← body g)

def doWhileStatement : Parser StmtKind := do
  keyword "do"
  trivia
  let b ← body g
  trivia
  keyword "while"
  trivia
  let c ← condition g
  trivia
  statementEnd
  return .doWhile b c

def forStatement : Parser StmtKind := do
  keyword "for"
  trivia
  literal "("
  trivia
  let init ← exprList g
  trivia
  literal ";"
  trivia
  let test ← exprList g
  trivia
  literal ";"
  trivia
  let step ← exprList g
  trivia
  literal ")"
  trivia
  return .for init test step (← body g)

def foreachTarget : Parser Expr := do
  let _ ← byReference
  chain g

def foreachStatement : Parser StmtKind := do
  keyword "foreach"
  trivia
  literal "("
  trivia
  let subject ← anyExpr g
  trivia
  keyword "as"
  trivia
  let first ← foreachTarget g
  let second ← optionalAfter do
    literal "=>"
    trivia
    foreachTarget g
  trivia
  literal ")"
  trivia
  let b ← body g
  return match second with
    | some value => .foreach subject (some first) value b
    | none => .foreach subject none first b

def caseEnd : Parser Unit := oneOf (.ofChars [':', ';'])

def case : Parser Case :=
  let labelled : Parser Case := do
    keyword "case"
    trivia
    let e ← anyExpr g
    trivia
    caseEnd
    return ⟨some e, ← statements g⟩
  let default : Parser Case := do
    keyword "default"
    trivia
    caseEnd
    return ⟨none, ← statements g⟩
  labelled <|> default

def switchStatement : Parser StmtKind := do
  keyword "switch"
  trivia
  let subject ← condition g
  trivia
  literal "\x7b"
  let cases ← manyAfter (case g)
  trivia
  literal "\x7d"
  return .switch subject cases

def catchClause : Parser Catch := do
  let bar : Parser Unit := do
    trivia
    literal "|"
    trivia
  keyword "catch"
  trivia
  literal "("
  trivia
  let types ← sepBy1 name bar
  trivia
  let binding ← optional variableName
  trivia
  literal ")"
  trivia
  return ⟨types, binding, ← block g⟩

def tryStatement : Parser StmtKind := do
  keyword "try"
  trivia
  let b ← block g
  let catches ← manyAfter (catchClause g)
  let cleanup ← optionalAfter do
    keyword "finally"
    trivia
    block g
  return .try b catches cleanup

def constStatement : Parser StmtKind := do
  keyword "const"
  trivia
  let items ← constItems g
  trivia
  literal ";"
  return .const items

def returnStatement : Parser StmtKind := do
  keyword "return"
  trivia
  let value ← optional (anyExpr g)
  trivia
  statementEnd
  return .return value

def echoStatement : Parser StmtKind := do
  keyword "echo"
  trivia
  let values ← sepBy1 (anyExpr g) comma
  trivia
  statementEnd
  return .echo values

def globalStatement : Parser StmtKind := do
  keyword "global"
  trivia
  let names ← sepBy1 variableName comma
  trivia
  statementEnd
  return .global names

def staticVar : Parser StaticVar := do
  let name ← variableName
  return ⟨name, ← defaultValue g⟩

def staticStatement : Parser StmtKind := do
  keyword "static"
  trivia
  ahead (literal "$")
  let vars ← sepBy1 (staticVar g) comma
  trivia
  statementEnd
  return .static vars

/-- Leaving or repeating a loop, with an optional count. -/
def jumpStatement (word : String) (kind : StmtKind) : Parser StmtKind := do
  keyword word
  let _ ← optionalAfter number
  trivia
  statementEnd
  return kind

def expressionStatement : Parser StmtKind := do
  let e ← exprFrom g 0
  trivia
  statementEnd
  return .expression e

def statementKind : Parser StmtKind :=
  namespaceStatement g <|>
  useStatement <|>
  (do return .classLike (← classLike g)) <|>
  (do return .function (← functionDecl g)) <|>
  constStatement g <|>
  declareStatement g <|>
  ifStatement g <|>
  whileStatement g <|>
  doWhileStatement g <|>
  forStatement g <|>
  foreachStatement g <|>
  switchStatement g <|>
  tryStatement g <|>
  returnStatement g <|>
  echoStatement g <|>
  globalStatement <|>
  staticStatement g <|>
  jumpStatement "break" .break <|>
  jumpStatement "continue" .continue <|>
  (do return .block (← block g)) <|>
  (do literal ";"; return .nop) <|>
  expressionStatement g

def statement : Parser Stmt := do
  let start ← position
  let kind ← statementKind g
  return ⟨kind, ⟨start, ← position⟩⟩

end PhpInsight.Grammar

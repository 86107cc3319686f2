import PhpInsight.Grammar.Word

namespace PhpInsight.Grammar

open Peg Peg.Parser

/-- The inside of an attribute: brackets balance, string literals aside. Each level takes a
bracket, so the characters left bound the depth. -/
def attributeBody : (fuel : List Char) → Parser Unit
  | [] => pure ()
  | _ :: fuel =>
    let group : Parser Unit := do
      literal "["
      attributeBody fuel
      literal "]"
    let string : Parser Unit := do
      let _ ← stringLiteral
    skipMany (group <|> string <|> oneOf (CharClass.ofChars ['[', ']']).compl)

def restOfLine : Parser Unit :=
  skipMany do
    notAhead (lineEnd <|> literal "?>")
    oneOf .any

def blockComment : Parser Unit := do
  literal "/*"
  skipMany do
    notAhead (literal "*/")
    oneOf .any
  literal "*/"

def slashComment : Parser Unit := do
  literal "//"
  restOfLine

def attributeComment : Parser Unit := do
  literal "#["
  fun c ↦ attributeBody c.rest c
  literal "]"

def hashComment : Parser Unit := do
  literal "#"
  restOfLine

def comment : Parser Unit := blockComment <|> slashComment <|> attributeComment <|> hashComment

def whitespace : Parser Unit := some1 (oneOf (.ofChars [' ', '\t', '\n', '\r']))

/-- Blanks, comments and attributes, which may stand between any two words. -/
def trivia : Parser Unit := quiet (skipMany (whitespace <|> comment))

def comma : Parser Unit := do
  trivia
  literal ","
  trivia

def trailingComma : Parser Unit := do
  let _ ← optional do
    trivia
    literal ","

def optionalAfter {α : Type} (p : Parser α) : Parser (Option α) :=
  optional do
    trivia
    p

def optionalBefore {α : Type} (p : Parser α) : Parser (Option α) :=
  optional do
    let a ← p
    trivia
    return a

def manyAfter {α : Type} (p : Parser α) : Parser (List α) :=
  many do
    trivia
    p

def between {α : Type} (left : String) (p : Parser α) (right : String) : Parser α := do
  literal left
  trivia
  let a ← p
  trivia
  literal right
  return a

end PhpInsight.Grammar

import PhpInsight.Peg.Basic
import PhpInsight.Text.AsciiCase
import PhpInsight.Tree

namespace PhpInsight.Grammar

open Peg Peg.Parser

def wordStart : CharClass :=
  .ofRanges [('a', 'z'), ('A', 'Z'), ('_', '_'), ('\u0080', Char.ofNat 0x10FFFF)]

def digit : CharClass := .ofRanges [('0', '9')]

def word : Parser String :=
  textOf do
    oneOf wordStart
    skipMany (oneOf wordStart <|> oneOf digit)

/-- Reads a whole word before it is compared, so a wrong one fails behind itself. -/
def keyword (text : String) : Parser Unit := do
  let w ← word
  if Text.sameIgnoringCase w text then pure () else failExpecting text

def reservedWords : List String :=
  ["abstract", "and", "as", "break", "case", "catch", "class", "clone", "const", "continue",
    "declare", "default", "do", "echo", "else", "elseif", "empty", "enddeclare", "endfor",
    "endforeach", "endif", "endswitch", "endwhile", "extends", "final", "finally", "fn", "for",
    "foreach", "function", "global", "goto", "if", "implements", "include", "include_once",
    "instanceof", "insteadof", "interface", "isset", "namespace", "new", "or", "private",
    "protected", "public", "require", "require_once", "return", "switch", "throw", "trait", "try",
    "use", "var", "while", "xor", "yield"]

def isReserved (w : String) : Bool := reservedWords.contains (Text.lower w)

def reserved : Parser Unit := do
  let w ← word
  if isReserved w then pure () else failExpecting "reserved word"

def castTypes : List String :=
  ["int", "integer", "bool", "boolean", "float", "double", "real", "string", "array", "object",
    "unset", "binary"]

def castType : Parser String := do
  let w ← word
  let type := Text.lower w
  if castTypes.contains type then pure type else failExpecting "cast type"

def identifier : Parser Identifier := do
  let start ← position
  let name ← word
  return ⟨name, ⟨start, ← position⟩⟩

def variableName : Parser Identifier := do
  let start ← position
  literal "$"
  let name ← word
  return ⟨name, ⟨start, ← position⟩⟩

def name : Parser Name := do
  let start ← position
  let fullyQualified ← isPresent (literal "\\")
  let first ← word
  let others ← many do
    literal "\\"
    word
  return .ofParts fullyQualified (first :: others) ⟨start, ← position⟩

def plainName : Parser Name := do
  notAhead reserved
  name

def lineEnd : Parser Unit := literal "\r\n" <|> literal "\n"

def inlineSpace : CharClass := .ofChars [' ', '\t']

def quoted (quote : Char) : Parser String := do
  let delimiter := literal (String.singleton quote)
  let escape : Parser Unit := do
    literal "\\"
    oneOf .any
  delimiter
  let text ← textOf (skipMany (escape <|> oneOf (CharClass.ofChars [quote, '\\']).compl))
  delimiter
  return text

def heredocEnd (label : String) : Parser Unit := do
  lineEnd
  skipMany (oneOf inlineSpace)
  let w ← word
  if w = label then pure () else failExpecting "heredoc terminator"

/-- The line end behind the label belongs to the notation and not to the text. -/
def heredocText (raw : String) : String :=
  match raw.toList with
  | '\r' :: '\n' :: cs => String.ofList cs
  | '\n' :: cs => String.ofList cs
  | _ => raw

def heredoc : Parser String := do
  let quote := oneOf (.ofChars ['"', '\''])
  literal "<<<"
  skipMany (oneOf inlineSpace)
  let _ ← optional quote
  let label ← word
  let _ ← optional quote
  let raw ← textOf <| skipMany do
    notAhead (heredocEnd label)
    oneOf .any
  heredocEnd label
  return heredocText raw

def stringLiteral : Parser String := quoted '\'' <|> quoted '"' <|> heredoc

def some1 (p : Parser Unit) : Parser Unit := do
  p
  skipMany p

def exponent : Parser Unit := do
  oneOf (.ofChars ['e', 'E'])
  let _ ← optional (oneOf (.ofChars ['+', '-']))
  some1 (oneOf digit)

def number : Parser String :=
  let digitOrBlank : CharClass := .ofRanges [('0', '9'), ('_', '_')]
  let digits : Parser Unit := do
    oneOf digit
    skipMany (oneOf digitOrBlank)
  let hexadecimal : Parser Unit := do
    literal "0"
    oneOf (.ofChars ['x', 'X'])
    some1 (oneOf (.ofRanges [('0', '9'), ('a', 'f'), ('A', 'F'), ('_', '_')]))
  let binary : Parser Unit := do
    literal "0"
    oneOf (.ofChars ['b', 'B'])
    some1 (oneOf (.ofChars ['0', '1', '_']))
  let decimal : Parser Unit := do
    digits
    let _ ← optional do
      literal "."
      digits
    let _ ← optional exponent
  let fraction : Parser Unit := do
    literal "."
    some1 (oneOf digit)
    let _ ← optional exponent
  textOf hexadecimal <|> textOf binary <|> textOf decimal <|> textOf fraction

end PhpInsight.Grammar

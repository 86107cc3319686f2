import PhpInsight.Text.AsciiCase
import PhpInsight.Text.Blank

namespace PhpInsight.TypeText

def isOpeningBracket (c : Char) : Bool := c = '<' || c = '(' || c = '\x7b' || c = '['

def isClosingBracket (c : Char) : Bool := c = '>' || c = ')' || c = '\x7d' || c = ']'

/-- How many brackets are open behind a character. Brackets are not told apart, and a closing one
too many changes nothing. -/
def depthAfter (depth : Nat) (c : Char) : Nat :=
  if isOpeningBracket c then depth + 1
  else if isClosingBracket c then depth - 1
  else depth

/-- Cuts at the first blank outside brackets, which starts the second part. -/
def splitTypeFrom : (depth : Nat) → List Char → List Char × List Char
  | _, [] => ([], [])
  | d, c :: cs =>
    if Text.isBlank c && d = 0 then ([], c :: cs)
    else
      let (type, rest) := splitTypeFrom (depthAfter d c) cs
      (c :: type, rest)

def splitType (cs : List Char) : List Char × List Char := splitTypeFrom 0 (Text.dropBlanks cs)

def piecesFrom : (depth : Nat) → List Char → List (List Char)
  | _, [] => [[]]
  | d, c :: cs =>
    if c = '|' && d = 0 then [] :: piecesFrom d cs
    else match piecesFrom (depthAfter d c) cs with
      | [] => [[c]]
      | p :: ps => (c :: p) :: ps

def unionMembers (cs : List Char) : List (List Char) :=
  ((piecesFrom 0 cs).map Text.trimChars).filter fun m ↦ !m.isEmpty

/-- The members of a union, between bars that no bracket holds together. -/
def splitUnion (text : String) : List String := (unionMembers text.toList).map String.ofList

def builtinWords : List String :=
  ["int", "integer", "float", "double", "bool", "boolean", "string", "array", "object",
    "iterable", "callable", "void", "mixed", "null", "false", "true", "never", "resource",
    "self", "static", "parent", "$this"]

def isBuiltin (text : String) : Bool := builtinWords.contains (Text.lower text)

end TypeText

inductive Scalar
  | int | void | bool | float | array | object | string | iterable | callable
  deriving DecidableEq, Inhabited

namespace Scalar

def display : Scalar → String
  | int => "int"
  | void => "void"
  | bool => "bool"
  | float => "float"
  | array => "array"
  | object => "object"
  | string => "string"
  | iterable => "iterable"
  | callable => "callable"

def all : List Scalar := [int, void, bool, float, array, object, string, iterable, callable]

def ofText? (text : String) : Option Scalar :=
  let word := Text.lower text
  all.find? fun s ↦ s.display == word

theorem ofText?_display (s : Scalar) : ofText? s.display = some s := by
  cases s <;> decide +kernel

end Scalar

end PhpInsight

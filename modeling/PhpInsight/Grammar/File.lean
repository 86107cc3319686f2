import PhpInsight.Grammar.DocComment
import PhpInsight.Grammar.Statement
import PhpInsight.SyntaxError

namespace PhpInsight.Grammar

open Peg Peg.Parser

def Rules.unfold (g : Rules) : Rules where
  statement c := Grammar.statement g c
  expr min c := exprFrom g min c
  ternary c := Grammar.ternary g c
  binary min c := binaryFrom g min c

/-- The rules to a nesting depth. A rule refers to another one only behind a character, so a
text of `n` characters needs no depth above `n + 1`. -/
def Rules.ofDepth : Nat → Rules
  | 0 => .empty
  | n + 1 => (Rules.ofDepth n).unfold

def Rules.forText (cs : List Char) : Rules := .ofDepth (cs.length + 1)

def endOfText : Parser Unit := notAhead (oneOf .any)

def byteOrderMark : Char := '\uFEFF'

def file (g : Rules) : Parser (List Stmt) := do
  let _ ← optional (literal (String.singleton byteOrderMark))
  trivia
  literal "<?php"
  notAhead (oneOf wordStart <|> oneOf digit)
  let ss ← statements g
  trivia
  let _ ← optional do
    literal "?>"
    skipMany (oneOf .any)
  endOfText
  return ss

/-- Lines and columns count from one; a column is a character of the line. -/
def syntaxErrorOf (source : List Char) (failures : Failures) : SyntaxError :=
  let before := Text.takeBytes failures.offset source
  { line := before.count '\n' + 1
    column := (before.reverse.takeWhile (· ≠ '\n')).length + 1
    offset := failures.offset
    expected := failures.describe }

def parseFile (source : List Char) : Except SyntaxError (List Stmt) :=
  match file (.forText source) ⟨source, 0⟩ with
  | .matched ss _ _ => .ok (documentAll source ss)
  | .failed f => .error (syntaxErrorOf source f)

end PhpInsight.Grammar

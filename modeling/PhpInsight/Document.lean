import PhpInsight.Grammar.File
import PhpInsight.Text.Lines
import PhpInsight.Tree.Node

namespace PhpInsight

/-- A parsed source file. An edit makes a new one, with an identity of its own even when the text
is the same. -/
structure Document where
  id : Nat
  uri : String
  source : List Char
  version : Int
  statements : List Stmt

namespace Document

def parse (id : Nat) (uri : String) (source : List Char) (version : Int) :
    Except SyntaxError Document := do
  return ⟨id, uri, source, version, ← Grammar.parseFile source⟩

def nodes (d : Document) : List Node := Stmt.nodes d.statements

def closestExpr (best : Option Expr) : Node → Option Expr
  | .expr e =>
    match best with
    | some b => if e.span.length ≤ b.span.length then some e else some b
    | none => some e
  | _ => best

/-- The innermost expression whose span touches an offset. Nothing is searched below a node that
the offset does not touch. -/
def exprAt (d : Document) (offset : Nat) : Option Expr :=
  let touched := (Stmt.walkWhere (fun n ↦ n.span.touches offset) d.statements).filter
    fun n ↦ n.span.touches offset
  touched.foldl closestExpr none

def lines (d : Document) : List (List Char) := Text.splitBy (· == '\n') d.source

def line? (d : Document) (n : Nat) : Option (List Char) :=
  d.lines[n]?.map Text.dropCarriageReturn

/-- The columns between which the text of a line stands, blanks around it aside. -/
def columns? (d : Document) (n : Nat) : Option (Nat × Nat) := do
  let line ← d.line? n
  let start := (line.takeWhile Text.isBlank).length
  let stop := (Text.dropBlanksEnd line).length
  return if stop ≤ start then (0, 0) else (start, stop)

def lineStart (d : Document) (n : Nat) : Nat :=
  (d.lines.take n).foldr (fun l offset ↦ Text.byteLength l + 1 + offset) 0

/-- The byte offset of a column; one behind the end of the line means its end. -/
def offsetAt? (d : Document) (n column : Nat) : Option Nat := do
  let line ← d.line? n
  return d.lineStart n + Text.byteLength (line.take column)

end Document

end PhpInsight

import PhpInsight.Text.Blank
import PhpInsight.Text.Bytes
import PhpInsight.Text.Search
import PhpInsight.Tree

namespace PhpInsight.Grammar

/-- The doc comment that ends a text, blanks aside. The empty comment is none. -/
def trailingDocComment (before : List Char) : Option String := do
  let inside ← Text.dropStop? ['*', '/'] (Text.dropBlanksEnd before)
  let comment := (← Text.fromLast? ['/', '*'] inside) ++ ['*', '/']
  guard (Text.startsWith ['/', '*', '*'] comment && 4 < comment.length)
  return String.ofList comment

/-- The grammar skips comments, so the one of a declaration is looked for in the text in front of
it. -/
def docCommentBefore (source : List Char) (offset : Nat) : Option String :=
  (Text.headBytes? offset source).bind trailingDocComment

def documentMember (source : List Char) (m : Member) : Member :=
  { m with doc := docCommentBefore source m.span.start }

def documentClass (source : List Char) (start : Nat) (d : ClassDecl) : ClassDecl :=
  { d with
    members := d.members.map (documentMember source)
    doc := docCommentBefore source start }

mutual

/-- Adds doc comments to the declarations of a statement, in namespaces and plain blocks too but
not inside other statements. -/
def document (source : List Char) : Stmt → Stmt
  | ⟨.classLike d, span⟩ => ⟨.classLike (documentClass source span.start d), span⟩
  | ⟨.function d, span⟩ =>
    ⟨.function { d with doc := docCommentBefore source span.start }, span⟩
  | ⟨.namespace name (some body), span⟩ =>
    ⟨.namespace name (some (documentAll source body)), span⟩
  | ⟨.block body, span⟩ => ⟨.block (documentAll source body), span⟩
  | s => s

def documentAll (source : List Char) : List Stmt → List Stmt
  | [] => []
  | s :: ss => document source s :: documentAll source ss

end

end PhpInsight.Grammar

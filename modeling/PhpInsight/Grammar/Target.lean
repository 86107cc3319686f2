import PhpInsight.Grammar.File

namespace PhpInsight.Grammar

open Peg Peg.Parser

def isAsciiBlank (c : Char) : Bool :=
  c = ' ' || c = '\t' || c = '\n' || c = '\x0c' || c = '\r'

def isChainChar (c : Char) : Bool :=
  c.isAlphanum || c = '_' || 0x80 ≤ c.toNat || c = '$' || c = '\\'

def isOpener (c : Char) : Bool := c = '(' || c = '['

def isCloser (c : Char) : Bool := c = ')' || c = ']'

def continuesChain (cs : List Char) : Bool :=
  let next := cs.dropWhile isAsciiBlank
  Text.startsWith ['-', '>'] next || Text.startsWith ['?', '-', '>'] next ||
    Text.startsWith [':', ':'] next

/-- The chain that ends a text given backwards, in front of the characters already found to be in
it. Brackets are crossed as whole groups; inside a group `depth` counts those still open, and a
group that does not open has no chain. Blanks are crossed only before a member operator. -/
def chainBefore : (depth : Nat) → (before chain : List Char) → Option (List Char)
  | 0, [], chain => some chain
  | _ + 1, [], _ => none
  | d + 1, c :: before, chain =>
    let depth := if isCloser c then d + 2 else if isOpener c then d else d + 1
    chainBefore depth before (c :: chain)
  | 0, '>' :: '-' :: '?' :: before, chain => chainBefore 0 before ('?' :: '-' :: '>' :: chain)
  | 0, '>' :: '-' :: before, chain => chainBefore 0 before ('-' :: '>' :: chain)
  | 0, ':' :: ':' :: before, chain => chainBefore 0 before (':' :: ':' :: chain)
  | 0, c :: before, chain =>
    if isChainChar c then chainBefore 0 before (c :: chain)
    else if isCloser c then chainBefore 1 before (c :: chain)
    else if isAsciiBlank c && continuesChain chain then chainBefore 0 before (c :: chain)
    else some chain

def targetHead (g : Rules) : Parser Expr := primary g <|> constExpr name

def unfinishedMember (e : Expr) : Parser Expr :=
  let missing (offset : Nat) : Identifier := ⟨"", ⟨offset, offset⟩⟩
  let instanceMember : Parser Expr := do
    let nullsafe ← memberOperator
    let stop ← position
    return ⟨.propertyFetch e (missing stop) nullsafe, ⟨e.span.start, stop⟩⟩
  let staticProperty : Parser Expr := do
    literal "::"
    let start ← position
    literal "$"
    let stop ← position
    return ⟨.staticPropertyFetch (classRefOf e) ⟨"", ⟨start, stop⟩⟩, ⟨e.span.start, stop⟩⟩
  let staticMember : Parser Expr := do
    literal "::"
    let stop ← position
    return ⟨.classConstFetch (classRefOf e) (missing stop), ⟨e.span.start, stop⟩⟩
  instanceMember <|> staticProperty <|> staticMember

def target (g : Rules) : Parser Expr := do
  trivia
  let finished ← suffixes g (← targetHead g)
  let unfinished ← optionalAfter (unfinishedMember finished)
  trivia
  endOfText
  return unfinished.getD finished

/-- Spans of the result are positions in the whole source. -/
def completionTarget (source : List Char) (cursor : Nat) : Option Expr := do
  let before ← Text.headBytes? cursor source
  let chain ← chainBefore 0 before.reverse []
  guard !chain.isEmpty
  (target (.forText chain) ⟨chain, cursor - Text.byteLength chain⟩).value?

end PhpInsight.Grammar

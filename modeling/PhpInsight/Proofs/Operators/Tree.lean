import PhpInsight.Grammar.Operator
import PhpInsight.Proofs.Reading.Lexical

namespace PhpInsight

open Grammar

def conditionalRank : Nat := 3

/-- All operators in one order: the levels of the symbols follow the conditional. -/
def rankOfLevel (level : Nat) : Nat := level + (conditionalRank + 1)

/-- An operator between two operands, with the ranks that these need without parentheses. -/
structure Fixity where
  rank : Nat
  left : Nat
  right : Nat
  spellings : List String
  deriving DecidableEq

def Grammar.WordOperator.fixity (o : WordOperator) : Fixity :=
  ⟨o.level, o.level, o.level + 1, [o.word]⟩

def Grammar.InfixOperator.leftLevel (o : InfixOperator) : Nat :=
  match o.associativity with
  | .left => o.level
  | .right => o.level + 1

def Grammar.InfixOperator.fixity (o : InfixOperator) : Fixity :=
  ⟨rankOfLevel o.level, rankOfLevel o.leftLevel, rankOfLevel o.rightLevel, o.spellings⟩

def symbolOperators : List InfixOperator := looseOperators ++ tightOperators

def BinaryOp.fixity (op : BinaryOp) : Fixity :=
  match wordOperators.find? (·.op = op), symbolOperators.find? (·.op = op) with
  | some o, _ => o.fixity
  | none, some o => o.fixity
  | none, none => ⟨0, 0, 0, []⟩

theorem BinaryOp.fixity_eq (op : BinaryOp) :
    (∃ o ∈ wordOperators, o.op = op ∧ op.fixity = o.fixity) ∨
      ∃ o ∈ symbolOperators, o.op = op ∧ op.fixity = o.fixity := by
  cases op <;> decide

def BinaryOp.spelling (op : BinaryOp) : String := op.fixity.spellings.headD ""

theorem BinaryOp.spelling_mem (op : BinaryOp) : op.spelling ∈ op.fixity.spellings := by
  cases op <;> decide

inductive Sign
  | not
  | minus
  | plus
  | bitwiseNot
  deriving DecidableEq

namespace Sign

def op : Sign → UnaryOp
  | not => .not
  | minus => .minus
  | plus => .plus
  | bitwiseNot => .bitwiseNot

def mark : Sign → Char
  | not => '!'
  | minus => '-'
  | plus => '+'
  | bitwiseNot => '~'

def level : Sign → Nat
  | not => Level.negation
  | _ => Level.sign

end Sign

inductive OpTree
  | «variable» (name : String)
  | binary (op : BinaryOp) (left right : OpTree)
  | ternary (condition consequent alternative : OpTree)
  /-- Without a middle part. -/
  | shortTernary (condition alternative : OpTree)
  | instanceOf (operand : OpTree) (full : Bool) (className : List String)
  | sign (s : Sign) (operand : OpTree)

namespace OpTree

def rank : OpTree → Nat
  | «variable» _ => rankOfLevel (Level.step + 1)
  | binary op _ _ => op.fixity.rank
  | ternary _ _ _ | shortTernary _ _ => conditionalRank
  | instanceOf _ _ _ => rankOfLevel Level.instanceOf
  | sign s _ => rankOfLevel s.level

/-- A text in parentheses where its operator binds looser than it must. -/
def fence (required own : Nat) (text : List Char) : List Char :=
  if own < required then '(' :: (text ++ [')']) else text

/-- How a tree is written when each operator has a spelling. -/
def text (spell : BinaryOp → String) : OpTree → List Char
  | «variable» name => '$' :: name.toList
  | binary op left right =>
    fence op.fixity.left left.rank (left.text spell) ++
      (' ' :: ((spell op).toList ++ [' ']) ++ fence op.fixity.right right.rank (right.text spell))
  | ternary condition consequent alternative =>
    fence (conditionalRank + 1) condition.rank (condition.text spell) ++
      (" ? ".toList ++ (consequent.text spell ++
        (" : ".toList ++ fence conditionalRank alternative.rank (alternative.text spell))))
  | shortTernary condition alternative =>
    fence (conditionalRank + 1) condition.rank (condition.text spell) ++
      (" ?: ".toList ++ fence conditionalRank alternative.rank (alternative.text spell))
  | instanceOf operand full className =>
    fence (rankOfLevel Level.instanceOf) operand.rank (operand.text spell) ++
      (" instanceof ".toList ++ pathText full className)
  | sign s operand =>
    s.mark :: fence (rankOfLevel (s.level + 1)) operand.rank (operand.text spell)

/-- Variables and class names are made of words, and a class name does not start with a reserved
one unless it has a leading backslash. -/
def isValid : OpTree → Bool
  | «variable» name => isWordText name.toList
  | binary _ left right => left.isValid && right.isValid
  | ternary condition consequent alternative =>
    condition.isValid && consequent.isValid && alternative.isValid
  | shortTernary condition alternative => condition.isValid && alternative.isValid
  | instanceOf operand full className =>
    operand.isValid && isPathOfWords className && startsPlain full className
  | sign _ operand => operand.isValid

/-- An expression is the tree, wherever its parts stand. -/
def Is : OpTree → Expr → Prop
  | «variable» name, e => e.kind = .variable name
  | binary op left right, e => ∃ l r, e.kind = .binary op l r ∧ left.Is l ∧ right.Is r
  | ternary condition consequent alternative, e =>
    ∃ c m a, e.kind = .ternary c (some m) a ∧ condition.Is c ∧ consequent.Is m ∧ alternative.Is a
  | shortTernary condition alternative, e =>
    ∃ c a, e.kind = .ternary c none a ∧ condition.Is c ∧ alternative.Is a
  | instanceOf operand full className, e =>
    ∃ o span, e.kind = .instanceOf o (.named (.ofParts full className span)) ∧ operand.Is o
  | sign s operand, e => ∃ o, e.kind = .unary s.op o ∧ operand.Is o

/-- Parentheses around an expression only widen its span. -/
theorem Is.congr {t : OpTree} {e e' : Expr} (h : t.Is e) (hk : e'.kind = e.kind) : t.Is e' := by
  cases t <;> simpa only [Is, hk] using h

end OpTree

end PhpInsight

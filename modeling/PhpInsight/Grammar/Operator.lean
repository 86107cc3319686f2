import PhpInsight.Tree

namespace PhpInsight.Grammar

inductive Associativity
  | left
  | right
  deriving DecidableEq

/-- An operator written between its operands in one of some spellings, none of which counts when
a character of `notBefore` follows. -/
structure InfixOperator where
  level : Nat
  spellings : List String
  notBefore : List Char := []
  associativity : Associativity := .left
  op : BinaryOp

structure WordOperator where
  level : Nat
  word : String
  op : BinaryOp

/-- The word operators bind less tightly than the conditional `? :`. -/
def wordOperators : List WordOperator :=
  [⟨0, "or", .logicalOr⟩, ⟨1, "xor", .logicalXor⟩, ⟨2, "and", .logicalAnd⟩]

namespace Level

def throw : Nat := 0

def negation : Nat := 13

def instanceOf : Nat := 14

def sign : Nat := 15

def step : Nat := 17

end Level

/-- The operators by how tightly they bind, the loosest first, up to `instanceof`. Spellings are
tried in the order of the list. -/
def looseOperators : List InfixOperator :=
  [{ level := 1, spellings := ["??"], notBefore := ['='], associativity := .right,
      op := .coalesce },
    { level := 2, spellings := ["||"], op := .booleanOr },
    { level := 3, spellings := ["&&"], op := .booleanAnd },
    { level := 4, spellings := ["|"], notBefore := ['|', '='], op := .bitwiseOr },
    { level := 5, spellings := ["^"], notBefore := ['='], op := .bitwiseXor },
    { level := 6, spellings := ["&"], notBefore := ['&', '='], op := .bitwiseAnd },
    { level := 7, spellings := ["==="], op := .identical },
    { level := 7, spellings := ["!=="], op := .notIdentical },
    { level := 7, spellings := ["=="], op := .equal },
    { level := 7, spellings := ["!=", "<>"], op := .notEqual },
    { level := 7, spellings := ["<=>"], op := .spaceship },
    { level := 8, spellings := ["<="], op := .lessOrEqual },
    { level := 8, spellings := [">="], op := .greaterOrEqual },
    { level := 8, spellings := ["<"], notBefore := ['<'], op := .less },
    { level := 8, spellings := [">"], notBefore := ['>'], op := .greater },
    { level := 9, spellings := ["."], notBefore := ['.', '='], op := .concat },
    { level := 10, spellings := ["<<"], notBefore := ['='], op := .shiftLeft },
    { level := 10, spellings := [">>"], notBefore := ['='], op := .shiftRight },
    { level := 11, spellings := ["+"], notBefore := ['+', '='], op := .plus },
    { level := 11, spellings := ["-"], notBefore := ['-', '=', '>'], op := .minus },
    { level := 12, spellings := ["*"], notBefore := ['*', '='], op := .mul },
    { level := 12, spellings := ["/"], notBefore := ['/', '*', '='], op := .div },
    { level := 12, spellings := ["%"], notBefore := ['='], op := .mod }]

def tightOperators : List InfixOperator :=
  [{ level := 16, spellings := ["**"], notBefore := ['='], associativity := .right, op := .pow }]

/-- The loosest level a right operand may have without parentheses. -/
def InfixOperator.rightLevel (o : InfixOperator) : Nat :=
  match o.associativity with
  | .left => o.level + 1
  | .right => o.level

def signOperators : List (String × UnaryOp) :=
  [("++", .preIncrement), ("--", .preDecrement), ("-", .minus), ("+", .plus),
    ("~", .bitwiseNot), ("@", .silence)]

def stepOperators : List (String × UnaryOp) :=
  [("++", .postIncrement), ("--", .postDecrement)]

def compoundOperators : List (String × BinaryOp) :=
  [("??=", .coalesce), ("**=", .pow), ("<<=", .shiftLeft), (">>=", .shiftRight), (".=", .concat),
    ("+=", .plus), ("-=", .minus), ("*=", .mul), ("/=", .div), ("%=", .mod),
    ("&=", .bitwiseAnd), ("|=", .bitwiseOr), ("^=", .bitwiseXor)]

end PhpInsight.Grammar

namespace PhpInsight

/-- Where a text stops being a file, with what could have followed there. -/
structure SyntaxError where
  line : Nat
  column : Nat
  offset : Nat
  expected : String

def SyntaxError.message (e : SyntaxError) : String :=
  "syntax error at line " ++ toString e.line ++ ", column " ++ toString e.column ++
    ": expected " ++ e.expected

end PhpInsight

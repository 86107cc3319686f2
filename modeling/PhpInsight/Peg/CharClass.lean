namespace PhpInsight.Peg

/-- A set of characters as a grammar writes it: a list of ranges, possibly negated. -/
structure CharClass where
  negated : Bool
  ranges : List (Char × Char)
  deriving DecidableEq

namespace CharClass

def ofRanges (ranges : List (Char × Char)) : CharClass := ⟨false, ranges⟩

def ofChars (cs : List Char) : CharClass := ⟨false, cs.map fun c ↦ (c, c)⟩

def compl (k : CharClass) : CharClass := { k with negated := !k.negated }

def any : CharClass := ⟨true, []⟩

def contains (k : CharClass) (c : Char) : Bool :=
  k.negated != k.ranges.any fun r ↦ r.1 ≤ c && c ≤ r.2

end CharClass

def escapeChar (quote c : Char) : String :=
  if c = '\t' then "\\t"
  else if c = '\n' then "\\n"
  else if c = '\r' then "\\r"
  else if c = '\\' then "\\\\"
  else if c = quote then "\\" ++ String.singleton quote
  else if c.toNat < 0x80 then String.singleton c
  else "\\u\x7b" ++ String.ofList (Nat.toDigits 16 c.toNat) ++ "\x7d"

def quoteChar (c : Char) : String := "'" ++ escapeChar '\'' c ++ "'"

def quoteText (text : String) : String :=
  "\"" ++ text.toList.foldr (fun c t ↦ escapeChar '"' c ++ t) "\""

namespace CharClass

/-- `['a'..='z' | '_']`, `[^ '\'' | '\\']`, or `[_]` for the class of all characters. -/
def describe (k : CharClass) : String :=
  let range (r : Char × Char) : String :=
    if r.1 = r.2 then quoteChar r.1 else quoteChar r.1 ++ "..=" ++ quoteChar r.2
  let ranges := " | ".intercalate (k.ranges.map range)
  if k.ranges.isEmpty && k.negated then "[_]"
  else if k.negated then "[^ " ++ ranges ++ "]"
  else "[" ++ ranges ++ "]"

end CharClass

end PhpInsight.Peg

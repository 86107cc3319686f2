namespace PhpInsight.Text

def blankRanges : List (Nat × Nat) :=
  [(0x09, 0x0D), (0x20, 0x20), (0x85, 0x85), (0xA0, 0xA0), (0x1680, 0x1680), (0x2000, 0x200A),
    (0x2028, 0x2029), (0x202F, 0x202F), (0x205F, 0x205F), (0x3000, 0x3000)]

/-- The characters with the White_Space property of the Unicode standard. -/
def isBlank (c : Char) : Bool :=
  blankRanges.any fun r ↦ r.1 ≤ c.toNat && c.toNat ≤ r.2

def dropBlanks (cs : List Char) : List Char := cs.dropWhile isBlank

def dropEnd (p : Char → Bool) (cs : List Char) : List Char := (cs.reverse.dropWhile p).reverse

def dropBlanksEnd (cs : List Char) : List Char := dropEnd isBlank cs

def trimChars (cs : List Char) : List Char := dropBlanksEnd (dropBlanks cs)

def splitBy (p : Char → Bool) : List Char → List (List Char)
  | [] => [[]]
  | c :: cs =>
    if p c then [] :: splitBy p cs
    else match splitBy p cs with
      | [] => [[c]]
      | w :: ws => (c :: w) :: ws

def words (cs : List Char) : List (List Char) :=
  (splitBy isBlank cs).filter fun w ↦ !w.isEmpty

/-- What stands before and after the first character that satisfies `p`, without it. -/
def splitFirst? (p : Char → Bool) : List Char → Option (List Char × List Char)
  | [] => none
  | c :: cs => if p c then some ([], cs) else (splitFirst? p cs).map fun r ↦ (c :: r.1, r.2)

end PhpInsight.Text

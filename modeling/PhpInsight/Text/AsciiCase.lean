namespace PhpInsight.Text

/-- Letter case as class, method and keyword names ignore it: the letters `A` to `Z` only. -/
def lowerChars (cs : List Char) : List Char := cs.map Char.toLower

def lower (s : String) : String := String.ofList (lowerChars s.toList)

def sameIgnoringCase (s t : String) : Bool := lowerChars s.toList == lowerChars t.toList

theorem sameIgnoringCase_iff {s t : String} :
    sameIgnoringCase s t = true ↔ lower s = lower t := by
  simp [sameIgnoringCase, lower, String.ofList_inj]

end PhpInsight.Text

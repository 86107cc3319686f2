namespace PhpInsight.Text

def dropStart? : List Char → List Char → Option (List Char)
  | [], cs => some cs
  | _ :: _, [] => none
  | t :: ts, c :: cs => if t = c then dropStart? ts cs else none

def startsWith (start cs : List Char) : Bool := start.isPrefixOf cs

def dropStop? (stop cs : List Char) : Option (List Char) :=
  (dropStart? stop.reverse cs.reverse).map List.reverse

def fromLast? (piece : List Char) : List Char → Option (List Char)
  | [] => if piece.isEmpty then some [] else none
  | c :: cs =>
    match fromLast? piece cs with
    | some found => some found
    | none => if startsWith piece (c :: cs) then some (c :: cs) else none

def splitAround? (piece : List Char) : List Char → Option (List Char × List Char)
  | [] => if piece.isEmpty then some ([], []) else none
  | c :: cs =>
    match dropStart? piece (c :: cs) with
    | some rest => some ([], rest)
    | none => (splitAround? piece cs).map fun r ↦ (c :: r.1, r.2)

theorem dropStart?_append (ts cs : List Char) : dropStart? ts (ts ++ cs) = some cs := by
  induction ts with
  | nil => simp [dropStart?]
  | cons t ts ih => simp [dropStart?, ih]

theorem eq_append_of_dropStart? {ts cs ds : List Char} (h : dropStart? ts cs = some ds) :
    cs = ts ++ ds := by
  induction ts generalizing cs with
  | nil => simpa [dropStart?] using h
  | cons t ts ih =>
    cases cs with
    | nil => simp [dropStart?] at h
    | cons c cs =>
      by_cases ht : t = c
      · subst ht
        simp only [dropStart?, if_true] at h
        simp [ih h]
      · simp [dropStart?, ht] at h

end PhpInsight.Text

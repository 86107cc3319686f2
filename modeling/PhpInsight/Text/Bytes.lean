namespace PhpInsight.Text

/-- Positions in a text count the bytes of its UTF-8 form, so only some of them fall between two
characters. -/
def byteLength : List Char → Nat
  | [] => 0
  | c :: cs => c.utf8Size + byteLength cs

/-- The longest run of leading characters that fits into `n` bytes. -/
def takeBytes : Nat → List Char → List Char
  | _, [] => []
  | n, c :: cs => if c.utf8Size ≤ n then c :: takeBytes (n - c.utf8Size) cs else []

def dropBytes? : Nat → List Char → Option (List Char)
  | 0, cs => some cs
  | _ + 1, [] => none
  | n + 1, c :: cs => if c.utf8Size ≤ n + 1 then dropBytes? (n + 1 - c.utf8Size) cs else none

def headBytes? (n : Nat) (cs : List Char) : Option (List Char) :=
  (dropBytes? n cs).map fun _ ↦ takeBytes n cs

def slice? (start stop : Nat) (cs : List Char) : Option (List Char) :=
  if start ≤ stop then (dropBytes? start cs).bind (headBytes? (stop - start)) else none

@[simp] theorem byteLength_append (cs ds : List Char) :
    byteLength (cs ++ ds) = byteLength cs + byteLength ds := by
  induction cs with
  | nil => simp [byteLength]
  | cons c cs ih => simp [byteLength, ih, Nat.add_assoc]

@[simp] theorem byteLength_replicate (n : Nat) (c : Char) :
    byteLength (List.replicate n c) = n * c.utf8Size := by
  induction n with
  | zero => simp [byteLength]
  | succ n ih => simp [List.replicate_succ, byteLength, ih, Nat.add_mul, Nat.add_comm]

theorem dropBytes?_append (cs ds : List Char) :
    dropBytes? (byteLength cs) (cs ++ ds) = some ds := by
  induction cs with
  | nil => simp [byteLength, dropBytes?]
  | cons c cs ih =>
    have hc : 0 < c.utf8Size := c.utf8Size_pos
    obtain ⟨n, hn⟩ : ∃ n, c.utf8Size + byteLength cs = n + 1 :=
      ⟨c.utf8Size + byteLength cs - 1, by omega⟩
    have hs : c.utf8Size ≤ n + 1 := by omega
    have hd : n + 1 - c.utf8Size = byteLength cs := by omega
    simp only [byteLength, hn, List.cons_append, dropBytes?, hs, if_true, hd, ih]

theorem takeBytes_of_dropBytes? {n : Nat} {cs rest : List Char}
    (h : dropBytes? n cs = some rest) :
    takeBytes n cs ++ rest = cs ∧ byteLength (takeBytes n cs) = n := by
  induction n, cs using dropBytes?.induct with
  | case1 cs =>
    obtain rfl : cs = rest := by simpa [dropBytes?] using h
    cases cs with
    | nil => exact ⟨rfl, rfl⟩
    | cons c cs =>
      have hc : ¬ c.utf8Size ≤ 0 := by
        have := c.utf8Size_pos
        omega
      simp [takeBytes, hc, byteLength]
  | case2 n => simp [dropBytes?] at h
  | case3 n c cs hc ih =>
    rw [dropBytes?, if_pos hc] at h
    obtain ⟨happend, hlen⟩ := ih h
    rw [takeBytes, if_pos hc, List.cons_append, happend, byteLength, hlen]
    exact ⟨rfl, by omega⟩
  | case4 n c cs hc =>
    rw [dropBytes?, if_neg hc] at h
    cases h

end PhpInsight.Text

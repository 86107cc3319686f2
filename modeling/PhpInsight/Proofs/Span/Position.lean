import PhpInsight.Span
import PhpInsight.Text.Bytes

namespace PhpInsight

namespace Text

def Boundary (cs : List Char) (n : Nat) : Prop :=
  ∃ before after, cs = before ++ after ∧ byteLength before = n

theorem Boundary.le {cs : List Char} {n : Nat} (h : Boundary cs n) : n ≤ byteLength cs := by
  obtain ⟨before, after, rfl, rfl⟩ := h
  rw [byteLength_append]
  omega

theorem append_inj_of_byteLength {as bs cs ds : List Char} (h : as ++ cs = bs ++ ds)
    (hlen : byteLength as = byteLength bs) : as = bs ∧ cs = ds := by
  have hdrop := dropBytes?_append as cs
  rw [h, hlen, dropBytes?_append] at hdrop
  obtain rfl := Option.some.inj hdrop
  exact ⟨List.append_cancel_right h, rfl⟩

theorem split_behind_blanks {n : Nat} {chain front more : List Char}
    (h : List.replicate n ' ' ++ chain = front ++ more) (hle : n ≤ byteLength front) :
    ∃ part, chain = part ++ more ∧ byteLength front = n + byteLength part := by
  have hblanks : byteLength (List.replicate n ' ') = n := by simp [Char.utf8Size]
  rcases List.append_eq_append_iff.mp h with ⟨part, rfl, hpart⟩ | ⟨left, hleft, hmore⟩
  · exact ⟨part, hpart, by rw [byteLength_append, hblanks]⟩
  · have hnone : byteLength left = 0 := by
      have hsum := congrArg byteLength hleft
      rw [byteLength_append, hblanks] at hsum
      omega
    cases left with
    | nil =>
      rw [List.append_nil] at hleft
      exact ⟨[], hmore.symm, by rw [← hleft, hblanks]; rfl⟩
    | cons x xs =>
      have hpos := x.utf8Size_pos
      rw [byteLength] at hnone
      omega

/-- A position that is not inside the word `null`. -/
def Settled (cs : List Char) (n : Nat) : Prop :=
  ∀ before x y after, cs = before ++ x :: y :: after → byteLength before + x.utf8Size = n →
    x ∈ ['n', 'u', 'l'] → y ∉ ['u', 'l']

theorem settled_zero (cs : List Char) : Settled cs 0 := by
  intro before x y after _ h
  have hx := x.utf8Size_pos
  omega

theorem settled_before {before after : List Char} (h : ∀ y ∈ after.head?, y ∉ ['u', 'l']) :
    Settled (before ++ after) (byteLength before) := by
  intro before' x y after' hs hlen _
  have hsplit : before ++ after = (before' ++ [x]) ++ y :: after' := by simpa using hs
  obtain ⟨_, rfl⟩ := append_inj_of_byteLength hsplit (by simp [byteLength, ← hlen])
  exact h y rfl

theorem settled_behind {before after : List Char} {x : Char} (h : x ∉ ['n', 'u', 'l']) :
    Settled (before ++ x :: after) (byteLength before + x.utf8Size) := by
  intro before' x' y after' hs hlen hx
  have hsplit : (before ++ [x]) ++ after = (before' ++ [x']) ++ y :: after' := by simpa using hs
  obtain ⟨hsame, _⟩ := append_inj_of_byteLength hsplit (by simp [byteLength, hlen])
  obtain ⟨_, hlast⟩ := List.append_inj' hsame rfl
  obtain rfl : x = x' := by simpa using hlast
  exact absurd hx h

def isSign (text : String) : Bool := text.toList.getLast?.any fun x ↦ x ∉ ['n', 'u', 'l']

def Dollar (cs : List Char) (s : Span) : Prop :=
  ∃ before after, cs = before ++ '$' :: after ∧ s.start ≤ byteLength before ∧
    byteLength before < s.stop

theorem Dollar.mono {cs : List Char} {s t : Span} (h : Dollar cs s) (hstart : t.start ≤ s.start)
    (hstop : s.stop ≤ t.stop) : Dollar cs t := by
  obtain ⟨before, after, rfl, hlo, hhi⟩ := h
  exact ⟨before, after, rfl, by omega, by omega⟩

end Text

end PhpInsight

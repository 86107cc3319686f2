import PhpInsight.Completion.Repair
import PhpInsight.Proofs.Span.Position

namespace PhpInsight.Completion

open Text

variable {source text : List Char} {start : Nat}

/-- Where the line ends on which a position is. -/
def lineStop (source : List Char) (start : Nat) : Nat :=
  start + byteLength (((dropBytes? start source).getD []).takeWhile (· ≠ '\n'))

theorem mem_closersFrom {due cs : List Char} (hdue : ∀ c ∈ due, c = ')' ∨ c = ']') :
    ∀ c ∈ closersFrom due cs, c = ')' ∨ c = ']' := by
  induction cs generalizing due with
  | nil => exact hdue
  | cons c cs ih =>
    unfold closersFrom
    split
    · exact ih (by simpa using hdue)
    · split
      · exact ih (by simpa using hdue)
      · split
        · exact ih fun d hd ↦ hdue d (List.mem_of_mem_tail hd)
        · exact ih hdue

/-- A complete expression, closing brackets and the end of the statement. -/
def filling (closing : List Char) : List Char := "null".toList ++ closing ++ [';']

theorem filling_eq (closing : List Char) :
    filling closing = "null".toList ++ closing ++ [';'] := rfl

def padding (head rest : List Char) : List Char :=
  List.replicate (byteLength (rest.takeWhile (· ≠ '\n')) -
    byteLength (filling (closers (lastLine head)))) ' '

theorem repair?_append (head rest : List Char) :
    repair? (head ++ rest) (byteLength head) = some (head ++ filling (closers (lastLine head)) ++
      padding head rest ++ rest.dropWhile (· ≠ '\n')) := by
  have htake : takeBytes (byteLength head) (head ++ rest) = head :=
    List.append_cancel_right (takeBytes_of_dropBytes? (dropBytes?_append head rest)).1
  simp only [repair?, headBytes?, dropBytes?_append, htake]
  rfl

theorem repair?_eq_some (h : repair? source start = some text) :
    ∃ head fill tail, text = head ++ ("null".toList ++ fill) ++ tail ∧
      byteLength head = start ∧ '$' ∉ fill ∧
        lineStop source start ≤ start + byteLength ("null".toList ++ fill) := by
  obtain ⟨head, rest, rfl, rfl⟩ : ∃ head rest, source = head ++ rest ∧ byteLength head = start := by
    cases hrest : dropBytes? start source with
    | none => simp [repair?, headBytes?, hrest] at h
    | some rest =>
      obtain ⟨hsource, hhead⟩ := takeBytes_of_dropBytes? hrest
      exact ⟨_, rest, hsource.symm, hhead⟩
  rw [repair?_append] at h
  cases h
  let closing := closers (lastLine head)
  refine ⟨head, closing ++ [';'] ++ padding head rest, rest.dropWhile (· ≠ '\n'), ?_, rfl, ?_, ?_⟩
  · simp only [filling_eq, closing, List.append_assoc]
  · have hdue : ∀ c ∈ ([] : List Char), c = ')' ∨ c = ']' := by simp
    have hclosing : '$' ∉ closing := fun hmem ↦ by
      have hsign := mem_closersFrom hdue _ hmem
      simp at hsign
    simp [hclosing, padding, List.mem_replicate]
  · have hsize : ' '.utf8Size = 1 := by decide
    have hline : lineStop (head ++ rest) (byteLength head) =
        byteLength head + byteLength (rest.takeWhile (· ≠ '\n')) := by
      simp [lineStop, dropBytes?_append]
    simp only [hline, padding, filling_eq, closing, ← List.append_assoc, byteLength_append,
      byteLength_replicate, hsize]
    omega

theorem four_le_of_settled (h : repair? source start = some text) {n : Nat}
    (hn : Settled text n) (hlt : start < n) : start + 4 ≤ n := by
  obtain ⟨head, fill, tail, rfl, rfl, _, _⟩ := repair?_eq_some h
  refine Nat.le_of_not_lt fun hshort ↦ ?_
  have hcases : n = byteLength head + 1 ∨ n = byteLength head + 2 ∨ n = byteLength head + 3 := by
    omega
  rcases hcases with rfl | rfl | rfl
  · exact hn head 'n' 'u' ("ll".toList ++ fill ++ tail) (by simp) rfl (by simp) (by simp)
  · exact hn (head ++ ['n']) 'u' 'l' ("l".toList ++ fill ++ tail) (by simp)
      (by simp [byteLength, Char.utf8Size]) (by simp) (by simp)
  · exact hn (head ++ ['n', 'u']) 'l' 'l' (fill ++ tail) (by simp)
      (by simp [byteLength, Char.utf8Size]) (by simp) (by simp)

theorem le_of_not_mem {head middle tail before after : List Char} {c : Char}
    (h : head ++ middle ++ tail = before ++ c :: after) (hle : byteLength head ≤ byteLength before)
    (hc : c ∉ middle) : byteLength (head ++ middle) ≤ byteLength before := by
  rcases List.append_eq_append_iff.mp h with ⟨between, rfl, _⟩ | ⟨rest, hrest, hsplit⟩
  · rw [byteLength_append (head ++ middle)]
    omega
  · cases rest with
    | nil => exact Nat.le_of_eq (by rw [hrest, List.append_nil])
    | cons x xs =>
      obtain ⟨rfl, _⟩ := List.cons.inj hsplit
      rcases List.append_eq_append_iff.mp hrest with ⟨front, _, rfl⟩ | ⟨back, rfl, hback⟩
      · simp at hc
      · cases back with
        | nil =>
          rw [List.nil_append] at hback
          simp [← hback] at hc
        | cons y ys =>
          have hy := y.utf8Size_pos
          rw [byteLength_append, byteLength] at hle
          omega

theorem lineStop_lt_of_dollar (h : repair? source start = some text) {s : Span}
    (hs : Dollar text s) (hle : start ≤ s.start) : lineStop source start < s.stop := by
  obtain ⟨head, fill, tail, htext, hhead, hfill, hline⟩ := repair?_eq_some h
  obtain ⟨before, after, hsplit, hstart, hstop⟩ := hs
  have hbehind := le_of_not_mem (htext.symm.trans hsplit) (by omega) (by simpa using hfill)
  rw [byteLength_append] at hbehind
  omega

end PhpInsight.Completion

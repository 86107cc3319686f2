import PhpInsight.Proofs.Completion.Replacement
import PhpInsight.Proofs.SideBySide.Brackets
import PhpInsight.Proofs.Text.Utf8

namespace PhpInsight.Completion

open Text Grammar

/-- A text whose round and square brackets are in pairs, one inside or behind another. -/
inductive WellNested : List Char → Prop
  | nil : WellNested []
  | other {x : Char} {cs : List Char} : isOpener x = false → isCloser x = false →
    WellNested cs → WellNested (x :: cs)
  | group {x : Char} {cs ds : List Char} : isOpener x = true → WellNested cs → WellNested ds →
    WellNested (x :: cs ++ closerOf x :: ds)

theorem WellNested.balances {cs : List Char} (h : WellNested cs) (due : List Char) :
    Balances due cs due := by
  induction h generalizing due with
  | nil => exact .stop due
  | other hx hx' _ ih => exact .other hx hx' (ih due)
  | group hx _ _ ihinner ihrest =>
    exact .opener hx ((ihinner _).trans (.closer (isCloser_closerOf _) (ihrest due)))

def Closes : (due : List Char) → List Char → Prop
  | [], cs => WellNested cs
  | x :: due, cs => ∃ inner rest, cs = inner ++ x :: rest ∧ WellNested inner ∧ Closes due rest

namespace Closes

variable {due cs ds : List Char} {x : Char}

theorem other (hx : isOpener x = false) (hx' : isCloser x = false) (h : Closes due cs) :
    Closes due (x :: cs) := by
  cases due with
  | nil => exact .other hx hx' h
  | cons y due =>
    obtain ⟨inner, rest, rfl, hinner, hrest⟩ := h
    exact ⟨x :: inner, rest, rfl, .other hx hx' hinner, hrest⟩

theorem group (hx : isOpener x = true) (hcs : WellNested cs) (h : Closes due ds) :
    Closes due (x :: cs ++ closerOf x :: ds) := by
  cases due with
  | nil => exact .group hx hcs h
  | cons y due =>
    obtain ⟨inner, rest, rfl, hinner, hrest⟩ := h
    exact ⟨x :: cs ++ closerOf x :: inner, rest, by simp, .group hx hcs hinner, hrest⟩

end Closes

theorem Balances.closes {due cs left : List Char} (h : Balances due cs left) (hleft : left = []) :
    Closes due cs := by
  induction h with
  | stop =>
    subst hleft
    exact .nil
  | opener hx _ ih =>
    obtain ⟨inner, rest, rfl, hinner, hrest⟩ := ih hleft
    exact hrest.group hx hinner
  | closer _ _ ih => exact ⟨[], _, rfl, .nil, ih hleft⟩
  | other hx hx' _ ih => exact (ih hleft).other hx hx'

theorem wellNested_iff {cs : List Char} : WellNested cs ↔ Balances [] cs [] :=
  ⟨fun h ↦ h.balances [], fun h ↦ h.closes rfl⟩

namespace Balances

variable {due cs left : List Char}

theorem isCloser (h : Balances due cs left) (hdue : ∀ x ∈ due, isCloser x = true) :
    ∀ x ∈ left, Grammar.isCloser x = true := by
  rw [← h.closersFrom_eq hdue]
  intro x hx
  exact isCloser_iff.mpr (mem_closersFrom (fun y hy ↦ isCloser_iff.mp (hdue y hy)) x hx)

theorem refl (h : ∀ x ∈ due, Grammar.isCloser x = true) : Balances due due [] := by
  induction due with
  | nil => exact .stop []
  | cons x due ih =>
    obtain ⟨hx, hdue⟩ := List.forall_mem_cons.mp h
    exact .closer hx (ih hdue)

end Balances

/-- Where the brackets can be closed at all, the closing brackets close them, and no others do. -/
theorem wellNested_append_iff {text : List Char} (h : ∃ more, WellNested (text ++ more))
    (cs : List Char) :
    (∀ x ∈ cs, isCloser x = true) ∧ WellNested (text ++ cs) ↔ cs = closers text := by
  obtain ⟨more, hmore⟩ := h
  obtain ⟨due, htext, -⟩ := (wellNested_iff.mp hmore).of_append
  have hdue := htext.isCloser (List.forall_mem_nil _)
  have hclosers : closers text = due := htext.closersFrom_eq (List.forall_mem_nil _)
  constructor
  · rintro ⟨hcs, hnested⟩
    obtain ⟨due', htext', hrest⟩ := (wellNested_iff.mp hnested).of_append
    rw [closers, htext'.closersFrom_eq (List.forall_mem_nil _), hrest.eq_due hcs]
  · rintro rfl
    rw [hclosers]
    exact ⟨hdue, wellNested_iff.mpr (htext.trans (.refl hdue))⟩

/-- The bytes up to one position and from another one on are kept, these `shift` further on. -/
structure KeptAround (source text : List Char) (start stop shift : Nat) : Prop where
  before (i : Nat) : i < start → (utf8 text)[i]? = (utf8 source)[i]?
  behind (i : Nat) : stop ≤ i → (utf8 text)[i + shift]? = (utf8 source)[i]?

theorem keptAround_append (head line inserted tail : List Char)
    (h : byteLength line ≤ byteLength inserted) :
    KeptAround (head ++ line ++ tail) (head ++ inserted ++ tail) (byteLength head)
      (byteLength (head ++ line)) (byteLength inserted - byteLength line) := by
  constructor
  · intro i hi
    rw [← length_utf8] at hi
    simp only [List.append_assoc, utf8_append, List.getElem?_append_left hi]
  · intro i hi
    rw [byteLength_append] at hi
    rw [utf8_append, utf8_append _ tail, List.getElem?_append_right, List.getElem?_append_right]
    · congr 1
      simp only [length_utf8, byteLength_append]
      omega
    · rw [length_utf8, byteLength_append]
      exact hi
    · rw [length_utf8, byteLength_append]
      omega

theorem byteLength_padded (head rest : List Char) :
    byteLength (filler (lastLine head) ++ padding head rest) =
      max (byteLength (filler (lastLine head))) (byteLength (rest.takeWhile (· ≠ '\n'))) := by
  have hfiller : filling (closers (lastLine head)) = filler (lastLine head) := rfl
  have hsize : ' '.utf8Size = 1 := by decide
  rw [byteLength_append, padding, byteLength_replicate, hsize, hfiller]
  omega

theorem keptAround_of_boundary {source : List Char} {start : Nat} (h : Boundary source start) :
    ∃ repaired, repair? source start = some repaired ∧
      KeptAround source repaired start (lineStop source start)
        (byteLength (filler (lastLine (takeBytes start source))) -
          (lineStop source start - start)) := by
  obtain ⟨head, rest, rfl, rfl⟩ := h
  have hstop : lineStop (head ++ rest) (byteLength head) =
      byteLength (head ++ rest.takeWhile (· ≠ '\n')) := by
    rw [lineStop, dropBytes?_append, byteLength_append]
    rfl
  have hpadded := byteLength_padded head rest
  have hkept := keptAround_append head (rest.takeWhile (· ≠ '\n'))
    (filler (lastLine head) ++ padding head rest) (rest.dropWhile (· ≠ '\n')) (by omega)
  rw [List.append_assoc head, List.takeWhile_append_dropWhile, ← hstop] at hkept
  refine ⟨_, repair?_append head rest, ?_⟩
  rw [Peg.Parser.Consumes.takeBytes_byteLength]
  have hshift : byteLength (filler (lastLine head)) -
      (lineStop (head ++ rest) (byteLength head) - byteLength head) =
      byteLength (filler (lastLine head) ++ padding head rest) -
        byteLength (rest.takeWhile (· ≠ '\n')) := by
    rw [hstop, hpadded, byteLength_append]
    omega
  rw [hshift, List.append_assoc head]
  exact hkept

/-- Where a text can be closed, there is one way to do so. And a repair keeps the bytes in front of
its start and from the end of the line on, these at their positions if the line is as long as what
is put in, and otherwise moved by what it lacks. -/
theorem repaired_keeps (text source : List Char) (start : Nat) :
    ((∃ more, WellNested (text ++ more)) → ∀ cs,
      (∀ x ∈ cs, isCloser x = true) ∧ WellNested (text ++ cs) ↔ cs = closers text) ∧
    (Boundary source start → ∃ repaired, repair? source start = some repaired ∧
      let inserted := byteLength (filler (lastLine (takeBytes start source)))
      let line := lineStop source start - start
      (inserted ≤ line → KeptAround source repaired start (lineStop source start) 0) ∧
        (line < inserted →
          KeptAround source repaired start (lineStop source start) (inserted - line))) := by
  refine ⟨wellNested_append_iff, fun hstart ↦ ?_⟩
  obtain ⟨repaired, hrepaired, hkept⟩ := keptAround_of_boundary hstart
  refine ⟨repaired, hrepaired, fun hle ↦ ?_, fun _ ↦ hkept⟩
  rwa [Nat.sub_eq_zero_of_le hle] at hkept

theorem repaired_keeps_short :
    closers ['f', '(', '[', 'g', '(', ')', ','] = [']', ')'] ∧
      ∃ repaired, repair? "<?php\nf([$a->\n$b;".toList 9 = some repaired ∧
        KeptAround "<?php\nf([$a->\n$b;".toList repaired 9 13 3 := by
  have hnested : WellNested ['f', '(', '[', 'g', '(', ')', ',', ']', ')'] :=
    wellNested_iff.mpr <| .other rfl rfl <| .opener rfl <| .opener rfl <| .other rfl rfl <|
      .opener rfl <| .closer rfl <| .other rfl rfl <| .closer rfl <| .closer rfl <| .stop []
  have hclosers : ∀ x ∈ [']', ')'], isCloser x = true := List.all_iff_forall_prop.mp (by decide)
  have hstart : Boundary "<?php\nf([$a->\n$b;".toList 9 :=
    ⟨"<?php\nf([".toList, "$a->\n$b;".toList, by decide, by decide⟩
  obtain ⟨hcloses, hkeeps⟩ :=
    repaired_keeps ['f', '(', '[', 'g', '(', ')', ','] "<?php\nf([$a->\n$b;".toList 9
  obtain ⟨repaired, hrepaired, -, hshort⟩ := hkeeps hstart
  have hstop : lineStop "<?php\nf([$a->\n$b;".toList 9 = 13 := by decide +kernel
  have hinserted :
      byteLength (filler (lastLine (takeBytes 9 "<?php\nf([$a->\n$b;".toList))) = 7 := by
    decide +kernel
  rw [hstop, hinserted] at hshort
  exact ⟨((hcloses ⟨_, hnested⟩ _).mp ⟨hclosers, hnested⟩).symm, repaired, hrepaired,
    hshort (by decide)⟩

end PhpInsight.Completion

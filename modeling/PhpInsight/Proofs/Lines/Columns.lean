import Mathlib.Data.List.DropRight
import PhpInsight.Proofs.Lines.Splitting
import PhpInsight.Proofs.Span.Quoting

namespace PhpInsight

namespace Text

variable {p : Char → Bool} {cs ds : List Char}

theorem dropEnd_eq_rdropWhile (p : Char → Bool) (cs : List Char) :
    dropEnd p cs = cs.rdropWhile p := rfl

theorem dropEnd_append (cs ds : List Char) :
    dropEnd p (cs ++ ds) = if (dropEnd p ds).isEmpty then dropEnd p cs else cs ++ dropEnd p ds := by
  simp only [dropEnd, List.reverse_append, List.dropWhile_append, List.isEmpty_reverse]
  split <;> simp

theorem trimChars_concat {c : Char} (hc : isBlank c = true) (cs : List Char) :
    trimChars (cs ++ [c]) = trimChars cs := by
  have hdrop : [c].dropWhile isBlank = [] := by simp [hc]
  simp only [trimChars, dropBlanks, List.dropWhile_append, hdrop, dropBlanksEnd,
    dropEnd_eq_rdropWhile]
  split
  next hempty => rw [List.isEmpty_iff.mp hempty]
  next => rw [List.rdropWhile_concat_pos isBlank _ c hc]

theorem dropBlanksEnd_eq (cs : List Char) :
    dropBlanksEnd cs =
      if (trimChars cs).isEmpty then [] else cs.takeWhile isBlank ++ trimChars cs := by
  have hblank : dropBlanksEnd (cs.takeWhile isBlank) = [] :=
    List.rdropWhile_eq_nil_iff.mpr fun c hc ↦ List.mem_takeWhile_imp hc
  rw [← hblank]
  calc dropBlanksEnd cs
      = dropBlanksEnd (cs.takeWhile isBlank ++ dropBlanks cs) := by
        rw [dropBlanks, List.takeWhile_append_dropWhile]
    _ = _ := dropEnd_append _ _

theorem dropCarriageReturn_eq (line : List Char) :
    dropCarriageReturn line = line ∨ line = dropCarriageReturn line ++ ['\r'] := by
  cases h : dropStop? ['\r'] line with
  | none => exact .inl (by rw [dropCarriageReturn, h, Option.getD_none])
  | some text =>
    obtain ⟨rest, hrest, rfl⟩ := Option.map_eq_some_iff.mp h
    have hline := congrArg List.reverse (eq_append_of_dropStart? hrest)
    refine .inr ?_
    rw [dropCarriageReturn, h]
    simpa using hline

theorem prefix_dropCarriageReturn (line : List Char) : dropCarriageReturn line <+: line := by
  obtain h | h := dropCarriageReturn_eq line
  · exact ⟨[], by rw [h, List.append_nil]⟩
  · exact ⟨['\r'], h.symm⟩

theorem trimChars_dropCarriageReturn (line : List Char) :
    trimChars (dropCarriageReturn line) = trimChars line := by
  obtain h | h := dropCarriageReturn_eq line
  · rw [h]
  · conv_rhs => rw [h, trimChars_concat (by decide)]

theorem blanks_append_trimChars {line : List Char} (h : trimChars line ≠ []) :
    (dropCarriageReturn line).takeWhile isBlank ++ trimChars line <+: dropCarriageReturn line := by
  have hend := dropBlanksEnd_eq (dropCarriageReturn line)
  rw [trimChars_dropCarriageReturn, if_neg (by simpa using h)] at hend
  rw [← hend]
  exact List.rdropWhile_prefix _ _

theorem length_le_of_take_eq {left rest t : List Char} {c : Char} {i j : Nat}
    (hleft : ∀ b ∈ left, isBlank b = true) (hc : isBlank c = false)
    (h : (left ++ rest).take j = (left ++ rest).take i ++ c :: t) : left.length ≤ i := by
  by_contra hcontra
  have hlt : i < left.length := Nat.lt_of_not_le hcontra
  have hstarts : (left ++ rest).take i ++ c :: t <+: left ++ rest := h ▸ List.take_prefix j _
  rw [List.take_append_of_le_length (Nat.le_of_lt hlt)] at hstarts
  nth_rewrite 2 [← List.take_append_drop i left] at hstarts
  rw [List.append_assoc, List.prefix_append_right_inj, List.drop_eq_getElem_cons hlt,
    List.cons_append, List.cons_prefix_cons] at hstarts
  have hblank := hleft c (hstarts.1 ▸ List.getElem_mem hlt)
  rw [hc] at hblank
  cases hblank

theorem eq_of_slice? {a b : Nat} {text : List Char} (h : slice? a b cs = some text) :
    ∃ x y, cs = x ++ (text ++ y) ∧ byteLength x = a ∧ byteLength (x ++ text) = b := by
  rw [slice?] at h
  split at h
  next hle =>
    obtain ⟨rest, hrest, htext⟩ := Option.bind_eq_some_iff.mp h
    obtain ⟨y, hy, rfl⟩ := Option.map_eq_some_iff.mp htext
    obtain ⟨hcs, ha⟩ := takeBytes_of_dropBytes? hrest
    obtain ⟨hsplit, hb⟩ := takeBytes_of_dropBytes? hy
    refine ⟨takeBytes a cs, y, by rw [hsplit, hcs], ha, ?_⟩
    rw [byteLength_append, ha, hb]
    omega
  next => cases h

end Text

namespace Document

open Text

variable {d : Document} {n : Nat} {before line behind : List Char}

theorem line?_of_isLine (h : IsLine d.source n before line behind) :
    d.line? n = some (dropCarriageReturn line) := by
  obtain ⟨earlier, later, hsplit, rfl, -, -⟩ := h.splitBy_eq
  simp [line?, lines, hsplit]

theorem lineStart_of_isLine (h : IsLine d.source n before line behind) :
    d.lineStart n = byteLength before := by
  obtain ⟨earlier, later, hsplit, rfl, rfl, -⟩ := h.splitBy_eq
  rw [lineStart, lines, hsplit, List.take_left]
  clear h hsplit
  induction earlier with
  | nil => rfl
  | cons w earlier ih =>
    simp only [List.foldr_cons, ih, List.flatMap_cons, byteLength_append]
    rfl

theorem line?_eq_none_iff : d.line? n = none ↔ d.source.count '\n' < n := by
  rw [line?, Option.map_eq_none_iff, List.getElem?_eq_none_iff, lines, length_splitBy]
  exact Nat.succ_le_iff

theorem columns?_of_count_lt (h : d.source.count '\n' < n) : d.columns? n = none := by
  rw [columns?, line?_eq_none_iff.mpr h]
  rfl

theorem offsetAt?_of_isLine (h : IsLine d.source n before line behind) (column : Nat) :
    d.offsetAt? n column =
      some (byteLength (before ++ (dropCarriageReturn line).take column)) := by
  rw [offsetAt?, line?_of_isLine h, lineStart_of_isLine h, byteLength_append]
  rfl

theorem columns?_of_isLine (h : IsLine d.source n before line behind) :
    d.columns? n = some (if (trimChars line).isEmpty then (0, 0) else
      (((dropCarriageReturn line).takeWhile isBlank).length,
        ((dropCarriageReturn line).takeWhile isBlank ++ trimChars line).length)) := by
  rw [columns?, line?_of_isLine h]
  change some _ = some _
  rw [dropBlanksEnd_eq, trimChars_dropCarriageReturn]
  by_cases hempty : (trimChars line).isEmpty = true
  · simp [hempty]
  · have hpos : 0 < (trimChars line).length := by
      rw [List.length_pos_iff]
      simpa using hempty
    have hlt : ¬ ((dropCarriageReturn line).takeWhile isBlank ++ trimChars line).length ≤
        ((dropCarriageReturn line).takeWhile isBlank).length := by
      rw [List.length_append]
      omega
    rw [if_neg hempty, if_neg hempty, if_neg hlt]

/-- A pair of columns encloses the text of a line. -/
theorem slice?_columns (h : IsLine d.source n before line behind) {s e : Nat}
    (hcolumns : d.columns? n = some (s, e)) :
    s ≤ e ∧ ∃ a b, d.offsetAt? n s = some a ∧ d.offsetAt? n e = some b ∧
      slice? a b d.source = some (trimChars line) ∧ (trimChars line = [] → s = 0 ∧ e = 0) := by
  rw [columns?_of_isLine h, Option.some_inj] at hcolumns
  by_cases hempty : (trimChars line).isEmpty = true
  · rw [if_pos hempty] at hcolumns
    cases hcolumns
    refine ⟨Nat.le_refl _, _, _, offsetAt?_of_isLine h 0, offsetAt?_of_isLine h 0, ?_, ?_⟩
    · have hslice := Grammar.slice?_append before [] (line ++ behind)
      rw [List.nil_append, ← h.text] at hslice
      simpa [List.isEmpty_iff.mp hempty, byteLength] using hslice
    · intro
      exact ⟨rfl, rfl⟩
  · rw [if_neg hempty] at hcolumns
    cases hcolumns
    have htext : trimChars line ≠ [] := by simpa using hempty
    have hboth := blanks_append_trimChars htext
    have hleft : (dropCarriageReturn line).takeWhile isBlank <+: dropCarriageReturn line :=
      List.takeWhile_prefix _
    refine ⟨?_, _, _, offsetAt?_of_isLine h _, offsetAt?_of_isLine h _, ?_, ?_⟩
    · rw [List.length_append]
      omega
    · rw [← List.prefix_iff_eq_take.mp hleft, ← List.prefix_iff_eq_take.mp hboth]
      obtain ⟨rest, hrest⟩ := h.exists_rest (hboth.trans (prefix_dropCarriageReturn line))
      rw [hrest, List.append_assoc, ← List.append_assoc before, ← List.append_assoc before,
        byteLength_append (before ++ _) (trimChars line)]
      exact Grammar.slice?_append _ _ _
    · intro hnil
      exact absurd hnil htext

theorem take_eq_of_slice? (h : IsLine d.source n before line behind) {s e a b : Nat}
    {text : List Char} (ha : d.offsetAt? n s = some a) (hb : d.offsetAt? n e = some b)
    (hslice : slice? a b d.source = some text) :
    (dropCarriageReturn line).take e = (dropCarriageReturn line).take s ++ text := by
  have hrest (column : Nat) :
      ∃ rest, d.source = before ++ ((dropCarriageReturn line).take column ++ rest) := by
    have htake := List.take_prefix column (dropCarriageReturn line)
    exact h.exists_rest (htake.trans (prefix_dropCarriageReturn line))
  rw [offsetAt?_of_isLine h, Option.some_inj] at ha hb
  obtain ⟨x, y, hsource, hx, hy⟩ := eq_of_slice? hslice
  obtain ⟨z, hz⟩ := hrest s
  obtain ⟨z', hz'⟩ := hrest e
  rw [← List.append_assoc] at hz hz'
  obtain ⟨rfl, -⟩ := append_inj_of_byteLength (hsource.symm.trans hz) (hx.trans ha.symm)
  rw [← List.append_assoc] at hsource
  obtain ⟨hsame, -⟩ := append_inj_of_byteLength (hsource.symm.trans hz') (hy.trans hb.symm)
  rw [List.append_assoc, List.append_cancel_left_eq] at hsame
  exact hsame.symm

theorem columns?_unique (h : IsLine d.source n before line behind) (htext : trimChars line ≠ [])
    {s e s' e' a b : Nat} (hcolumns : d.columns? n = some (s, e)) (hs : s' ≤ s) (he : e' ≤ e)
    (ha : d.offsetAt? n s' = some a) (hb : d.offsetAt? n e' = some b)
    (hslice : slice? a b d.source = some (trimChars line)) : s' = s ∧ e' = e := by
  have htake := take_eq_of_slice? h ha hb hslice
  rw [columns?_of_isLine h, if_neg (by simpa using htext), Option.some_inj] at hcolumns
  obtain ⟨rfl, rfl⟩ := Prod.mk.inj hcolumns
  obtain ⟨right, hright⟩ := blanks_append_trimChars htext
  obtain ⟨c, t, ht⟩ := List.exists_cons_of_ne_nil htext
  have hc : isBlank c = false := (trimmed_trimChars line).first c (by rw [ht, List.head?_cons]; rfl)
  have hblank : ∀ c ∈ (dropCarriageReturn line).takeWhile isBlank, isBlank c = true :=
    fun c hc ↦ List.mem_takeWhile_imp hc
  generalize (dropCarriageReturn line).takeWhile isBlank = left at *
  rw [← hright, List.append_assoc, ht] at htake
  have hstart := length_le_of_take_eq hblank hc htake
  have hlength := congrArg List.length htake
  simp only [ht, List.length_take, List.length_append, List.length_cons] at hlength he ⊢
  omega

/-- A document has columns for the lines that its line feeds count, one more than there are of
them. Between the columns of a line stands its text without the blanks around it. -/
theorem columns?_delimit (d : Document) (n : Nat) :
    ((d.columns? n).isSome = true ↔ n < d.source.count '\n' + 1) ∧
      ∀ s e, d.columns? n = some (s, e) → s ≤ e ∧
        ∃ before line behind a b, IsLine d.source n before line behind ∧
          d.offsetAt? n s = some a ∧ d.offsetAt? n e = some b ∧
          slice? a b d.source = some (trimChars line) ∧ (trimChars line = [] → s = 0 ∧ e = 0) := by
  by_cases hn : n ≤ d.source.count '\n'
  · obtain ⟨before, line, behind, h⟩ := exists_isLine hn
    refine ⟨?_, ?_⟩
    · rw [columns?_of_isLine h]
      exact iff_of_true rfl (Nat.lt_succ_of_le hn)
    · intro s e hcolumns
      obtain ⟨hle, a, b, hs, he, hslice, hblank⟩ := slice?_columns h hcolumns
      exact ⟨hle, before, line, behind, a, b, h, hs, he, hslice, hblank⟩
  · rw [columns?_of_count_lt (Nat.lt_of_not_le hn)]
    refine ⟨iff_of_false (by simp) (by omega), ?_⟩
    intro s e hcolumns
    cases hcolumns

end Document

end PhpInsight

import PhpInsight.CommandLine.Location
import PhpInsight.Proofs.Lines.Columns

namespace PhpInsight

namespace Text

variable {text : List Char}

theorem dropCarriageReturn_concat (text : List Char) :
    dropCarriageReturn (text ++ ['\r']) = text := by
  simp [dropCarriageReturn, dropStop?, dropStart?]

theorem dropCarriageReturn_eq_self (h : text.getLast? ≠ some '\r') :
    dropCarriageReturn text = text := by
  obtain hsame | hconcat := dropCarriageReturn_eq text
  · exact hsame
  · rw [hconcat] at h
    simp at h

theorem byteLength_eq_zero_iff {cs : List Char} : byteLength cs = 0 ↔ cs = [] := by
  cases cs with
  | nil => simp [byteLength]
  | cons c cs =>
    have hc := c.utf8Size_pos
    simp only [byteLength, reduceCtorEq, iff_false]
    omega

theorem IsLine.boundary_take {cs before line behind : List Char} {n : Nat}
    (h : IsLine cs n before line behind) (htext : text <+: line) (column : Nat) :
    Boundary cs (byteLength (before ++ text.take column)) := by
  have htake := List.take_prefix column text
  obtain ⟨rest, hrest⟩ := h.exists_rest (htake.trans htext)
  exact ⟨before ++ text.take column, rest, by rw [hrest, List.append_assoc], rfl⟩

end Text

namespace CommandLine.Location

open Text

variable {l : Location} {source before line behind : List Char}

/-- The line is the one behind the last, which no line feed ends. -/
def IsBehindUnended (l : Location) (source : List Char) : Prop :=
  l.line - 1 = source.count '\n' + 1 ∧ source ≠ [] ∧ source.getLast? ≠ some '\n'

instance : Decidable (l.IsBehindUnended source) :=
  inferInstanceAs (Decidable (_ ∧ _ ∧ _))

/-- The column is behind the text of a line that several carriage returns end. -/
def IsAmongReturns (l : Location) (source : List Char) : Prop :=
  ∃ before text k behind,
    IsLine source (l.line - 1) before (text ++ List.replicate (k + 2) '\r') behind ∧
      text.getLast? ≠ some '\r' ∧ text.length < l.column - 1

theorem exists_returns (hline : '\n' ∉ line) :
    ∃ text k, line = text ++ List.replicate k '\r' ∧ text.getLast? ≠ some '\r' ∧
      dropEnd isLineEnd line = text := by
  have hsplit : dropEnd isLineEnd line ++ line.rtakeWhile isLineEnd = line :=
    List.rdropWhile_append_rtakeWhile
  refine ⟨dropEnd isLineEnd line, (line.rtakeWhile isLineEnd).length, ?_, ?_, rfl⟩
  · have hreturns : line.rtakeWhile isLineEnd =
        List.replicate (line.rtakeWhile isLineEnd).length '\r' := by
      apply List.eq_replicate_of_mem
      intro c hc
      have hend : c = '\n' ∨ c = '\r' := by simpa [isLineEnd] using List.mem_rtakeWhile_imp hc
      obtain rfl | rfl := hend
      · exact absurd ((List.rtakeWhile_suffix _ _).subset hc) hline
      · rfl
    rw [← hreturns, hsplit]
  · intro hlast
    obtain ⟨ds, hds⟩ := List.getLast?_eq_some_iff.mp hlast
    have hne : line.rdropWhile isLineEnd ≠ [] := by
      rw [← dropEnd_eq_rdropWhile, hds]
      simp
    apply List.rdropWhile_last_not isLineEnd line hne
    have hget : (line.rdropWhile isLineEnd).getLast? = some '\r' := hlast
    rw [List.getLast?_eq_some_getLast hne, Option.some_inj] at hget
    rw [hget]
    decide

theorem dropEnd_returns {text : List Char} (hfeed : '\n' ∉ text)
    (hlast : text.getLast? ≠ some '\r') (k : Nat) :
    dropEnd isLineEnd (text ++ List.replicate k '\r') = text := by
  induction k with
  | zero =>
    rw [List.replicate_zero, List.append_nil, dropEnd_eq_rdropWhile, List.rdropWhile_eq_self_iff]
    intro hne hend
    have hget := List.getLast?_eq_some_getLast hne
    have hmem := List.getLast_mem hne
    generalize text.getLast hne = c at hget hmem hend
    have hc : c = '\n' ∨ c = '\r' := by simpa [isLineEnd] using hend
    obtain rfl | rfl := hc
    · exact hfeed hmem
    · exact hlast hget
  | succ k ih =>
    rw [List.replicate_succ', ← List.append_assoc, dropEnd_eq_rdropWhile,
      List.rdropWhile_concat_pos isLineEnd _ '\r' (by decide)]
    exact ih

theorem dropEnd_isLineEnd_concat (line : List Char) :
    dropEnd isLineEnd (line ++ ['\n']) = dropEnd isLineEnd line :=
  List.rdropWhile_concat_pos isLineEnd line '\n' (by decide)

theorem offset?_of_some (hline : (fullLines source)[l.line - 1]? = some line) :
    l.offset? source = some (byteLength (((fullLines source).take (l.line - 1)).flatten ++
      (dropEnd isLineEnd line).take (l.column - 1))) := by
  simp only [offset?, hline, byteLength_append]

theorem offset?_of_none (hnone : (fullLines source)[l.line - 1]? = none) :
    l.offset? source =
      if l.line - 1 = (fullLines source).length then some (byteLength source) else none := by
  simp only [offset?, hnone]

theorem offset?_of_isLine (h : IsLine source (l.line - 1) before line behind) :
    l.offset? source =
      some (byteLength (before ++ (dropEnd isLineEnd line).take (l.column - 1))) := by
  obtain ⟨earlier, later, hsplit, hlength, hbefore, hbehind⟩ := h.splitBy_eq
  have hlines : fullLines source = earlier.map (· ++ ['\n']) ++ terminated (line :: later) := by
    rw [fullLines_eq, hsplit, terminated_append]
  have hmap : (earlier.map (· ++ ['\n'])).length = l.line - 1 := by rw [List.length_map, hlength]
  have hfront : ((fullLines source).take (l.line - 1)).flatten = before := by
    rw [hlines, List.take_left' hmap, hbefore, List.flatMap_def]
  have hat : (fullLines source)[l.line - 1]? = (terminated (line :: later))[0]? := by
    rw [hlines, List.getElem?_append_right (Nat.le_of_eq hmap), hmap, Nat.sub_self]
  cases later with
  | cons w ws => rw [offset?_of_some hat, hfront, dropEnd_isLineEnd_concat]
  | nil =>
    cases line with
    | cons c cs => rw [offset?_of_some hat, hfront]
    | nil =>
      -- The text ends with a line feed, or is empty: its last line has nothing in it.
      have hend : l.line - 1 = (fullLines source).length := by
        rw [hlines, List.length_append, hmap]
        rfl
      have hsource : source = before := by simpa [hbehind] using h.text
      have hempty : dropEnd isLineEnd [] = [] := rfl
      rw [offset?_of_none hat, if_pos hend, hempty, List.take_nil, List.append_nil, hsource]

theorem offset?_of_count_lt (h : source.count '\n' < l.line - 1) :
    l.offset? source = if l.IsBehindUnended source then some (byteLength source) else none := by
  obtain hnil | ⟨earlier, last, hsplit⟩ := List.eq_nil_or_concat (splitBy (· == '\n') source)
  · exact absurd hnil (splitBy_ne_nil _ _)
  rw [List.concat_eq_append] at hsplit
  have hcount : source.count '\n' = earlier.length := by
    have hlength := length_splitBy (· == '\n') source
    rw [hsplit, List.length_append, List.length_singleton] at hlength
    exact (Nat.succ_injective hlength).symm
  have hlines : fullLines source = earlier.map (· ++ ['\n']) ++ terminated [last] := by
    rw [fullLines_eq, hsplit, terminated_append]
  obtain ⟨hsource, -, hstart, hwhole, -⟩ := isLine_of_splitBy hsplit
  rw [List.flatMap_nil, List.append_nil] at hsource
  have hlength : l.line - 1 = (fullLines source).length ↔ l.IsBehindUnended source := by
    rw [hlines, List.length_append, List.length_map, IsBehindUnended, hcount]
    obtain hempty | ⟨ds, c, hlast⟩ := List.eq_nil_or_concat last
    · rw [hempty, List.append_nil] at hsource
      rw [hempty, hsource]
      refine iff_of_false ?_ ?_
      · change l.line - 1 ≠ earlier.length
        omega
      · intro hbehind
        exact hstart.elim hbehind.2.1 hbehind.2.2
    · rw [List.concat_eq_append] at hlast
      have hend : source.getLast? = some c := by simp [hsource, hlast]
      have hfeed : c ≠ '\n' := by
        intro hc
        simp [hlast, hc] at hwhole
      have hone : (terminated [last]).length = 1 := by simp [terminated, hlast]
      have hne : source ≠ [] := by simp [hsource, hlast]
      rw [hone, hend]
      exact ⟨fun h ↦ ⟨h, hne, by simpa using hfeed⟩, fun h ↦ h.1⟩
  have hnone : (fullLines source)[l.line - 1]? = none := by
    rw [List.getElem?_eq_none_iff, hlines, List.length_append, List.length_map]
    have hle : (terminated [last]).length ≤ 1 := by
      rw [terminated]
      split <;> simp
    omega
  rw [offset?_of_none hnone]
  simp only [hlength]

theorem byteLength_take_returns (before text : List Char) (k column : Nat) :
    byteLength (before ++ text.take column) =
        byteLength (before ++ (text ++ List.replicate k '\r').take column) ↔
      k = 0 ∨ column ≤ text.length := by
  rw [List.take_append, ← List.append_assoc, byteLength_append (before ++ _), Nat.left_eq_add,
    byteLength_eq_zero_iff, List.take_eq_nil_iff, List.replicate_eq_nil_iff]
  omega

/-- On a line the two places are the same unless the column is among its carriage returns. -/
theorem offset?_eq_iff_of_isLine {d : Document}
    (h : IsLine d.source (l.line - 1) before line behind) :
    l.offset? d.source = d.offsetAt? (l.line - 1) (l.column - 1) ↔ ¬ l.IsAmongReturns d.source := by
  obtain ⟨text, k, rfl, hlast, htext⟩ := exists_returns h.whole
  have hunique {before' text' behind' : List Char} {k' : Nat}
      (h' : IsLine d.source (l.line - 1) before' (text' ++ List.replicate k' '\r') behind')
      (hlast' : text'.getLast? ≠ some '\r') : text' = text ∧ k' = k := by
    have hline := h'.eq h
    have htext' := dropEnd_returns (fun hmem ↦ h'.whole (List.mem_append_left _ hmem)) hlast' k'
    obtain rfl : text' = text := by rw [← htext', hline, htext]
    exact ⟨rfl, by simpa using congrArg List.length hline⟩
  rw [offset?_of_isLine h, Document.offsetAt?_of_isLine h, htext, Option.some_inj]
  cases k with
  | zero =>
    rw [List.replicate_zero, List.append_nil, dropCarriageReturn_eq_self hlast]
    refine iff_of_true rfl ?_
    intro hamong
    obtain ⟨_, text', k', _, h', hlast', -⟩ := hamong
    have hk := (hunique h' hlast').2
    omega
  | succ k =>
    have hdrop : dropCarriageReturn (text ++ List.replicate (k + 1) '\r') =
        text ++ List.replicate k '\r' := by
      rw [List.replicate_succ', ← List.append_assoc, dropCarriageReturn_concat]
    rw [hdrop, byteLength_take_returns]
    constructor
    · intro hplain hamong
      obtain ⟨_, text', k', _, h', hlast', hcolumn⟩ := hamong
      obtain ⟨rfl, hk⟩ := hunique h' hlast'
      omega
    · intro hamong
      by_contra hcontra
      obtain ⟨hk, hcolumn⟩ := not_or.mp hcontra
      obtain ⟨k', rfl⟩ := Nat.exists_eq_succ_of_ne_zero hk
      exact hamong ⟨before, text, k', behind, h, hlast, by omega⟩

/-- A location and the position of its line and column are the same place, and one between two
characters, unless the location is behind a last line that is not ended, where there is no position,
or among the carriage returns that end a line, where the position is behind it. -/
theorem offset?_eq_offsetAt?_iff (d : Document) (l : Location) :
    (l.offset? d.source = d.offsetAt? (l.line - 1) (l.column - 1) ↔
      ¬ l.IsBehindUnended d.source ∧ ¬ l.IsAmongReturns d.source) ∧
    ((l.offset? d.source).isSome = (d.offsetAt? (l.line - 1) (l.column - 1)).isSome ↔
      ¬ l.IsBehindUnended d.source) ∧
    (∀ n, l.offset? d.source = some n → Boundary d.source n) ∧
    ∀ n, d.offsetAt? (l.line - 1) (l.column - 1) = some n → Boundary d.source n := by
  by_cases hline : l.line - 1 ≤ d.source.count '\n'
  · obtain ⟨before, line, behind, h⟩ := exists_isLine hline
    have hbehind : ¬ l.IsBehindUnended d.source := by
      intro hbehind
      have hcount := hbehind.1
      omega
    refine ⟨?_, ?_, ?_, ?_⟩
    · rw [offset?_eq_iff_of_isLine h]
      exact ⟨fun hamong ↦ ⟨hbehind, hamong⟩, And.right⟩
    · rw [offset?_of_isLine h, Document.offsetAt?_of_isLine h]
      exact iff_of_true rfl hbehind
    · intro n hn
      rw [offset?_of_isLine h, Option.some_inj] at hn
      have hkept : dropEnd isLineEnd line <+: line := List.rdropWhile_prefix _ _
      rw [← hn]
      exact h.boundary_take hkept _
    · intro n hn
      rw [Document.offsetAt?_of_isLine h, Option.some_inj] at hn
      rw [← hn]
      exact h.boundary_take (prefix_dropCarriageReturn line) _
  · have hnone : d.offsetAt? (l.line - 1) (l.column - 1) = none := by
      rw [Document.offsetAt?, Document.line?_eq_none_iff.mpr (Nat.lt_of_not_le hline)]
      rfl
    have hamong : ¬ l.IsAmongReturns d.source := by
      intro hamong
      obtain ⟨_, _, _, _, h, -⟩ := hamong
      exact hline h.le_count
    rw [hnone, offset?_of_count_lt (Nat.lt_of_not_le hline)]
    by_cases hbehind : l.IsBehindUnended d.source
    · simp only [if_pos hbehind]
      refine ⟨by simp [hbehind], by simp [hbehind], ?_, by simp⟩
      intro n hn
      exact ⟨d.source, [], by simp, Option.some.inj hn⟩
    · simp [hbehind, hamong]

def places (source : String) (line column : Nat) : Option (Option Nat × Option Nat) :=
  (Document.parse 0 "places.php" source.toList 0).toOption.map fun d ↦
    ((⟨"places.php", line, column, []⟩ : Location).offset? d.source,
      d.offsetAt? (line - 1) (column - 1))

/-- A file of one line, without a line feed, has a second line for locations. Of two carriage
returns at the end of a line a position can be behind the first one. -/
theorem offset?_ne_offsetAt? :
    places "<?php f();" 2 1 = some (some 10, none) ∧
      places "<?php f();\r\r\n" 1 13 = some (some 10, some 11) := by
  decide +kernel

end CommandLine.Location

end PhpInsight

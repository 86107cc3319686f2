import Mathlib.Data.String.Basic
import PhpInsight.Diagnostic
import PhpInsight.Proofs.Lines.Columns
import PhpInsight.Proofs.Text.Utf8

namespace PhpInsight

open Text

namespace Report

variable {r : Report} {name : String} {messages : List ReportMessage}
  {fs : List (String × List ReportMessage)}

/-- The files of a report in the byte order of their names. Of several lists of messages for one
file there is the last. -/
structure Lists (r : Report) (fs : List (String × List ReportMessage)) : Prop where
  ordered : fs.Pairwise fun f g ↦ utf8 f.1.toList < utf8 g.1.toList
  mem_iff (name : String) (messages : List ReportMessage) : (name, messages) ∈ fs ↔
    ∃ before behind, r.files = before ++ (name, messages) :: behind ∧ ∀ f ∈ behind, f.1 ≠ name

def Ordered (fs : List (String × List ReportMessage)) : Prop := fs.Pairwise fun f g ↦ f.1 < g.1

theorem mem_insertFile {f : String × List ReportMessage} (h : Ordered fs) :
    f ∈ insertFile name messages fs ↔ f = (name, messages) ∨ f.1 ≠ name ∧ f ∈ fs := by
  induction fs with
  | nil => simp [insertFile]
  | cons g fs ih =>
    obtain ⟨hg, hfs⟩ := List.pairwise_cons.mp h
    rw [insertFile]
    split
    next hlt =>
      have hname : ∀ k ∈ g :: fs, k.1 ≠ name := by
        intro k hk
        obtain rfl | hk := List.mem_cons.mp hk
        · exact ne_of_gt hlt
        · exact ne_of_gt (lt_trans hlt (hg k hk))
      rw [List.mem_cons]
      exact or_congr_right ⟨fun hf ↦ ⟨hname f hf, hf⟩, And.right⟩
    next hlt =>
      split
      next heq =>
        have hname : ∀ k ∈ fs, k.1 ≠ name := fun k hk ↦ heq ▸ ne_of_gt (hg k hk)
        rw [List.mem_cons, List.mem_cons]
        apply or_congr_right
        constructor
        · intro hf
          exact ⟨hname f hf, .inr hf⟩
        · intro hf
          obtain ⟨hne, rfl | hf⟩ := hf
          · exact absurd heq.symm hne
          · exact hf
      next heq =>
        rw [List.mem_cons, List.mem_cons, ih hfs]
        constructor
        · intro hf
          obtain rfl | rfl | ⟨hne, hf⟩ := hf
          · exact .inr ⟨Ne.symm heq, .inl rfl⟩
          · exact .inl rfl
          · exact .inr ⟨hne, .inr hf⟩
        · intro hf
          obtain rfl | ⟨hne, rfl | hf⟩ := hf
          · exact .inr (.inl rfl)
          · exact .inl rfl
          · exact .inr (.inr ⟨hne, hf⟩)

theorem Ordered.insertFile (h : Ordered fs) : Ordered (insertFile name messages fs) := by
  induction fs with
  | nil => exact List.pairwise_singleton _ _
  | cons g fs ih =>
    obtain ⟨hg, hfs⟩ := List.pairwise_cons.mp h
    rw [Report.insertFile]
    split
    next hlt =>
      refine List.pairwise_cons.mpr ⟨?_, h⟩
      intro k hk
      obtain rfl | hk := List.mem_cons.mp hk
      · exact hlt
      · exact lt_trans hlt (hg k hk)
    next hlt =>
      split
      next heq => exact List.pairwise_cons.mpr ⟨fun k hk ↦ heq ▸ hg k hk, hfs⟩
      next heq =>
        refine List.pairwise_cons.mpr ⟨?_, ih hfs⟩
        intro k hk
        obtain rfl | ⟨-, hk⟩ := (mem_insertFile hfs).mp hk
        · exact lt_of_le_of_ne (le_of_not_gt hlt) (Ne.symm heq)
        · exact hg k hk

def sortedFiles (files : List (String × List ReportMessage)) : List (String × List ReportMessage) :=
  files.foldl (fun fs f ↦ insertFile f.1 f.2 fs) []

theorem sortedFiles_concat (files : List (String × List ReportMessage))
    (f : String × List ReportMessage) :
    sortedFiles (files ++ [f]) = insertFile f.1 f.2 (sortedFiles files) := by
  rw [sortedFiles, List.foldl_append]
  rfl

theorem ordered_sortedFiles (files : List (String × List ReportMessage)) :
    Ordered (sortedFiles files) := by
  induction files using List.reverseRecOn with
  | nil => exact .nil
  | append_singleton files f ih =>
    rw [sortedFiles_concat]
    exact ih.insertFile

theorem mem_sortedFiles_iff (files : List (String × List ReportMessage)) :
    (name, messages) ∈ sortedFiles files ↔
      ∃ before behind, files = before ++ (name, messages) :: behind ∧ ∀ f ∈ behind, f.1 ≠ name := by
  induction files using List.reverseRecOn with
  | nil => simp [sortedFiles]
  | append_singleton files f ih =>
    rw [sortedFiles_concat, mem_insertFile (ordered_sortedFiles files), ih]
    constructor
    · intro h
      obtain hf | ⟨hne, before, behind, hfiles, hbehind⟩ := h
      · exact ⟨files, [], by rw [hf], by simp⟩
      · refine ⟨before, behind ++ [f], by simp [hfiles], ?_⟩
        intro g hg
        obtain hg | hg := List.mem_append.mp hg
        · exact hbehind g hg
        · exact List.mem_singleton.mp hg ▸ Ne.symm hne
    · intro h
      obtain ⟨before, behind, hfiles, hbehind⟩ := h
      obtain rfl | ⟨bs, g, rfl⟩ := List.eq_nil_or_concat behind
      · exact .inl (List.append_singleton_inj.mp hfiles).2.symm
      · rw [List.concat_eq_append, ← List.cons_append, ← List.append_assoc,
          List.append_singleton_inj] at hfiles
        obtain ⟨hfiles, rfl⟩ := hfiles
        simp only [List.concat_eq_append, List.mem_append, List.mem_singleton] at hbehind
        exact .inr ⟨Ne.symm (hbehind f (.inr rfl)), before, bs, hfiles,
          fun k hk ↦ hbehind k (.inl hk)⟩

theorem lists_sortedFiles (r : Report) : r.Lists (sortedFiles r.files) where
  ordered := (ordered_sortedFiles r.files).imp fun h ↦
    utf8_lt_iff.mpr (String.lt_iff_toList_lt.mp h)
  mem_iff _ _ := mem_sortedFiles_iff r.files

end Report

/-- The line of a message, counted from zero. A message on line zero is on the first one. -/
def ReportMessage.row (m : ReportMessage) : Nat := max m.line 1 - 1

theorem ReportMessage.row_eq (m : ReportMessage) : m.row = m.line - 1 := by
  rw [row]
  omega

namespace Diagnostic

variable {d : Document} {severity : Severity} {m : ReportMessage}

/-- A diagnostic marks a line, counted from zero: its columns enclose the text of the line without
the blanks around it. It is at the start of the line when there is no text, or no such line. -/
structure Marks (d : Document) (n : Nat) (g : Diagnostic) : Prop where
  startLine : g.start.line.toNat = n
  stopLine : g.stop.line.toNat = n
  encloses (before line behind : List Char) : IsLine d.source n before line behind →
    ∃ a b, d.offsetAt? n g.start.character.toNat = some a ∧
      d.offsetAt? n g.stop.character.toNat = some b ∧ slice? a b d.source = some (trimChars line)
  unmarked : (∀ before line behind, IsLine d.source n before line behind → trimChars line = []) →
    g.start.character.toNat = 0 ∧ g.stop.character.toNat = 0

/-- The line of a message and the columns of its text can be written in 32 bits. -/
def Fits (d : Document) (m : ReportMessage) : Prop :=
  m.row < 2 ^ 32 ∧ ∀ s e, d.columns? m.row = some (s, e) → e < 2 ^ 32

structure Shows (d : Document) (severity : Severity) (m : ReportMessage) (g : Diagnostic) :
    Prop where
  message : g.message = m.text
  severity : g.severity = severity
  startLine : g.start.line.toNat = m.row % 2 ^ 32
  stopLine : g.stop.line.toNat = m.row % 2 ^ 32
  marks_iff : g.Marks d m.row ↔ Fits d m

theorem toNat_toUInt32 (n : Nat) : n.toUInt32.toNat = n % 2 ^ 32 := UInt32.toNat_ofNat'

theorem toNat_line_ofMessage (d : Document) (severity : Severity) (m : ReportMessage) :
    (ofMessage d severity m).start.line.toNat = m.row % 2 ^ 32 ∧
      (ofMessage d severity m).stop.line.toNat = m.row % 2 ^ 32 := by
  rw [m.row_eq]
  exact ⟨toNat_toUInt32 _, toNat_toUInt32 _⟩

theorem toNat_character_ofMessage (severity : Severity) {s e : Nat}
    (h : (d.columns? m.row).getD (0, 0) = (s, e)) :
    (ofMessage d severity m).start.character.toNat = s % 2 ^ 32 ∧
      (ofMessage d severity m).stop.character.toNat = e % 2 ^ 32 := by
  rw [m.row_eq] at h
  rw [ofMessage, h]
  exact ⟨toNat_toUInt32 s, toNat_toUInt32 e⟩

theorem encloses_of_fits (severity : Severity) (h : Fits d m) {before line behind : List Char}
    (hline : IsLine d.source m.row before line behind) :
    ∃ a b, d.offsetAt? m.row (ofMessage d severity m).start.character.toNat = some a ∧
      d.offsetAt? m.row (ofMessage d severity m).stop.character.toNat = some b ∧
      slice? a b d.source = some (trimChars line) ∧
      (trimChars line = [] → (ofMessage d severity m).start.character.toNat = 0 ∧
        (ofMessage d severity m).stop.character.toNat = 0) := by
  obtain ⟨s, e, hse⟩ : ∃ s e, d.columns? m.row = some (s, e) :=
    ⟨_, _, Document.columns?_of_isLine hline⟩
  have he := h.2 s e hse
  obtain ⟨hle, a, b, ha, hb, hslice, hzero⟩ := Document.slice?_columns hline hse
  obtain ⟨hs', he'⟩ := toNat_character_ofMessage severity (by rw [hse, Option.getD_some])
  rw [Nat.mod_eq_of_lt (Nat.lt_of_le_of_lt hle he)] at hs'
  rw [Nat.mod_eq_of_lt he] at he'
  rw [hs', he']
  exact ⟨a, b, ha, hb, hslice, hzero⟩

theorem marks_of_fits (severity : Severity) (h : Fits d m) :
    (ofMessage d severity m).Marks d m.row := by
  obtain ⟨hstart, hstop⟩ := toNat_line_ofMessage d severity m
  rw [Nat.mod_eq_of_lt h.1] at hstart hstop
  refine ⟨hstart, hstop, ?_, ?_⟩
  · intro before line behind hline
    obtain ⟨a, b, ha, hb, hslice, -⟩ := encloses_of_fits severity h hline
    exact ⟨a, b, ha, hb, hslice⟩
  · intro hblank
    by_cases hexists : m.row ≤ d.source.count '\n'
    · obtain ⟨before, line, behind, hline⟩ := exists_isLine hexists
      obtain ⟨_, _, -, -, -, hzero⟩ := encloses_of_fits severity h hline
      exact hzero (hblank before line behind hline)
    · have hnone := Document.columns?_of_count_lt (Nat.lt_of_not_le hexists)
      exact toNat_character_ofMessage severity (by rw [hnone, Option.getD_none])

theorem fits_of_marks (h : (ofMessage d severity m).Marks d m.row) : Fits d m := by
  obtain ⟨hstart, -⟩ := toNat_line_ofMessage d severity m
  have hrow : m.row % 2 ^ 32 < 2 ^ 32 := Nat.mod_lt _ (by decide)
  rw [← hstart, h.startLine] at hrow
  refine ⟨hrow, ?_⟩
  intro s e hse
  obtain ⟨hs', he'⟩ := toNat_character_ofMessage severity (by rw [hse, Option.getD_some])
  have hexists : m.row ≤ d.source.count '\n' := by
    by_contra hcontra
    rw [Document.columns?_of_count_lt (Nat.lt_of_not_le hcontra)] at hse
    cases hse
  obtain ⟨before, line, behind, hline⟩ := exists_isLine hexists
  by_cases htext : trimChars line = []
  · obtain ⟨-, a, b, -, -, -, hzero⟩ := Document.slice?_columns hline hse
    rw [(hzero htext).2]
    decide
  · obtain ⟨a, b, ha, hb, hslice⟩ := h.encloses before line behind hline
    rw [hs'] at ha
    rw [he'] at hb
    obtain ⟨-, he⟩ := Document.columns?_unique hline htext hse (Nat.mod_le _ _) (Nat.mod_le _ _)
      ha hb hslice
    rw [← he]
    exact Nat.mod_lt _ (by decide)

theorem shows_ofMessage (d : Document) (severity : Severity) (m : ReportMessage) :
    Shows d severity m (ofMessage d severity m) where
  message := rfl
  severity := rfl
  startLine := (toNat_line_ofMessage d severity m).1
  stopLine := (toNat_line_ofMessage d severity m).2
  marks_iff := ⟨fits_of_marks, marks_of_fits severity⟩

/-- A report that can be read and counts errors gives a diagnostic for each of its messages, in the
order of the files and of the messages of a file. It marks the line of the message if and only if
that line and its columns fit into 32 bits. -/
theorem ofReport_shows (d : Document) (output : String) (severity : Severity) :
    (Report.ofJson? output = none → ofReport d output severity = []) ∧
      ∀ r, Report.ofJson? output = some r →
        (r.fileErrors = 0 → ofReport d output severity = []) ∧
        (r.fileErrors ≠ 0 → ∃ fs, r.Lists fs ∧
          List.Forall₂ (Shows d severity) (fs.flatMap Prod.snd) (ofReport d output severity)) := by
  refine ⟨?_, ?_⟩
  · intro hread
    rw [ofReport, hread]
  · intro r hread
    refine ⟨?_, ?_⟩
    · intro hzero
      simp only [ofReport, hread, if_pos hzero]
    · intro hne
      have hmessages : r.messages = (Report.sortedFiles r.files).flatMap Prod.snd := rfl
      refine ⟨Report.sortedFiles r.files, Report.lists_sortedFiles r, ?_⟩
      simp only [ofReport, hread, if_neg hne]
      rw [← hmessages, List.forall₂_map_right_iff, List.forall₂_same]
      intro m _
      exact shows_ofMessage d severity m

def shown (source output : String) : Option (List (String × (Nat × Nat) × Nat × Nat)) :=
  (Document.parse 0 "shown.php" source.toList 0).toOption.map fun d ↦
    (ofReport d output .error).map fun g ↦
      (g.message, (g.start.line.toNat, g.start.character.toNat),
        g.stop.line.toNat, g.stop.character.toNat)

def objectText (fields : List (String × String)) : String :=
  "\x7b" ++ ",".intercalate (fields.map fun f ↦ "\"" ++ f.1 ++ "\":" ++ f.2) ++ "\x7d"

def reportText (errors : String) (files : List (String × List (String × String))) : String :=
  let message (m : String × String) := objectText [("message", "\"" ++ m.1 ++ "\""), ("line", m.2)]
  objectText [("totals", objectText [("file_errors", errors)]),
    ("files", objectText (files.map fun f ↦
      (f.1, objectText [("messages", "[" ++ ",".intercalate (f.2.map message) ++ "]")])))]

def twoFiles : String :=
  reportText "3" [("b.php", [("late", "2"), ("none", "0")]), ("a.php", [("early", "2")])]

theorem ofReport_shows_twoFiles :
    shown "<?php\n  f();\n" twoFiles =
        some [("early", (1, 2), 1, 6), ("late", (1, 2), 1, 6), ("none", (0, 0), 0, 5)] ∧
      ∃ r, Report.ofJson? twoFiles = some r ∧ ∀ d, ∃ fs, r.Lists fs ∧
        List.Forall₂ (Shows d .error) (fs.flatMap Prod.snd) (ofReport d twoFiles .error) := by
  refine ⟨by decide +kernel, ?_⟩
  have herrors : (Report.ofJson? twoFiles).map Report.fileErrors = some 3 := by decide +kernel
  obtain ⟨r, hread, herrors⟩ := Option.map_eq_some_iff.mp herrors
  exact ⟨r, hread, fun d ↦ ((ofReport_shows d twoFiles .error).2 r hread).2 (by simp [herrors])⟩

/-- A message on line 2 ^ 32 + 1 is shown on the first line. -/
theorem shown_beyond :
    shown "<?php\n" (reportText "1" [("a.php", [("m", "4294967297")])]) =
      some [("m", (0, 0), 0, 0)] := by
  decide +kernel

end Diagnostic

end PhpInsight

import Mathlib.Data.List.Basic
import PhpInsight.DocBlock
import PhpInsight.Proofs.Types.Text

namespace PhpInsight

namespace Text

variable {p : Char → Bool} {cs ds : List Char} {x : Char}

theorem splitFirst?_append (h : ∀ c ∈ cs, p c = false) (hx : p x = true) :
    splitFirst? p (cs ++ x :: ds) = some (cs, ds) := by
  induction cs with
  | nil => simp [splitFirst?, hx]
  | cons c cs ih =>
    obtain ⟨hc, hcs⟩ := List.forall_mem_cons.mp h
    simp [splitFirst?, hc, ih hcs]

theorem splitFirst?_eq_none (h : ∀ c ∈ cs, p c = false) : splitFirst? p cs = none := by
  induction cs with
  | nil => rfl
  | cons c cs ih =>
    obtain ⟨hc, hcs⟩ := List.forall_mem_cons.mp h
    simp [splitFirst?, hc, ih hcs]

end Text

namespace DocBlock

open Text

def starred (text : List Char) : List Char := ' ' :: '*' :: text

/-- A comment with its delimiters on lines of their own. -/
def commentOf (lines : List (List Char)) : String :=
  String.ofList (['\n'].intercalate ("/**".toList :: (lines ++ [" */".toList])))

theorem undecorated_starred {left text right : List Char} (hne : text ≠ []) (h : Trimmed text)
    (hleft : ∀ c ∈ left, isBlank c = true) (hright : ∀ c ∈ right, isBlank c = true) :
    undecorated (starred (left ++ text ++ right)) = text := by
  have htrimmed : Trimmed ('*' :: (left ++ text)) := by
    refine ⟨?_, ?_⟩
    · rintro _ ⟨⟩
      decide
    · rw [← List.cons_append, List.getLast?_append_of_ne_nil _ hne]
      exact h.last
  have hstar : trimChars (starred (left ++ text ++ right)) = '*' :: (left ++ text) := by
    rw [starred, ← List.singleton_append,
      trimChars_append_of_blank (List.forall_mem_singleton.mpr (by decide))]
    exact htrimmed.trimChars_append hright
  rw [undecorated, hstar]
  exact (trimChars_append_of_blank hleft text).trans h.trimChars

theorem dropStarts_once {start rest : List Char} (h : dropStart? start rest = none) (c : Char)
    (fuel : List Char) : dropStarts start (c :: fuel) (start ++ rest) = rest := by
  rw [dropStarts, dropStart?_append]
  cases fuel with
  | nil => rfl
  | cons c fuel => simp [dropStarts, h]

theorem withoutDelimiters_delimited (inner : List Char) :
    withoutDelimiters (['/', '*', '*'] ++ ('\n' :: inner ++ [' '] ++ ['*', '/'])) =
      '\n' :: inner ++ [' '] := by
  have htrimmed : Trimmed (['/', '*', '*'] ++ ('\n' :: inner ++ [' '] ++ ['*', '/'])) := by
    refine ⟨?_, ?_⟩
    · rintro _ ⟨⟩
      decide
    · simp only [← List.append_assoc, List.getLast?_append]
      rintro _ ⟨⟩
      decide
  have hstart : dropStarts ['/', '*', '*']
      (['/', '*', '*'] ++ ('\n' :: inner ++ [' '] ++ ['*', '/']))
      (['/', '*', '*'] ++ ('\n' :: inner ++ [' '] ++ ['*', '/'])) =
      '\n' :: inner ++ [' '] ++ ['*', '/'] := dropStarts_once rfl '/' _
  have hreverse : ('\n' :: inner ++ [' '] ++ ['*', '/']).reverse =
      ['/', '*'] ++ ('\n' :: inner ++ [' ']).reverse := by simp
  have hstop : dropStarts ['/', '*'] ('\n' :: inner ++ [' '] ++ ['*', '/'])
      (['/', '*'] ++ ('\n' :: inner ++ [' ']).reverse) = ('\n' :: inner ++ [' ']).reverse :=
    dropStarts_once (by simp [dropStart?]) '\n' _
  rw [withoutDelimiters, htrimmed.trimChars, hstart, hreverse, hstop, List.reverse_reverse]

theorem intercalate_append_last (x : Char) (lines : List (List Char)) (l r : List Char) :
    [x].intercalate (lines ++ [l ++ r]) = [x].intercalate (lines ++ [l]) ++ r := by
  induction lines with
  | nil => simp
  | cons m lines ih =>
    rw [List.cons_append, List.cons_append, List.intercalate_cons_of_ne_nil (by simp),
      List.intercalate_cons_of_ne_nil (by simp), ih, List.append_assoc _ _ r]

theorem ofComment_commentOf {lines : List (List Char)} (h : ∀ l ∈ lines, '\n' ∉ l) :
    ofComment (commentOf lines) = addLine ((lines.map undecorated).foldl addLine {}) [] := by
  obtain ⟨inner, hinner⟩ : ∃ inner, inner = ['\n'].intercalate (lines ++ [[]]) := ⟨_, rfl⟩
  have htext : (commentOf lines).toList =
      ['/', '*', '*'] ++ ('\n' :: inner ++ [' '] ++ ['*', '/']) := by
    have hlast := intercalate_append_last '\n' lines [] [' ', '*', '/']
    rw [List.nil_append] at hlast
    rw [commentOf, String.toList_ofList, List.intercalate_cons_of_ne_nil (by simp)]
    change ['/', '*', '*'] ++ ['\n'] ++ ['\n'].intercalate (lines ++ [[' ', '*', '/']]) = _
    rw [hlast, ← hinner]
    simp
  have hlines : splitBy (· == '\n') ('\n' :: inner ++ [' ']) = [] :: (lines ++ [[' ']]) := by
    have hlast := intercalate_append_last '\n' lines [] [' ']
    rw [List.nil_append] at hlast
    have hjoin : '\n' :: inner ++ [' '] = ['\n'].intercalate ([] :: (lines ++ [[' ']])) := by
      rw [List.intercalate_cons_of_ne_nil (by simp), hlast, ← hinner]
      simp
    rw [hjoin, splitBy_eq_splitOn]
    refine List.splitOn_intercalate _ ?_ (List.cons_ne_nil _ _)
    rw [List.forall_mem_cons, List.forall_mem_append, List.forall_mem_singleton]
    exact ⟨List.not_mem_nil, h, by decide⟩
  have hopening : addLine {} (undecorated []) = {} := rfl
  have hclosing : undecorated [' '] = [] := rfl
  rw [ofComment, htext, withoutDelimiters_delimited, hlines, List.map_cons, List.map_append,
    List.foldl_cons, List.foldl_append, hopening, List.map_singleton, hclosing]
  rfl

structure Line where
  text : List Char
  after : List Char := []
  ne_nil : text ≠ []
  trimmed : Trimmed text
  blank : ∀ c ∈ after, isBlank c = true
  whole : '\n' ∉ text ++ after

structure FreeLine extends Line where
  plain : text.head? ≠ some '@'

def texts (ls : List FreeLine) : List (List Char) := ls.map fun l ↦ l.text

/-- A tag and the lines of its body, the first of which stands behind its name. -/
structure TagLines where
  name : List Char
  first : Line
  more : List FreeLine
  unbroken : ∀ c ∈ name, isBlank c = false

/-- What a comment is laid out from. Blank lines stand in front of a description, and as many as one
likes in front of the tags. -/
structure Layout where
  summary : List FreeLine
  description : List FreeLine
  gap : Nat
  tags : List TagLines
  described : description ≠ [] → summary ≠ []

def Line.laid (indent : Nat) (l : Line) : List Char :=
  starred (List.replicate indent ' ' ++ l.text ++ l.after)

theorem Line.undecorated_laid (indent : Nat) (l : Line) : undecorated (l.laid indent) = l.text :=
  undecorated_starred l.ne_nil l.trimmed
    (fun c hc ↦ by rw [List.eq_of_mem_replicate hc]; decide) l.blank

theorem map_undecorated_laid (indent : Nat) (ls : List FreeLine) :
    (ls.map fun l ↦ l.laid indent).map undecorated = texts ls := by
  simp [texts, Line.undecorated_laid]

theorem Line.whole_laid (indent : Nat) (l : Line) : '\n' ∉ l.laid indent := by
  have hblanks : '\n' ∉ List.replicate indent ' ' :=
    fun hmem ↦ absurd (List.eq_of_mem_replicate hmem) (by decide)
  rw [laid, starred, List.append_assoc]
  simp [hblanks, l.whole]

namespace TagLines

def head (t : TagLines) : Line where
  text := '@' :: (t.name ++ ' ' :: t.first.text)
  after := t.first.after
  ne_nil := List.cons_ne_nil _ _
  trimmed := by
    refine ⟨?_, ?_⟩
    · rintro _ ⟨⟩
      decide
    · rw [List.append_cons, ← List.cons_append, List.getLast?_append_of_ne_nil _ t.first.ne_nil]
      exact t.first.trimmed.last
  blank := t.first.blank
  whole := by
    have hname : '\n' ∉ t.name := fun hmem ↦ absurd (t.unbroken _ hmem) (by decide)
    have hfirst := t.first.whole
    rw [List.mem_append] at hfirst
    simpa [hname] using hfirst

def lines (t : TagLines) : List (List Char) := t.head.laid 1 :: t.more.map fun l ↦ l.laid 3

def tag (t : TagLines) : DocTag :=
  ⟨String.ofList t.name, [' '].intercalate (t.first.text :: texts t.more)⟩

end TagLines

namespace Layout

def front (l : Layout) : List (List Char) :=
  l.summary.map (fun m ↦ m.laid 1) ++
    (if l.description.isEmpty then [] else starred [] :: l.description.map fun m ↦ m.laid 1) ++
    List.replicate l.gap (starred [])

def lines (l : Layout) : List (List Char) := l.front ++ l.tags.flatMap TagLines.lines

def comment (l : Layout) : String := commentOf l.lines

end Layout

variable {s : List (List Char)} {i : Bool} {ts : List DocTag}

theorem addLine_free (l : FreeLine) (b : DocBlock) :
    addLine b l.text =
      if !b.tags.isEmpty then { b with tags := continueLast l.text b.tags }
      else if b.inSummary then { b with summaryLines := b.summaryLines ++ [l.text] }
      else b := by
  obtain ⟨c, cs, htext⟩ := List.exists_cons_of_ne_nil l.ne_nil
  have hplain := l.plain
  rw [htext] at hplain ⊢
  have hc : c ≠ '@' := by simpa using hplain
  simp [addLine, hc]

theorem foldl_summary (ls : List FreeLine) :
    (texts ls).foldl addLine ⟨s, true, []⟩ = ⟨s ++ texts ls, true, []⟩ := by
  induction ls generalizing s with
  | nil => simp [texts]
  | cons l ls ih =>
    rw [texts, List.map_cons, List.foldl_cons, addLine_free]
    exact ih.trans (by simp [texts])

theorem foldl_description (ls : List FreeLine) :
    (texts ls).foldl addLine ⟨s, false, []⟩ = ⟨s, false, []⟩ := by
  induction ls with
  | nil => rfl
  | cons l ls ih =>
    rw [texts, List.map_cons, List.foldl_cons, addLine_free]
    exact ih

theorem foldl_gap (n : Nat) :
    ∃ i', (List.replicate n []).foldl addLine ⟨s, i, ts⟩ = ⟨s, i', ts⟩ := by
  induction n generalizing i with
  | zero => exact ⟨i, rfl⟩
  | succ n ih => exact ih

theorem foldl_joinLine {line : List Char} (hne : line ≠ []) (ls : List (List Char)) :
    ls.foldl joinLine line = [' '].intercalate (line :: ls) := by
  induction ls generalizing line with
  | nil => simp
  | cons l ls ih =>
    have hjoin : joinLine line l = line ++ ' ' :: l := by simp [joinLine, hne]
    rw [List.foldl_cons, hjoin, ih (by simp),
      List.intercalate_cons_of_ne_nil (List.cons_ne_nil l ls)]
    cases ls with
    | nil => simp
    | cons m ls => simp [List.intercalate_cons_of_ne_nil]

theorem continueLast_append (line : List Char) (ts : List DocTag) (t : DocTag) :
    continueLast line (ts ++ [t]) = ts ++ [{ t with body := joinLine t.body line }] := by
  induction ts with
  | nil => rfl
  | cons u ts ih =>
    rw [List.cons_append, continueLast, ih, List.cons_append]
    simp

theorem foldl_more (ls : List FreeLine) (t : DocTag) :
    (texts ls).foldl addLine ⟨s, i, ts ++ [t]⟩ =
      ⟨s, i, ts ++ [{ t with body := (texts ls).foldl joinLine t.body }]⟩ := by
  induction ls generalizing t with
  | nil => rfl
  | cons l ls ih =>
    have hstep : addLine ⟨s, i, ts ++ [t]⟩ l.text =
        ⟨s, i, ts ++ [{ t with body := joinLine t.body l.text }]⟩ := by
      rw [addLine_free, if_pos (by simp), continueLast_append]
    rw [texts, List.map_cons, List.foldl_cons, hstep]
    exact ih _

theorem tagOf_append {name body : List Char} (hname : ∀ c ∈ name, isBlank c = false)
    (hbody : Trimmed body) : tagOf (name ++ ' ' :: body) = ⟨String.ofList name, body⟩ := by
  have hsplit : splitFirst? isBlank (name ++ ' ' :: body) = some (name, body) :=
    splitFirst?_append hname (by decide)
  simp only [tagOf, hsplit, Option.getD_some, hbody.trimChars]

theorem foldl_tag (t : TagLines) :
    (t.lines.map undecorated).foldl addLine ⟨s, i, ts⟩ = ⟨s, false, ts ++ [t.tag]⟩ := by
  have hhead : addLine ⟨s, i, ts⟩ t.head.text =
      ⟨s, false, ts ++ [⟨String.ofList t.name, t.first.text⟩]⟩ := by
    rw [← tagOf_append t.unbroken t.first.trimmed]
    rfl
  rw [TagLines.lines, List.map_cons, Line.undecorated_laid, map_undecorated_laid, List.foldl_cons,
    hhead, foldl_more, foldl_joinLine t.first.ne_nil]
  rfl

theorem foldl_tags (us : List TagLines) :
    ((us.flatMap TagLines.lines).map undecorated).foldl addLine ⟨s, i, ts⟩ =
      ⟨s, i && us.isEmpty, ts ++ us.map TagLines.tag⟩ := by
  induction us generalizing i ts with
  | nil => simp
  | cons u us ih =>
    rw [List.flatMap_cons, List.map_append, List.foldl_append, foldl_tag, ih]
    simp

namespace Layout

/-- A blank line ends the summary, and a description behind it is left out. -/
theorem foldl_front (l : Layout) :
    ∃ i, (l.front.map undecorated).foldl addLine {} = ⟨texts l.summary, i, []⟩ := by
  have hblank : undecorated (starred []) = [] := rfl
  have hsummary : (texts l.summary).foldl addLine {} = ⟨texts l.summary, true, []⟩ :=
    foldl_summary l.summary
  rw [front, List.map_append, List.map_append, map_undecorated_laid, List.map_replicate, hblank,
    List.foldl_append, List.foldl_append, hsummary]
  by_cases hnone : l.description = []
  · rw [hnone]
    exact foldl_gap l.gap
  · have hstop : addLine ⟨texts l.summary, true, []⟩ [] = ⟨texts l.summary, false, []⟩ := by
      simp [addLine, texts, l.described hnone]
    rw [if_neg (by simpa using hnone), List.map_cons, hblank, map_undecorated_laid, List.foldl_cons,
      hstop, foldl_description]
    exact foldl_gap l.gap

theorem whole_lines (l : Layout) : ∀ m ∈ l.lines, '\n' ∉ m := by
  have hlaid (indent : Nat) (ls : List FreeLine) : ∀ m ∈ ls.map fun l ↦ l.laid indent, '\n' ∉ m :=
    List.forall_mem_map.mpr fun l _ ↦ l.whole_laid indent
  have hblank : '\n' ∉ starred [] := by decide
  simp only [lines, front, List.forall_mem_append, List.forall_mem_flatMap]
  refine ⟨⟨⟨hlaid 1 _, ?_⟩, fun m hm ↦ List.eq_of_mem_replicate hm ▸ hblank⟩, fun t _ ↦ ?_⟩
  · split
    · exact nofun
    · exact List.forall_mem_cons.mpr ⟨hblank, hlaid 1 _⟩
  · exact List.forall_mem_cons.mpr ⟨t.head.whole_laid 1, hlaid 3 _⟩

theorem ofComment_comment (l : Layout) :
    ∃ i, ofComment l.comment = ⟨texts l.summary, i, l.tags.map TagLines.tag⟩ := by
  obtain ⟨i, hfront⟩ := l.foldl_front
  refine ⟨(i && l.tags.isEmpty) && (texts l.summary).isEmpty, ?_⟩
  rw [comment, ofComment_commentOf l.whole_lines, lines, List.map_append, List.foldl_append, hfront,
    foldl_tags]
  rfl

end Layout

/-- A comment is taken apart into the summary and the tags that it was laid out from. -/
theorem ofComment_layout (l : Layout) :
    (ofComment l.comment).summary = String.ofList ([' '].intercalate (texts l.summary)) ∧
      (ofComment l.comment).tags = l.tags.map TagLines.tag := by
  obtain ⟨i, hblock⟩ := l.ofComment_comment
  rw [hblock]
  refine ⟨congrArg String.ofList ?_, rfl⟩
  cases hsummary : l.summary with
  | nil => rfl
  | cons m ms => exact foldl_joinLine m.ne_nil (texts ms)

example :
    let adds : Line := ⟨"Adds.".toList, [], by decide, by decide +kernel, nofun, by decide⟩
    let int : Line := ⟨"int the".toList, [], by decide, by decide +kernel, nofun, by decide⟩
    let sum : Line := ⟨"sum".toList, [], by decide, by decide +kernel, nofun, by decide⟩
    let tag : TagLines := ⟨"return".toList, int, [⟨sum, by decide⟩], by
      simpa using List.all_eq_true.mp (by decide : "return".toList.all (!isBlank ·) = true)⟩
    (Layout.mk [⟨adds, by decide⟩] [] 1 [tag] nofun).comment =
      "/**\n * Adds.\n *\n * @return int the\n *   sum\n */" := by
  decide +kernel

end DocBlock

end PhpInsight

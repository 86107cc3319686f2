import PhpInsight.Proofs.Reading.Exact

namespace PhpInsight.Peg.CharClass

theorem contains_ofChars (cs : List Char) (x : Char) :
    (ofChars cs).contains x = decide (x ∈ cs) := by
  have hsame (c : Char) : (decide (c ≤ x) && decide (x ≤ c)) = decide (x = c) := by
    rw [Bool.eq_iff_iff, Bool.and_eq_true, decide_eq_true_iff, decide_eq_true_iff,
      decide_eq_true_iff]
    exact ⟨fun h ↦ Char.le_antisymm h.2 h.1, fun h ↦ h ▸ ⟨Char.le_refl _, Char.le_refl _⟩⟩
  rw [contains, ofChars, Bool.false_bne, List.any_map, Bool.eq_iff_iff, List.any_eq_true,
    decide_eq_true_iff]
  simp [hsame]

end PhpInsight.Peg.CharClass

namespace PhpInsight.Grammar

open Peg Peg.Parser

variable {text rest : List Char} {heads : List Char}

/-- The first character of a text is one of some characters, if there is one. -/
def Heads (cs text : List Char) : Prop := ∀ x ∈ text.head?, x ∈ cs

theorem heads_cons {cs : List Char} {x : Char} (h : x ∈ cs) : Heads cs (x :: text) := by
  rintro y ⟨⟩
  exact h

theorem heads_nil {cs : List Char} : Heads cs [] := nofun

namespace Heads

variable {s : String} (h : Heads heads text)

include h

theorem rejects_oneOf {k : CharClass} (hk : heads.all (!k.contains ·) = true) :
    Rejects (oneOf k) text :=
  .oneOf fun x hx ↦ by simpa using List.all_eq_true.mp hk x (h x hx)

theorem rejects_literal (hs : s.toList.head?.any (· ∉ heads) = true) :
    Rejects (literal s) text := by
  cases hl : s.toList with
  | nil => simp [hl] at hs
  | cons c cs =>
    refine .literal_head hl fun x hx ↦ ?_
    rintro rfl
    simp [hl, h x hx] at hs

theorem rejects_word (hw : heads.all (!wordStart.contains ·) = true) : Rejects word text :=
  .textOf (.bind (h.rejects_oneOf hw))

theorem rejects_keyword (hw : heads.all (!wordStart.contains ·) = true) :
    Rejects (keyword s) text := .bind (h.rejects_word hw)

theorem rejects_stringLiteral (hs : ['\'', '"', '<'].all (· ∉ heads) = true) :
    Rejects stringLiteral text := by
  simp only [List.all_cons, List.all_nil, Bool.and_true, Bool.and_eq_true, decide_eq_true_eq] at hs
  obtain ⟨hsingle, hdouble, hangle⟩ := hs
  have hquoted {quote : Char} (hq : quote ∉ heads) : Rejects (quoted quote) text :=
    .bind (h.rejects_literal (by simpa using hq))
  exact .orElse (hquoted hsingle) (.orElse (hquoted hdouble)
    (.bind (h.rejects_literal (by simpa using hangle))))

end Heads

theorem rejects_literal_of_absent {s : String} (h : ¬ s.toList <+: text) :
    Rejects (literal s) text := by
  intro n
  unfold Parser.literal
  cases hnext : Cursor.dropText? s.toList ⟨text, n⟩ with
  | none => exact ⟨_, rfl⟩
  | some next => exact absurd ⟨next.rest, (dropText?_eq_some hnext).1.symm⟩ h

theorem rejects_string_of_angle (h : ¬ ['<', '<'] <+: text) :
    Rejects stringLiteral ('<' :: text) := by
  have hheads : Heads ['<'] ('<' :: text) := heads_cons List.mem_cons_self
  have hquoted {quote : Char} (hq : quote ∉ ['<']) : Rejects (quoted quote) ('<' :: text) :=
    .bind (hheads.rejects_literal (by simpa using hq))
  exact .orElse (hquoted (by decide)) (.orElse (hquoted (by decide))
    (.bind (rejects_literal_of_absent fun hdoc ↦ h (List.cons_prefix_cons.mp hdoc).2)))

def isWordText : List Char → Bool
  | [] => false
  | x :: xs => wordStart.contains x && xs.all isWordChar

def EndsWord (text : List Char) : Prop := ∀ x ∈ text.head?, isWordChar x = false

theorem endsWord_cons {x : Char} (h : isWordChar x = false) : EndsWord (x :: text) := by
  rintro y ⟨⟩
  exact h

theorem yields_word (hw : isWordText text = true) (hrest : EndsWord rest) :
    Yields word text rest (·.toList = text) := by
  cases text with
  | nil => cases hw
  | cons x xs =>
    simp only [isWordText, Bool.and_eq_true, List.all_eq_true] at hw
    refine .textOf (.bind_head (.oneOf hw.1) fun _ _ ↦ .skipMany ?_ ?_)
    · intro y before behind he
      have hy : isWordChar y = true := hw.2 y (he ▸ List.mem_append_right _ List.mem_cons_self)
      cases hc : wordStart.contains y with
      | true => exact .orElse (.oneOf hc)
      | false =>
        refine .orElse_of_rejects (.oneOf ?_) (.oneOf (by simpa [isWordChar, hc] using hy))
        rintro z ⟨⟩
        exact hc
    · refine .orElse (.oneOf fun y hy ↦ ?_) (.oneOf fun y hy ↦ ?_)
      all_goals
        have hy := hrest y hy
        simp only [isWordChar, Bool.or_eq_false_iff] at hy
      · exact hy.1
      · exact hy.2

theorem accepts_keyword {s : String} (hw : isWordText text = true) (hrest : EndsWord rest)
    (hs : Text.sameIgnoringCase (String.ofList text) s = true) :
    Accepts (keyword s) text rest := by
  refine .map (yields_word hw hrest) fun w hword ↦ ?_
  have hw : w = String.ofList text := String.toList_inj.mp (by rw [hword, String.toList_ofList])
  rw [hw, if_pos hs]
  exact .pure trivial

theorem rejects_keyword {s : String} (hw : isWordText text = true) (hrest : EndsWord rest)
    (hs : Text.sameIgnoringCase (String.ofList text) s = false) :
    Rejects (keyword s) (text ++ rest) := by
  refine .bind_of_yields (yields_word hw hrest) fun w hword ↦ ?_
  have hw : w = String.ofList text := String.toList_inj.mp (by rw [hword, String.toList_ofList])
  rw [hw, if_neg (by simp [hs])]
  exact .failExpecting

theorem rejects_reserved (hw : isWordText text = true) (hrest : EndsWord rest)
    (hs : isReserved (String.ofList text) = false) : Rejects reserved (text ++ rest) := by
  refine .bind_of_yields (yields_word hw hrest) fun w hword ↦ ?_
  have hw : w = String.ofList text := String.toList_inj.mp (by rw [hword, String.toList_ofList])
  rw [hw, if_neg (by simp [hs])]
  exact .failExpecting

theorem yields_variableName (hw : isWordText text = true) (hrest : EndsWord rest) :
    Yields variableName ('$' :: text) rest (·.name.toList = text) := by
  refine .bind_nil .position fun start _ ↦ ?_
  refine .bind_head (.literal "$") fun _ _ ↦ ?_
  refine .map (yields_word hw hrest) fun w hword ↦ ?_
  exact .bind_nil .position fun stop _ ↦ .pure hword

theorem yields_variableExpr (hw : isWordText text = true) (hrest : EndsWord rest) :
    Yields variableExpr ('$' :: text) rest (·.kind = .variable (String.ofList text)) := by
  refine .bind_nil .position fun start _ ↦ ?_
  refine .map (yields_variableName hw hrest) fun v hv ↦ ?_
  refine .bind_nil .position fun stop _ ↦ .pure ?_
  have hname : v.name = String.ofList text :=
    String.toList_inj.mp (by rw [hv, String.toList_ofList])
  rw [hname]

def segmentsText (parts : List String) : List Char := parts.flatMap fun p ↦ '\\' :: p.toList

def pathText (full : Bool) : List String → List Char
  | [] => []
  | first :: others => (if full then ['\\'] else []) ++ (first.toList ++ segmentsText others)

structure EndsName (text : List Char) : Prop where
  word : EndsWord text
  segment : ∀ x ∈ text.head?, x ≠ '\\'

theorem endsWord_segmentsText {parts : List String} (h : EndsWord rest) :
    EndsWord (segmentsText parts ++ rest) := by
  cases parts with
  | nil => exact h
  | cons p ps => exact endsWord_cons (not_isWordChar '\\' (by simp))

theorem rejects_segment (h : EndsName rest) : Rejects (do literal "\\"; word) rest :=
  .bind (.literal_head rfl h.segment)

theorem repeats_segments {parts : List String}
    (hparts : ∀ p ∈ parts, isWordText p.toList = true) (hend : EndsWord rest)
    (hstop : Rejects (do literal "\\"; word) rest) :
    Repeats (do literal "\\"; word) (segmentsText parts) rest (· = parts) := by
  induction parts with
  | nil => exact .stop hstop rfl
  | cons p ps ih =>
    have hword := hparts p List.mem_cons_self
    have hstep : Yields (do literal "\\"; word) ('\\' :: p.toList) (segmentsText ps ++ rest)
        (· = p) := by
      refine .bind_head (.literal "\\") fun _ _ ↦ ?_
      exact (yields_word hword (endsWord_segmentsText hend)).imp fun _ h ↦
        String.toList_inj.mp h
    refine .next (List.cons_ne_nil _ _) hstep fun a ha ↦ ?_
    subst ha
    have h := ih fun q hq ↦ hparts q (List.mem_cons_of_mem _ hq)
    intro fuel n hlength
    obtain ⟨as, f, hm, has⟩ := h fuel n hlength
    exact ⟨as, f, hm, by rw [has]⟩

def isPathOfWords (parts : List String) : Bool :=
  !parts.isEmpty && parts.all fun p ↦ isWordText p.toList

/-- A name stops in front of a separator behind which no word stands. -/
theorem yields_name_before {full : Bool} {parts : List String}
    (hparts : isPathOfWords parts = true) (hend : EndsWord rest)
    (hstop : Rejects (do literal "\\"; word) rest) :
    Yields name (pathText full parts) rest fun n ↦ ∃ span, n = .ofParts full parts span := by
  cases parts with
  | nil => cases hparts
  | cons first others =>
    simp only [isPathOfWords, List.isEmpty_cons, Bool.not_false, Bool.true_and, List.all_cons,
      Bool.and_eq_true, List.all_eq_true] at hparts
    have hslash : Yields (isPresent (literal "\\")) (if full then ['\\'] else [])
        (first.toList ++ segmentsText others ++ rest) (· = full) := by
      cases full with
      | true =>
        refine .map (.optional (.literal "\\")) fun o ho ↦ .pure ?_
        obtain ⟨_, rfl, _⟩ := ho
        rfl
      | false =>
        have hhead : Rejects (literal "\\") (first.toList ++ segmentsText others ++ rest) := by
          have hword := hparts.1
          cases hf : first.toList with
          | nil => simp [hf, isWordText] at hword
          | cons x xs =>
            rw [hf, isWordText, Bool.and_eq_true] at hword
            refine .literal_head rfl ?_
            rintro y ⟨⟩ rfl
            exact absurd hword.1 (by decide)
        refine .map (.optional_none hhead) fun o ho ↦ .pure ?_
        rw [ho]
        rfl
    refine .bind_nil .position fun start _ ↦ ?_
    refine .bind hslash fun f hf ↦ ?_
    subst hf
    refine .bind (yields_word hparts.1 (endsWord_segmentsText hend)) fun w hw ↦ ?_
    refine .map (repeats_segments hparts.2 hend hstop).many fun ws hws ↦ ?_
    refine .bind_nil .position fun stop _ ↦ .pure ⟨⟨start, stop⟩, ?_⟩
    rw [hws, String.toList_inj.mp hw]

theorem yields_name {full : Bool} {parts : List String} (hparts : isPathOfWords parts = true)
    (hrest : EndsName rest) :
    Yields name (pathText full parts) rest fun n ↦ ∃ span, n = .ofParts full parts span :=
  yields_name_before hparts hrest.word (rejects_segment hrest)

/-- Only the first segment of a name without a leading backslash must be no reserved word. -/
def startsPlain (full : Bool) (parts : List String) : Bool := full || !isReserved (parts.headD "")

theorem yields_plainName {full : Bool} {parts : List String} (hparts : isPathOfWords parts = true)
    (hplain : startsPlain full parts = true) (hrest : EndsName rest) :
    Yields plainName (pathText full parts) rest fun n ↦ ∃ span, n = .ofParts full parts span := by
  refine .bind_nil (.notAhead ?_) fun _ _ ↦ yields_name hparts hrest
  cases parts with
  | nil => cases hparts
  | cons first others =>
    cases full with
    | true => exact .bind ((heads_cons (List.mem_singleton_self '\\')).rejects_word (by decide))
    | false =>
      simp only [isPathOfWords, List.isEmpty_cons, Bool.not_false, Bool.true_and, List.all_cons,
        Bool.and_eq_true] at hparts
      simp only [startsPlain, Bool.false_or, Bool.not_eq_true', List.headD_cons] at hplain
      have hend : EndsWord (segmentsText others ++ rest) := endsWord_segmentsText hrest.word
      have h := rejects_reserved hparts.1 hend (by rwa [String.ofList_toList])
      simpa [pathText] using h

theorem rejects_string_of_angles : Rejects stringLiteral ('<' :: '<' :: '<' :: '<' :: text) := by
  have hheads (more : List Char) : Heads ['<'] ('<' :: more) := heads_cons List.mem_cons_self
  have hquoted {quote : Char} (hq : quote ∉ ['<']) :
      Rejects (quoted quote) ('<' :: '<' :: '<' :: '<' :: text) :=
    .bind ((hheads _).rejects_literal (by simpa using hq))
  have hspace : Accepts (skipMany (oneOf inlineSpace)) [] ('<' :: text) :=
    .skipMany (fun _ _ _ he ↦ by simp at he) ((hheads _).rejects_oneOf (by decide))
  refine .orElse (hquoted (by decide)) (.orElse (hquoted (by decide)) ?_)
  have hsign : Accepts (literal "<<<") ['<', '<', '<'] ('<' :: text) := .literal "<<<"
  refine .bind_of_yields hsign fun _ _ ↦ ?_
  refine .bind_nil hspace fun _ _ ↦ ?_
  refine .bind_nil (.optional_none ((hheads _).rejects_oneOf (by decide))) fun _ _ ↦ ?_
  exact .bind ((hheads _).rejects_word (by decide))

/-- The text starts with neither a blank nor a comment. -/
structure Solid (text : List Char) : Prop where
  blank : ∀ x ∈ text.head?, x ∉ [' ', '\t', '\n', '\r']
  comment : Rejects comment text

theorem rejects_comment (h : ∀ s ∈ ["/*", "//", "#[", "#"], Rejects (literal s) text) :
    Rejects comment text :=
  .orElse (.bind (h "/*" (by decide))) (.orElse (.bind (h "//" (by decide)))
    (.orElse (.bind (h "#[" (by decide))) (.bind (h "#" (by decide)))))

theorem Heads.rejects_comment (h : Heads heads text)
    (hs : ['/', '#'].all (· ∉ heads) = true) : Rejects comment text := by
  simp only [List.all_cons, List.all_nil, Bool.and_true, Bool.and_eq_true, decide_eq_true_eq] at hs
  refine Grammar.rejects_comment fun s hmem ↦ h.rejects_literal ?_
  simp only [List.mem_cons, List.not_mem_nil, or_false] at hmem
  rcases hmem with rfl | rfl | rfl | rfl
  · simpa using hs.1
  · simpa using hs.1
  · simpa using hs.2
  · simpa using hs.2

theorem rejects_comment_of_slash (h : ∀ x ∈ text.head?, x ∉ ['/', '*']) :
    Rejects comment ('/' :: text) := by
  have hsecond (y : Char) (hy : y ∈ ['/', '*']) : ¬ ['/', y] <+: '/' :: text := by
    intro hprefix
    obtain ⟨zs, hzs⟩ := (List.cons_prefix_cons.mp hprefix).2
    exact h y (by rw [← hzs]; rfl) hy
  refine rejects_comment fun s hs ↦ rejects_literal_of_absent ?_
  simp only [List.mem_cons, List.not_mem_nil, or_false] at hs
  rcases hs with rfl | rfl | rfl | rfl
  · exact hsecond '*' (by decide)
  · exact hsecond '/' (by decide)
  · exact fun hprefix ↦ absurd (List.cons_prefix_cons.mp hprefix).1 (by decide)
  · exact fun hprefix ↦ absurd (List.cons_prefix_cons.mp hprefix).1 (by decide)

theorem solid_of_head (h : ∀ x ∈ text.head?, x ∉ [' ', '\t', '\n', '\r', '/', '#']) :
    Solid text where
  blank x hx hmem := h x hx (List.mem_append_left ['/', '#'] hmem)
  comment := by
    refine rejects_comment fun s hs ↦ ?_
    obtain ⟨c, cs, hl, hc⟩ : ∃ c cs, s.toList = c :: cs ∧ c ∈ ['/', '#'] := by
      simp only [List.mem_cons, List.not_mem_nil, or_false] at hs
      rcases hs with rfl | rfl | rfl | rfl <;> exact ⟨_, _, rfl, by decide⟩
    refine .literal_head hl fun x hx he ↦ h x hx ?_
    exact List.mem_append_right [' ', '\t', '\n', '\r'] (he ▸ hc)

theorem Heads.solid (h : Heads heads text)
    (hs : heads.all (· ∉ [' ', '\t', '\n', '\r', '/', '#']) = true) : Solid text :=
  solid_of_head fun x hx ↦ of_decide_eq_true (List.all_eq_true.mp hs x (h x hx))

theorem solid_pathText {full : Bool} {parts : List String} (h : isPathOfWords parts = true) :
    Solid (pathText full parts ++ rest) := by
  cases parts with
  | nil => cases h
  | cons first others =>
    cases full with
    | true => exact (heads_cons (List.mem_singleton_self '\\')).solid (by decide)
    | false =>
      simp only [isPathOfWords, List.isEmpty_cons, Bool.not_false, Bool.true_and, List.all_cons,
        Bool.and_eq_true] at h
      have hword := h.1
      cases hf : first.toList with
      | nil => simp [hf, isWordText] at hword
      | cons x xs =>
        rw [hf, isWordText, Bool.and_eq_true] at hword
        refine solid_of_head fun y hy hmem ↦ ?_
        obtain rfl : x = y := by simpa [pathText, hf] using hy
        have hnone : [' ', '\t', '\n', '\r', '/', '#'].all (!wordStart.contains ·) = true := by
          decide
        simpa [hword.1] using List.all_eq_true.mp hnone x hmem

def isSolid (text : List Char) : Bool :=
  text.head?.any (· ∉ [' ', '\t', '\n', '\r']) &&
    ["/*", "//", "#[", "#"].all fun s ↦ Differ s.toList text

theorem solid_append (h : isSolid text = true) (rest : List Char) : Solid (text ++ rest) := by
  cases text with
  | nil => cases h
  | cons x xs =>
    obtain ⟨hblank, hcomment⟩ := Bool.and_eq_true_iff.mp h
    refine ⟨?_, rejects_comment fun s hs ↦ .literal (List.all_eq_true.mp hcomment s hs)⟩
    rintro y ⟨⟩
    exact of_decide_eq_true hblank

namespace Solid

variable (h : Solid text)

include h

theorem rejects_blank : Rejects (oneOf (.ofChars [' ', '\t', '\n', '\r'])) text := by
  refine .oneOf fun x hx ↦ ?_
  rw [CharClass.contains_ofChars, decide_eq_false_iff_not]
  exact h.blank x hx

theorem rejects : Rejects (whitespace <|> Grammar.comment) text :=
  .orElse (.bind h.rejects_blank) h.comment

end Solid

theorem accepts_trivia_nil (h : Solid rest) : Accepts trivia [] rest :=
  .quiet (.skipMany (fun _ _ _ he ↦ by simp at he) h.rejects)

theorem accepts_trivia_blank (h : Solid rest) : Accepts trivia [' '] rest := by
  refine .quiet (.skipMany (fun x xs ys he ↦ ?_) h.rejects)
  obtain ⟨rfl, rfl, rfl⟩ : xs = [] ∧ ' ' = x ∧ [] = ys := by
    cases xs with
    | nil => simpa using he
    | cons y xs => simp at he
  have hend : Accepts (skipMany (oneOf (.ofChars [' ', '\t', '\n', '\r']))) [] rest :=
    .skipMany (fun _ _ _ he ↦ by simp at he) h.rejects_blank
  exact .orElse (.bind_head (.oneOf (by decide)) fun _ _ ↦ hend)

end PhpInsight.Grammar

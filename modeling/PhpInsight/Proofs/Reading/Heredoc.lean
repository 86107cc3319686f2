import Mathlib.Data.List.TakeWhile
import PhpInsight.Proofs.Comments.Skipped
import PhpInsight.Proofs.Lines.Splitting
import PhpInsight.Proofs.Operators.RoundTrip

namespace PhpInsight.Grammar

open Peg Peg.Parser Text

variable {g : Rules} {label line body cs more rest : List Char}

def Closes (label line : List Char) : Prop :=
  ∃ more, line.dropWhile (· ∈ [' ', '\t']) = label ++ more ∧ EndsWord more

instance (text : List Char) : Decidable (EndsWord text) :=
  decidable_of_iff (text.head?.all (!isWordChar ·) = true) (by cases text <;> simp [EndsWord])

instance (label line : List Char) : Decidable (Closes label line) :=
  decidable_of_iff (label <+: line.dropWhile (· ∈ [' ', '\t']) ∧
    EndsWord ((line.dropWhile (· ∈ [' ', '\t'])).drop label.length)) <| by
    constructor
    · rintro ⟨⟨more, hmore⟩, hend⟩
      rw [← hmore, List.drop_left] at hend
      exact ⟨more, hmore.symm, hend⟩
    · rintro ⟨more, hmore, hend⟩
      rw [hmore, List.drop_left]
      exact ⟨List.prefix_append label more, hend⟩

inductive LineBreak
  | feed
  | returnFeed

def LineBreak.text : LineBreak → List Char
  | feed => ['\n']
  | returnFeed => ['\r', '\n']

/-- A text as a heredoc, with the line breaks and blanks that are no part of it. -/
structure Heredoc where
  blanks : List Char := []
  opening : Option Char := none
  label : List Char
  closing : Option Char := none
  first : LineBreak := .feed
  body : List Char
  last : LineBreak := .feed
  indent : List Char := []
  blanks_inline : ∀ x ∈ blanks ++ indent, x ∈ [' ', '\t']
  quotes : ∀ x ∈ opening.toList ++ closing.toList, x ∈ ['"', '\'']
  isWord : isWordText label = true
  unmistaken : body.getLast? ≠ some '\r'
  unclosed : ∀ line ∈ splitBy (· == '\n') body, ¬ Closes label line

namespace Heredoc

def raw (h : Heredoc) : List Char := h.first.text ++ h.body

def stop (h : Heredoc) : List Char := h.last.text ++ (h.indent ++ h.label)

def text (h : Heredoc) : List Char :=
  "<<<".toList ++ (h.blanks ++ (h.opening.toList ++ (h.label ++ (h.closing.toList ++
    (h.raw ++ h.stop)))))

end Heredoc

theorem accepts_lineEnd (b : LineBreak) : Accepts lineEnd b.text rest := by
  cases b with
  | feed => exact .orElse_of_rejects (.literal (by decide)) (.literal "\n")
  | returnFeed => exact .orElse (.literal "\r\n")

theorem accepts_inline (hcs : ∀ x ∈ cs, x ∈ [' ', '\t'])
    (hrest : ∀ x ∈ rest.head?, x ∉ [' ', '\t']) :
    Accepts (skipMany (oneOf inlineSpace)) cs rest := by
  refine .skipMany (fun x xs ys he ↦ .oneOf ?_) (.oneOf fun x hx ↦ ?_)
  · have hx : x ∈ cs := he ▸ List.mem_append_right xs List.mem_cons_self
    rw [inlineSpace, CharClass.contains_ofChars]
    exact decide_eq_true (hcs x hx)
  · rw [inlineSpace, CharClass.contains_ofChars]
    exact decide_eq_false (hrest x hx)

theorem head_of_isWordText (h : isWordText label = true) {k : List Char}
    (hk : k.all (!wordStart.contains ·) = true) : ∀ x ∈ (label ++ more).head?, x ∉ k := by
  cases label with
  | nil => cases h
  | cons y ys =>
    rintro x ⟨⟩ hmem
    have hnone := List.all_eq_true.mp hk y hmem
    rw [isWordText, Bool.and_eq_true] at h
    simp [h.1] at hnone

theorem EndsWord.append (h : EndsWord more) (hrest : EndsWord rest) : EndsWord (more ++ rest) := by
  cases more with
  | nil => exact hrest
  | cons x xs => exact h

theorem first_word (cs : List Char) (hrest : EndsWord rest) :
    Rejects word (cs ++ rest) ∨
      ∃ w more, cs = w ++ more ∧ isWordText w = true ∧ EndsWord more := by
  have hnone (h : ∀ x ∈ (cs ++ rest).head?, wordStart.contains x = false) :
      Rejects word (cs ++ rest) := .textOf (.bind (.oneOf h))
  cases cs with
  | nil =>
    refine .inl (hnone fun x hx ↦ ?_)
    have hx := hrest x hx
    rw [isWordChar, Bool.or_eq_false_iff] at hx
    exact hx.1
  | cons x xs =>
    cases hx : wordStart.contains x with
    | false =>
      refine .inl (hnone ?_)
      rintro y ⟨⟩
      exact hx
    | true =>
      refine .inr ⟨x :: xs.takeWhile isWordChar, xs.dropWhile isWordChar, ?_, ?_, ?_⟩
      · rw [List.cons_append, List.takeWhile_append_dropWhile]
      · rw [isWordText, hx, Bool.true_and, List.all_takeWhile]
      · intro y hy
        have hstop := List.head?_dropWhile_not isWordChar xs
        rw [hy] at hstop
        exact hstop

def closingLabel (label : List Char) : Parser Unit := do
  skipMany (oneOf inlineSpace)
  let w ← word
  if w = String.ofList label then pure () else failExpecting "heredoc terminator"

theorem rejects_closing (h : ¬ Closes label line)
    (hbreak : ∀ x ∈ rest.head?, x ∈ ['\n', '\r']) :
    Rejects (closingLabel label) (line ++ rest) := by
  have hnot (x : Char) (hx : x ∈ ['\n', '\r']) : x ∉ [' ', '\t'] ∧ isWordChar x = false := by
    simp only [List.mem_cons, List.not_mem_nil, or_false] at hx
    rcases hx with rfl | rfl <;> decide
  have hend : EndsWord rest := fun x hx ↦ (hnot x (hbreak x hx)).2
  have hinline : Accepts (skipMany (oneOf inlineSpace)) (line.takeWhile (· ∈ [' ', '\t']))
      (line.dropWhile (· ∈ [' ', '\t']) ++ rest) := by
    refine accepts_inline (fun x hx ↦ by simpa using List.mem_takeWhile_imp hx) ?_
    cases hline : line.dropWhile (· ∈ [' ', '\t']) with
    | nil => exact fun x hx ↦ (hnot x (hbreak x hx)).1
    | cons y ys =>
      have hstop := List.head?_dropWhile_not (· ∈ [' ', '\t']) line
      rw [hline] at hstop
      rintro x ⟨⟩
      exact of_decide_eq_false hstop
  rw [← List.takeWhile_append_dropWhile (p := (· ∈ [' ', '\t'])) (l := line), List.append_assoc]
  refine .bind_of_yields hinline fun _ _ ↦ ?_
  rcases first_word (line.dropWhile (· ∈ [' ', '\t'])) hend with
    hnone | ⟨w, more, hw, hword, hmore⟩
  · exact .bind hnone
  · rw [hw, List.append_assoc]
    refine .bind_of_yields (yields_word hword (hmore.append hend)) fun v hv ↦ ?_
    rw [if_neg]
    · exact .failExpecting
    · rintro rfl
      rw [String.toList_ofList] at hv
      exact h ⟨more, hv ▸ hw, hmore⟩

theorem rejects_lineEnd (hfeed : cs.head? ≠ some '\n') (hreturn : ¬ ['\r', '\n'] <+: cs) :
    Rejects lineEnd cs :=
  .orElse (rejects_literal_of_absent hreturn) (.literal_head rfl fun x hx he ↦ by
    subst he
    exact hfeed hx)

namespace Heredoc

variable (h : Heredoc)

theorem text_first : ∃ before, h.first.text = before ++ ['\n'] ∧ '\n' ∉ before := by
  cases h.first with
  | feed => exact ⟨[], rfl, List.not_mem_nil⟩
  | returnFeed => exact ⟨['\r'], rfl, by decide⟩

/-- Behind each line break of the text, and behind the one in front of it, a line of it starts. -/
theorem line_behind {before behind : List Char} (hraw : h.raw = before ++ '\n' :: behind) :
    ∃ line ∈ splitBy (· == '\n') h.body, ∃ more, behind = line ++ more ∧
      ∀ x ∈ more.head?, x = '\n' := by
  obtain ⟨start, hstart, hfree⟩ := h.text_first
  have hpieces : [start] ++ splitBy (· == '\n') h.body =
      splitBy (· == '\n') before ++ splitBy (· == '\n') behind := by
    have hfirst : splitBy (· == '\n') start = [start] := by
      rw [splitBy_eq_splitOn, List.splitOn_eq_singleton hfree]
    rw [← splitBy_append_cons, ← hraw, raw, hstart, List.append_assoc]
    exact (hfirst ▸ splitBy_append_cons '\n' start h.body).symm
  obtain ⟨line, later, hbehind⟩ :=
    List.exists_cons_of_ne_nil (splitBy_ne_nil (· == '\n') behind)
  obtain ⟨w, ws, hbefore⟩ := List.exists_cons_of_ne_nil (splitBy_ne_nil (· == '\n') before)
  refine ⟨line, ?_, later.flatMap ('\n' :: ·), ?_, ?_⟩
  · rw [hbefore, hbehind] at hpieces
    have hbody : splitBy (· == '\n') h.body = ws ++ line :: later := (List.cons.inj hpieces).2
    exact hbody ▸ List.mem_append_right ws List.mem_cons_self
  · simpa using eq_of_splitBy (hbehind.trans (List.nil_append _).symm)
  · cases later with
    | nil => exact nofun
    | cons v vs =>
      rintro x ⟨⟩
      rfl

theorem getLast_raw : h.raw.getLast? ≠ some '\r' := by
  obtain ⟨start, hstart, -⟩ := h.text_first
  rw [raw, hstart]
  cases hbody : h.body with
  | nil => simp
  | cons x xs =>
    rw [List.getLast?_append, List.getLast?_cons, Option.some_or, ← List.getLast?_cons, ← hbody]
    exact h.unmistaken

theorem head_stop : ∀ x ∈ (h.stop ++ rest).head?, x ∈ ['\n', '\r'] := by
  rw [stop]
  cases h.last <;> (rintro x ⟨⟩; decide)

theorem rejects_behind {before behind : List Char} (hraw : h.raw = before ++ '\n' :: behind) :
    Rejects (closingLabel h.label) (behind ++ (h.stop ++ rest)) := by
  obtain ⟨line, hline, more, rfl, hmore⟩ := h.line_behind hraw
  rw [List.append_assoc]
  refine rejects_closing (h.unclosed line hline) ?_
  cases more with
  | nil => exact h.head_stop
  | cons y ys =>
    intro x hx
    rw [List.cons_append] at hx
    exact hmore x hx ▸ List.mem_cons_self

/-- No line break of a text is taken for the one in front of the closing label. -/
theorem rejects_inside {before behind : List Char} {x : Char}
    (hraw : h.raw = before ++ x :: behind) :
    Rejects (heredocEnd (String.ofList h.label)) (x :: behind ++ (h.stop ++ rest)) := by
  by_cases hfeed : x = '\n'
  · subst hfeed
    exact .bind_head (accepts_lineEnd .feed) fun _ _ ↦ h.rejects_behind hraw
  · by_cases hreturn : ['\r', '\n'] <+: x :: behind ++ (h.stop ++ rest)
    · obtain ⟨hx, hnext⟩ := List.cons_prefix_cons.mp hreturn
      cases behind with
      | nil =>
        -- a text that ends in a carriage return would make it part of the line break behind it
        exact absurd (by rw [hraw, hx]; simp) h.getLast_raw
      | cons y ys =>
        obtain ⟨rfl, -⟩ := List.cons_prefix_cons.mp hnext
        subst hx
        have hraw' : h.raw = (before ++ ['\r']) ++ '\n' :: ys := by simpa using hraw
        have hbreak : Accepts lineEnd ['\r', '\n'] (ys ++ (h.stop ++ rest)) :=
          accepts_lineEnd .returnFeed
        have hsplit : '\r' :: '\n' :: ys ++ (h.stop ++ rest) =
            ['\r', '\n'] ++ (ys ++ (h.stop ++ rest)) := rfl
        rw [hsplit]
        exact .bind_of_yields hbreak fun _ _ ↦ h.rejects_behind hraw'
    · exact .bind (rejects_lineEnd (by simpa using hfeed) hreturn)

theorem accepts_stop (hrest : EndsWord rest) :
    Accepts (heredocEnd (String.ofList h.label)) h.stop rest := by
  refine .bind (accepts_lineEnd h.last) fun _ _ ↦ ?_
  refine .bind (accepts_inline (fun x hx ↦ h.blanks_inline x (List.mem_append_right _ hx))
    (head_of_isWordText h.isWord (by decide))) fun _ _ ↦ ?_
  refine .map (yields_word h.isWord hrest) fun w hw ↦ ?_
  rw [if_pos (String.toList_inj.mp (by rw [hw, String.toList_ofList]))]
  exact .pure trivial

theorem accepts_raw (hrest : EndsWord rest) :
    Accepts (skipMany do notAhead (heredocEnd (String.ofList h.label)); oneOf .any)
      h.raw (h.stop ++ rest) :=
  .skipMany (fun _ _ _ hraw ↦ .bind_nil (.notAhead (h.rejects_inside hraw)) fun _ _ ↦ .oneOf rfl)
    (.bind (.notAhead (h.accepts_stop hrest)))

theorem heredocText_raw : heredocText (String.ofList h.raw) = String.ofList h.body := by
  cases hfirst : h.first <;> simp [heredocText, raw, hfirst, LineBreak.text]

theorem accepts_quote {quote : Option Char} (hquote : ∀ x ∈ quote, x ∈ ['"', '\''])
    (hrest : ∀ x ∈ rest.head?, x ∉ ['"', '\'']) :
    Accepts (optional (oneOf (.ofChars ['"', '\'']))) quote.toList rest := by
  cases quote with
  | none =>
    refine (Yields.optional_none (.oneOf fun x hx ↦ ?_)).imp fun _ _ ↦ trivial
    rw [CharClass.contains_ofChars]
    exact decide_eq_false (hrest x hx)
  | some x =>
    refine (Yields.optional (Q := fun _ ↦ True) (.oneOf ?_)).imp fun _ _ ↦ trivial
    rw [CharClass.contains_ofChars]
    exact decide_eq_true (hquote x rfl)

theorem head_append {P : Char → Prop} (hcs : ∀ x ∈ cs, P x) (hmore : ∀ x ∈ more.head?, P x) :
    ∀ x ∈ (cs ++ more).head?, P x := by
  cases cs with
  | nil => exact hmore
  | cons y ys => exact fun x hx ↦ hcs x (List.mem_of_mem_head? hx)

theorem yields_heredoc (hrest : EndsWord rest) :
    Yields heredoc h.text rest (· = String.ofList h.body) := by
  have hopening : ∀ x ∈ h.opening.toList, x ∈ ['"', '\''] := fun x hx ↦
    h.quotes x (List.mem_append_left _ hx)
  have hclosing : ∀ x ∈ h.closing.toList, x ∈ ['"', '\''] := fun x hx ↦
    h.quotes x (List.mem_append_right _ hx)
  have hquote (x : Char) (hx : x ∈ ['"', '\'']) : x ∉ [' ', '\t'] ∧ isWordChar x = false := by
    simp only [List.mem_cons, List.not_mem_nil, or_false] at hx
    rcases hx with rfl | rfl <;> decide
  have hbreak : ∀ x ∈ (h.raw ++ h.stop ++ rest).head?, x ∉ ['"', '\''] ∧ isWordChar x = false := by
    rw [raw]
    cases h.first <;> (rintro x ⟨⟩; decide)
  refine .bind (.literal "<<<") fun _ _ ↦ .bind (accepts_inline ?_ ?_) fun _ _ ↦
    .bind (accepts_quote ?_ ?_) fun _ _ ↦ .bind (yields_word h.isWord ?_) fun label hlabel ↦
    .bind (accepts_quote ?_ ?_) fun _ _ ↦ ?_
  · exact fun x hx ↦ h.blanks_inline x (List.mem_append_left _ hx)
  · rw [List.append_assoc]
    refine head_append (fun x hx ↦ (hquote x (hopening x hx)).1) ?_
    rw [List.append_assoc]
    exact head_of_isWordText h.isWord (by decide)
  · exact fun x hx ↦ hopening x (Option.mem_toList.mpr hx)
  · rw [List.append_assoc]
    exact head_of_isWordText h.isWord (by decide)
  · rw [List.append_assoc]
    exact head_append (fun x hx ↦ (hquote x (hclosing x hx)).2) fun x hx ↦ (hbreak x hx).2
  · exact fun x hx ↦ hclosing x (Option.mem_toList.mpr hx)
  · exact fun x hx ↦ (hbreak x hx).1
  · obtain rfl : label = String.ofList h.label :=
      String.toList_inj.mp (by rw [hlabel, String.toList_ofList])
    refine .bind (.textOf (h.accepts_raw hrest)) fun raw hraw ↦ ?_
    refine .map (h.accepts_stop hrest) fun _ _ ↦ .pure ?_
    rw [← h.heredocText_raw, ← hraw, String.ofList_toList]

theorem yields_stringLiteral (hrest : EndsWord rest) :
    Yields stringLiteral h.text rest (· = String.ofList h.body) := by
  have hhead : Heads ['<'] (h.text ++ rest) := heads_cons List.mem_cons_self
  have hquoted {quote : Char} (hq : quote ∉ ['<']) : Rejects (quoted quote) (h.text ++ rest) :=
    .bind (hhead.rejects_literal (by simpa using hq))
  exact .orElse_of_rejects (hquoted (by decide)) (.orElse_of_rejects (hquoted (by decide))
    (h.yields_heredoc hrest))

theorem matched_primary (g : Rules) (hrest : EndsWord rest) (n : Nat) :
    ∃ f, primary g ⟨h.text ++ rest, n⟩ =
      .matched ⟨.string (String.ofList h.body), ⟨n, n + byteLength h.text⟩⟩
        ⟨rest, n + byteLength h.text⟩ f := by
  have hhead : Heads openHeads (h.text ++ rest) := heads_cons (by decide)
  refine primary_of_rejects_words
    (C := fun p : Parser Expr ↦ ∃ f, p ⟨h.text ++ rest, n⟩ = .matched _ _ f) hhead ?_ ?_
  · rintro p q hp ⟨f, hq⟩
    obtain ⟨f', hp⟩ := hp n
    exact ⟨_, orElse_of_failed hp hq⟩
  · obtain ⟨value, f, hm, rfl⟩ := h.yields_stringLiteral hrest n
    exact ⟨_, orElse_of_matched (bind_of_matched rfl (bind_of_matched hm rfl))⟩

theorem parseFile_text : ∃ n span, parseFile ("<?php ".toList ++ (h.text ++ [';'])) =
    .ok [⟨.expression ⟨.string (String.ofList h.body), ⟨n, n + byteLength h.text⟩⟩, span⟩] := by
  have hhead : Heads ['<'] (h.text ++ [';']) := heads_cons List.mem_cons_self
  have hend : EndsWord [';'] := (.semicolon : Ends 0 [';']).endsName.word
  have hread (n : Nat) : Yields (exprFrom (.ofDepth n) 0) h.text [';'] fun e ↦
      ∃ n, e = ⟨.string (String.ofList h.body), ⟨n, n + byteLength h.text⟩⟩ := by
    refine OpTree.yields_expr_of_operand (OpTree.yields_operand_of_heads hhead (by decide)
      (by decide) (by decide) (.bind (.bind (hhead.rejects_literal (by decide))))
      (yields_atom (fun n ↦ ?_) (.semicolon : Ends 0 [';']))) .semicolon
    obtain ⟨f, hm⟩ := h.matched_primary _ hend n
    exact ⟨_, f, hm, n, rfl⟩
  obtain ⟨e, span, hparse, n, rfl⟩ :=
    OpTree.parseFile_of_yields_expr ⟨'<', _, rfl, List.mem_cons_self⟩ fun n _ ↦ hread n
  exact ⟨n, span, hparse⟩

/-- Wherever an operand starts, a heredoc is read as the text that it stands for, and what is read
ends right behind the label that closes it. -/
theorem read_text (g : Rules) (hrest : EndsWord rest) (n : Nat) :
    (∃ f, primary g ⟨h.text ++ rest, n⟩ =
      .matched ⟨.string (String.ofList h.body), ⟨n, n + byteLength h.text⟩⟩
        ⟨rest, n + byteLength h.text⟩ f) ∧
      ∃ n span, parseFile ("<?php ".toList ++ (h.text ++ [';'])) =
        .ok [⟨.expression ⟨.string (String.ofList h.body), ⟨n, n + byteLength h.text⟩⟩, span⟩] :=
  ⟨h.matched_primary g hrest n, h.parseFile_text⟩

def lookalikes : Heredoc where
  opening := some '\''
  label := ['E', 'O', 'T']
  closing := some '\''
  first := .returnFeed
  body := " EOTs EOT\n/* ?>\n".toList
  indent := [' ']
  blanks_inline := by simp
  quotes := by simp
  isWord := by decide
  unmistaken := by decide +kernel
  unclosed := by decide +kernel

theorem read_lookalikes :
    EndsWord [';'] ∧ (∃ f, primary (.ofDepth 1)
      ⟨"<<<'EOT'\r\n EOTs EOT\n/* ?>\n\n EOT".toList ++ [';'], 0⟩ =
        .matched ⟨.string " EOTs EOT\n/* ?>\n", ⟨0, 31⟩⟩ ⟨[';'], 31⟩ f) ∧
      ∃ n span, parseFile ("<?php ".toList ++
        ("<<<'EOT'\r\n EOTs EOT\n/* ?>\n\n EOT".toList ++ [';'])) =
          .ok [⟨.expression ⟨.string " EOTs EOT\n/* ?>\n", ⟨n, n + 31⟩⟩, span⟩] := by
  have hend : EndsWord [';'] := by decide
  have htext : lookalikes.text = "<<<'EOT'\r\n EOTs EOT\n/* ?>\n\n EOT".toList := by
    decide +kernel
  have hlength : byteLength lookalikes.text = 31 := by decide +kernel
  have h := lookalikes.read_text (.ofDepth 1) hend 0
  rw [hlength, htext] at h
  exact ⟨hend, h⟩

end Heredoc

end PhpInsight.Grammar

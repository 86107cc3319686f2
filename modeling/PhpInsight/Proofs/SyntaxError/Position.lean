import PhpInsight.Proofs.Reading.Repetition
import PhpInsight.Proofs.SideBySide.Moved
import PhpInsight.Proofs.SyntaxError.Located

namespace PhpInsight

open Peg Peg.Parser Text

namespace Peg.Parser

variable {α β : Type} {p : Parser α}

theorem bind_eq_failed {f : α → Parser β} {c : Cursor} {g : Failures}
    (h : (p >>= f) c = .failed g) :
    p c = .failed g ∨ ∃ a mid g₁ g₂, p c = .matched a mid g₁ ∧ f a mid = .failed g₂ ∧
      g = g₁.merge g₂ := by
  change Parser.bind p f c = _ at h
  unfold Parser.bind at h
  cases hp : p c with
  | failed g₁ =>
    rw [hp] at h
    cases h
    exact .inl rfl
  | matched a mid g₁ =>
    cases hf : f a mid with
    | failed g₂ =>
      simp only [hp, hf, Outcome.withFailures] at h
      cases h
      exact .inr ⟨a, mid, g₁, g₂, rfl, hf, rfl⟩
    | matched b next g₂ => simp [hp, hf, Outcome.withFailures] at h

theorem fails_behind {f : α → Parser β} {c mid : Cursor} {a : α} {g g₁ : Failures}
    (hp : p c = .matched a mid g₁) (h : (p >>= f) c = .failed g) :
    ∃ g₂, f a mid = .failed g₂ ∧ g₁.offset ≤ g.offset ∧ g₂.offset ≤ g.offset := by
  obtain hfail | ⟨_, _, _, g₂, hp', hf, rfl⟩ := bind_eq_failed h
  · rw [hp] at hfail
    cases hfail
  · rw [hp] at hp'
    cases hp'
    rw [Failures.offset_merge]
    exact ⟨g₂, hf, Nat.le_max_left _ _, Nat.le_max_right _ _⟩

end Peg.Parser

namespace Grammar

/-- What a file starts with: the open tag, with a byte order mark and trivia in front of it where
there are any, and no character of a word behind it. -/
def openTag : Parser Unit := do
  let _ ← optional (literal (String.singleton byteOrderMark))
  trivia
  literal "<?php"
  notAhead (oneOf wordStart <|> oneOf digit)

instance (source : List Char) : Located source openTag := by unfold openTag; infer_instance

def closingTag : Parser Unit := do
  literal "?>"
  skipMany (oneOf .any)

def opened (g : Rules) : Parser (List Stmt) := do
  let ss ← statements g
  trivia
  let _ ← optional closingTag
  endOfText
  return ss

theorem file_eq_matched {g : Rules} {c next : Cursor} {ss : List Stmt} {f : Failures}
    (h : file g c = .matched ss next f) :
    ∃ start f₁ f₂, openTag c = .matched () start f₁ ∧ opened g start = .matched ss next f₂ := by
  obtain ⟨_, c₁, _, _, hmark, h⟩ := bind_eq_matched h
  obtain ⟨_, c₂, _, _, htrivia, h⟩ := bind_eq_matched h
  obtain ⟨_, c₃, _, _, htag, h⟩ := bind_eq_matched h
  obtain ⟨_, start, _, _, hword, h⟩ := bind_eq_matched h
  exact ⟨start, _, _, bind_of_matched hmark <| bind_of_matched htrivia <|
    bind_of_matched htag hword, h⟩

theorem opened_fails {g : Rules} {c start : Cursor} {u : Unit} {f f₁ : Failures}
    (hopen : openTag c = .matched u start f₁) (h : file g c = .failed f) :
    ∃ f₂, opened g start = .failed f₂ ∧ f₂.offset ≤ f.offset := by
  obtain ⟨_, c₁, _, _, hmark, hopen⟩ := bind_eq_matched hopen
  obtain ⟨_, c₂, _, _, htrivia, hopen⟩ := bind_eq_matched hopen
  obtain ⟨_, c₃, _, _, htag, hword⟩ := bind_eq_matched hopen
  obtain ⟨f₁, h, -, hle₁⟩ := fails_behind hmark h
  obtain ⟨f₂, h, -, hle₂⟩ := fails_behind htrivia h
  obtain ⟨f₃, h, -, hle₃⟩ := fails_behind htag h
  obtain ⟨f₄, h, -, hle₄⟩ := fails_behind hword h
  exact ⟨f₄, h, Nat.le_trans hle₄ (Nat.le_trans hle₃ (Nat.le_trans hle₂ hle₁))⟩

theorem trivia_matches (c : Cursor) : ∃ next, trivia c = .matched () next .none := by
  obtain ⟨next, f, hm⟩ := skipMany_matches (whitespace <|> comment) c
  exact ⟨next, by rw [trivia, Parser.quiet, hm]⟩

theorem closingTag_ends {c next : Cursor} {u : Unit} {f : Failures}
    (h : closingTag c = .matched u next f) : endOfText next = .matched () next .none := by
  obtain ⟨_, _, _, _, -, hskip⟩ := bind_eq_matched h
  obtain ⟨g, hg⟩ := (shrinks_oneOf .any).skipMany hskip
  rw [endOfText, Parser.notAhead, hg]

theorem closingTag_fails {c : Cursor} {f : Failures} (h : closingTag c = .failed f) :
    f.offset = c.offset := by
  obtain hliteral | ⟨_, mid, _, g, -, hskip, -⟩ := bind_eq_failed h
  · unfold Parser.literal at hliteral
    split at hliteral <;> cases hliteral
    rfl
  · obtain ⟨next, g', hm⟩ := skipMany_matches (oneOf .any) mid
    rw [hm] at hskip
    cases hskip

theorem ending_fails {ss : List Stmt} {c : Cursor} {f : Failures}
    (h : (do
      let _ ← optional closingTag
      endOfText
      return ss : Parser (List Stmt)) c = .failed f) :
    c.offset ≤ f.offset := by
  cases hclosing : closingTag c with
  | matched u next g =>
    have hoptional : optional closingTag c = .matched (some u) next g := by
      rw [Parser.optional, hclosing]
    obtain ⟨_, h, -⟩ := fails_behind hoptional h
    obtain ⟨_, h, -⟩ := fails_behind (closingTag_ends hclosing) h
    cases h
  | failed g =>
    have hoptional : optional closingTag c = .matched none c g := by
      rw [Parser.optional, hclosing]
    obtain ⟨_, -, hle, -⟩ := fails_behind hoptional h
    rwa [closingTag_fails hclosing] at hle

/-- A file that has begun and is no file stops where no statement can be read. -/
theorem opened_stops {n : Nat} {start : Cursor} {f : Failures} (hstart : start.rest.length < n)
    (h : opened (.ofDepth n) start = .failed f) :
    ∃ ss stop c f₁ f₂, statements (.ofDepth n) start = .matched ss stop f₁ ∧
      trivia stop = .matched () c .none ∧ (Rules.ofDepth n).statement c = .failed f₂ ∧
      c.offset ≤ f.offset := by
  obtain ⟨ss, stop, f₁, f₂, hstatements, hfails⟩ :=
    many_stops (statement_takes n) hstart
  obtain ⟨c, htrivia⟩ := trivia_matches stop
  obtain ⟨f₃, hstatement, -⟩ := fails_behind htrivia hfails
  refine ⟨ss, stop, c, f₁, f₃, hstatements, htrivia, hstatement, ?_⟩
  obtain ⟨g₁, h, -, hle₁⟩ := fails_behind hstatements h
  obtain ⟨g₂, h, -, hle₂⟩ := fails_behind htrivia h
  exact Nat.le_trans (ending_fails h) (Nat.le_trans hle₂ hle₁)

theorem line_of_takeWhile (text : List Char) :
    ∃ lines line, text = lines ++ line ∧ (lines = [] ∨ lines.getLast? = some '\n') ∧ '\n' ∉ line ∧
      (text.reverse.takeWhile (· ≠ '\n')).length = line.length := by
  refine ⟨(text.reverse.dropWhile (· ≠ '\n')).reverse, (text.reverse.takeWhile (· ≠ '\n')).reverse,
    ?_, ?_, ?_, (List.length_reverse).symm⟩
  · rw [← List.reverse_append, List.takeWhile_append_dropWhile, List.reverse_reverse]
  · rw [List.reverse_eq_nil_iff, List.getLast?_reverse]
    cases hdrop : text.reverse.dropWhile (· ≠ '\n') with
    | nil => exact .inl rfl
    | cons x xs =>
      have hx : ¬ decide (x ≠ '\n') = true := by
        have h := List.head?_dropWhile_not (fun y ↦ decide (y ≠ '\n')) text.reverse
        rw [hdrop] at h
        simpa using h
      exact .inr (by simpa using hx)
  · intro h
    simpa using List.all_eq_true.mp List.all_takeWhile _ (List.mem_reverse.mp h)

theorem takeBytes_of_boundary {source : List Char} {n : Nat} (h : Boundary source n) :
    ∃ after, source = takeBytes n source ++ after ∧ byteLength (takeBytes n source) = n := by
  obtain ⟨before, after, rfl, rfl⟩ := h
  rw [Consumes.takeBytes_byteLength]
  exact ⟨after, rfl, rfl⟩

/-- A syntax error lies between two characters of the source, at its line and column. Behind an open
tag that is where no statement can be read, blanks and comments aside, or further on. -/
theorem syntaxError_position {source : List Char} {e : SyntaxError}
    (h : parseFile source = .error e) :
    (∃ before after, source = before ++ after ∧ byteLength before = e.offset ∧
      e.line = 1 + before.count '\n' ∧
      ∃ lines line, before = lines ++ line ∧ (lines = [] ∨ lines.getLast? = some '\n') ∧
        '\n' ∉ line ∧ e.column = 1 + line.length) ∧
    ∀ start f, openTag ⟨source, 0⟩ = .matched () start f →
      ∃ ss stop c f₁ f₂, statements (.forText source) start = .matched ss stop f₁ ∧
        trivia stop = .matched () c .none ∧ (Rules.forText source).statement c = .failed f₂ ∧
        c.offset ≤ e.offset := by
  unfold parseFile at h
  cases hm : file (.forText source) ⟨source, 0⟩ with
  | matched ss next f =>
    rw [hm] at h
    cases h
  | failed f =>
    rw [hm] at h
    cases h
    have hstart : Cursor.In source ⟨source, 0⟩ := ⟨[], rfl, rfl⟩
    refine ⟨?_, fun start f₁ hopen ↦ ?_⟩
    · have hboundary : Boundary source f.offset :=
        Located.of_failed (p := file (.ofDepth (source.length + 1))) hstart hm
      obtain ⟨after, hsource, hlength⟩ := takeBytes_of_boundary hboundary
      obtain ⟨lines, line, hsplit, hlines, hline, hcolumn⟩ :=
        line_of_takeWhile (takeBytes f.offset source)
      exact ⟨_, after, hsource, hlength, Nat.add_comm _ _, lines, line, hsplit, hlines, hline,
        (congrArg (· + 1) hcolumn).trans (Nat.add_comm _ _)⟩
    · obtain ⟨f₂, hopened, hle⟩ := opened_fails hopen hm
      obtain ⟨⟨before, hsource, -⟩, -⟩ := Located.of_matched hstart hopen
      have hlength : start.rest.length < source.length + 1 := by
        rw [hsource, List.length_append]
        omega
      obtain ⟨ss, stop, c, g, g', hstatements, htrivia, hstatement, hc⟩ :=
        opened_stops hlength hopened
      exact ⟨ss, stop, c, g, g', hstatements, htrivia, hstatement, Nat.le_trans hc hle⟩

/-- The call in the second statement of the file is not finished. -/
theorem syntaxError_position_call :
    ∃ e, parseFile "<?php\n$é = 1;\n  $x = f(;\n".toList = .error e ∧
      (e.line, e.column, e.offset) = (3, 10, 24) ∧
      (∃ before after, "<?php\n$é = 1;\n  $x = f(;\n".toList = before ++ after ∧
        byteLength before = 24 ∧ 3 = 1 + before.count '\n') ∧
      ∃ start f ss stop c f₁ f₂,
        openTag ⟨"<?php\n$é = 1;\n  $x = f(;\n".toList, 0⟩ = .matched () start f ∧
        statements (.forText "<?php\n$é = 1;\n  $x = f(;\n".toList) start = .matched ss stop f₁ ∧
        trivia stop = .matched () c .none ∧
        (Rules.forText "<?php\n$é = 1;\n  $x = f(;\n".toList).statement c = .failed f₂ ∧
        c.offset ≤ 24 := by
  have hread : (match parseFile "<?php\n$é = 1;\n  $x = f(;\n".toList with
      | .error e => some (e.line, e.column, e.offset)
      | .ok _ => none) = some (3, 10, 24) := by
    decide +kernel
  have htag : (openTag ⟨"<?php\n$é = 1;\n  $x = f(;\n".toList, 0⟩).value?.isSome = true := by
    decide +kernel
  cases hp : parseFile "<?php\n$é = 1;\n  $x = f(;\n".toList with
  | ok ss =>
    rw [hp] at hread
    cases hread
  | error e =>
    rw [hp] at hread
    have hplace : (e.line, e.column, e.offset) = (3, 10, 24) := Option.some.inj hread
    obtain ⟨hline, -, hoffset⟩ : e.line = 3 ∧ e.column = 10 ∧ e.offset = 24 := by simpa using hplace
    cases hm : openTag ⟨"<?php\n$é = 1;\n  $x = f(;\n".toList, 0⟩ with
    | failed f =>
      rw [hm] at htag
      cases htag
    | matched u start f =>
      obtain ⟨⟨before, after, hsource, hlength, hlines, -⟩, hstop⟩ := syntaxError_position hp
      obtain ⟨ss, stop, c, f₁, f₂, hstatements, htrivia, hstatement, hc⟩ := hstop start f hm
      exact ⟨e, rfl, hplace, ⟨before, after, hsource, hlength.trans hoffset, hline ▸ hlines⟩,
        start, f, ss, stop, c, f₁, f₂, rfl, hstatements, htrivia, hstatement, hoffset ▸ hc⟩

end Grammar

end PhpInsight

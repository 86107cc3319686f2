import PhpInsight.Proofs.Completion.Replacement
import PhpInsight.Proofs.SideBySide.Blank
import PhpInsight.Proofs.SideBySide.Brackets

namespace PhpInsight

def Peg.Outcome.rest? {α : Type} : Outcome α → Option (List Char)
  | matched _ next _ => some next.rest
  | failed _ => none

namespace Completion

open Peg Peg.Parser Text Grammar

/-- Behind `front`, the start of a statement and what is filled in are the whole of a statement,
with this code before the place where it is filled in. -/
structure EndsStatement (front begun fill tail code : List Char) : Prop where
  reads : ((Rules.forText (begun ++ fill ++ tail)).statement
    ⟨begun ++ fill ++ tail, byteLength front⟩).rest? = some tail
  /-- Conflicts of traits are solved nowhere in the statement. -/
  rules : ∀ t, t <:+ begun ++ fill → Rejects traitRules (t ++ tail)
  code : Code ⟨begun ++ fill ++ tail, byteLength front⟩ code
    ⟨fill ++ tail, byteLength (front ++ begun)⟩

theorem EndsStatement.eq_closers {front begun closing tail code : List Char}
    (h : EndsStatement front begun (filling closing) tail code)
    (hclosing : ∀ x ∈ closing, isCloser x = true) : closing = closers code := by
  let start : Cursor := ⟨begun ++ filling closing ++ tail, byteLength front⟩
  obtain ⟨s, last, f, hread, rfl⟩ : ∃ s last f,
      (Rules.forText start.rest).statement start = .matched s last f ∧ last.rest = tail := by
    have hreads : ((Rules.forText start.rest).statement start).rest? = some tail := h.reads
    cases hm : (Rules.forText start.rest).statement start with
    | failed f =>
      rw [hm] at hreads
      cases hreads
    | matched s last f =>
      rw [hm] at hreads
      exact ⟨s, last, f, rfl, Option.some_inj.mp hreads⟩
  refine Grammar.eq_closers (fun t ht hlength ↦ ?_) hread h.code rfl hclosing
  -- A piece of the text that is longer than the tail ends with it.
  obtain ⟨begin, rfl⟩ : last.rest <:+ t :=
    List.suffix_of_suffix_length_le (List.suffix_append _ _) ht hlength
  obtain ⟨before, hbefore⟩ := ht
  have hsplit : before ++ begin = begun ++ filling closing :=
    List.append_cancel_right ((List.append_assoc before begin last.rest).trans hbefore)
  exact h.rules begin ⟨before, hsplit⟩

theorem startsBlank_dropWhile (rest : List Char) : StartsBlank (rest.dropWhile (· ≠ '\n')) := by
  intro x hx
  have hline := List.head?_dropWhile_not (· ≠ '\n') rest
  rw [hx] at hline
  obtain rfl : x = '\n' := by simpa using hline
  decide

/-- The spaces do not decide whether the repaired text parses. -/
theorem isOk_parseFile_filling (head rest closing : List Char) :
    (parseFile (head ++ filling closing ++ padding head rest ++ rest.dropWhile (· ≠ '\n'))).isOk =
      (parseFile (head ++ filling closing ++ rest.dropWhile (· ≠ '\n'))).isOk := by
  unfold padding
  generalize byteLength _ - byteLength _ = n
  have hspaces := isOk_parseFile_spaces (startsBlank_dropWhile rest)
    (head ++ ("null".toList ++ closing)) n
  have hsplit (more : List Char) : head ++ ("null".toList ++ closing) ++ ';' :: more =
      head ++ filling closing ++ more := by simp [filling]
  rw [hsplit, hsplit, ← List.append_assoc] at hspaces
  exact hspaces

theorem closersFrom_append (due cs ds : List Char) :
    closersFrom due (cs ++ ds) = closersFrom (closersFrom due cs) ds := by
  induction cs generalizing due with
  | nil => rfl
  | cons c cs ih => simp only [List.cons_append, closersFrom, ih, apply_ite (closersFrom · ds)]

theorem lastLine_append {front begun : List Char} (h : '\n' ∉ begun) :
    lastLine (front ++ begun) = lastLine front ++ begun := by
  have hline : ∀ x ∈ begun.reverse, decide (x ≠ '\n') = true := fun x hx ↦
    decide_eq_true fun he ↦ h (he ▸ List.mem_reverse.mp hx)
  rw [lastLine, lastLine, List.reverse_append, List.takeWhile_append_of_pos hline,
    List.reverse_append, List.reverse_reverse]

/-- The line has the brackets of the statement when it starts on the line, behind nothing that is
still open, and neither string literals nor comments come before the place. -/
theorem EndsStatement.closers_line {front begun fill tail code : List Char}
    (h : EndsStatement front begun fill tail code) (hfront : closers (lastLine front) = [])
    (hbegun : ∀ x ∈ begun, x ∉ ['\n', '\'', '"', '<', '/', '#']) :
    closers (lastLine (front ++ begun)) = closers code := by
  have hline : '\n' ∉ begun := fun hmem ↦ hbegun _ hmem (by decide)
  have htakes : Cursor.Takes ⟨begun ++ fill ++ tail, byteLength front⟩ begun
      ⟨fill ++ tail, byteLength (front ++ begun)⟩ :=
    ⟨List.append_assoc _ _ _, byteLength_append _ _⟩
  have hcode : code = begun := h.code.unique <| .of_takes htakes fun x hx hmem ↦
    hbegun x hx (List.mem_cons_of_mem _ hmem)
  rw [hcode, lastLine_append hline, closers, closersFrom_append, ← closers, hfront, closers]

/-- Whether a repaired text parses is whether it does with the closing brackets of the line. And
where other closing brackets make it parse, so that the statement ends behind them, they are those
of its code: if the line has the same ones, the repaired text parses. -/
theorem repaired_parses {source head rest : List Char} (hsource : source = head ++ rest) :
    ∃ text, repair? source (byteLength head) = some text ∧
      (parseFile text).isOk = (parseFile (head ++ filling (closers (lastLine head)) ++
        rest.dropWhile (· ≠ '\n'))).isOk ∧
      ∀ front begun closing code, head = front ++ begun →
        (∀ x ∈ closing, x = ')' ∨ x = ']') →
        (parseFile (head ++ filling closing ++ rest.dropWhile (· ≠ '\n'))).isOk = true →
        EndsStatement front begun (filling closing) (rest.dropWhile (· ≠ '\n')) code →
        closing = closers code ∧
          (closers (lastLine head) = closers code → (parseFile text).isOk = true) ∧
          (closers (lastLine front) = [] →
            (∀ x ∈ begun, x ∉ ['\n', '\'', '"', '<', '/', '#']) →
            (parseFile text).isOk = true) := by
  subst hsource
  have hparse := isOk_parseFile_filling head rest (closers (lastLine head))
  refine ⟨_, repair?_append head rest, hparse, ?_⟩
  rintro front begun closing code rfl hclosing hok h
  have hcode := h.eq_closers fun x hx ↦ isCloser_iff.mpr (hclosing x hx)
  rw [hparse]
  refine ⟨hcode, fun hline ↦ ?_, fun hfront hbegun ↦ ?_⟩
  · rw [hline, ← hcode]
    exact hok
  · rw [h.closers_line hfront hbegun, ← hcode]
    exact hok

theorem repaired_parses_argument :
    ∃ text, repair? "<?php\n$x = f([1, $a->".toList
      (byteLength "<?php\n$x = f([1, ".toList) = some text ∧ (parseFile text).isOk = true := by
  obtain ⟨text, htext, -, hclosed⟩ := @repaired_parses "<?php\n$x = f([1, $a->".toList
    "<?php\n$x = f([1, ".toList "$a->".toList (by decide)
  have hbegun : ∀ x ∈ "$x = f([1, ".toList, x ∉ ['\n', '\'', '"', '<', '/', '#'] :=
    List.all_iff_forall_prop.mp (by decide)
  have hends : EndsStatement "<?php\n".toList "$x = f([1, ".toList (filling [']', ')']) []
      "$x = f([1, ".toList := {
    reads := by decide +kernel
    rules := fun t ht ↦ by
      have hbrace : '\x7b' ∉ "$x = f([1, ".toList ++ filling [']', ')'] := by decide
      exact rejects_traitRules fun hmem ↦ hbrace (ht.subset (by simpa using hmem))
    code := .of_takes ⟨List.append_assoc _ _ _, byteLength_append _ _⟩ fun x hx hmem ↦
      hbegun x hx (List.mem_cons_of_mem _ hmem) }
  have hclosing : ∀ x ∈ [']', ')'], x = ')' ∨ x = ']' := List.all_iff_forall_prop.mp (by decide)
  have hok : (parseFile ("<?php\n$x = f([1, ".toList ++ filling [']', ')'] ++
      "$a->".toList.dropWhile (· ≠ '\n'))).isOk = true := by
    decide +kernel
  obtain ⟨-, -, hplain⟩ := hclosed _ _ _ _ (by decide) hclosing hok hends
  exact ⟨text, htext, hplain (by decide) hbegun⟩

def parsesClosed (head rest : String) : Bool × Option Bool :=
  ((parseFile (head.toList ++ filling [')'] ++ rest.toList.dropWhile (· ≠ '\n'))).isOk,
    (repair? (head.toList ++ rest.toList) (byteLength head.toList)).map fun text ↦
      (parseFile text).isOk)

/-- A bracket of an earlier line is not closed. Those in a string literal and in the rules of a
trait use are, and so is that of a loop whose header goes on in the next line. -/
theorem repaired_fails :
    parsesClosed "<?php\nf(\n  " "$a->" = (true, some false) ∧
      parsesClosed "<?php f(\"(\", " "$a->" = (true, some false) ∧
      parsesClosed "<?php f(function () \x7b class A \x7b use B \x7b ( \x7d \x7d \x7d, " "$a->" =
        (true, some false) ∧
      parsesClosed "<?php for ($i = f(" "$a->\n; $i++) g();" = (true, some false) := by
  decide +kernel

end Completion

end PhpInsight

import Mathlib.Data.List.TakeWhile
import PhpInsight.Proofs.Completion.Closing
import PhpInsight.Proofs.Completion.Receiver

namespace PhpInsight

open Text Completion

namespace Completion

/-- The later lines of a text from which an expression was taken out: those behind the line on which
it starts, with what was typed of it there. -/
def laterLines (typed after : List Char) : List Char :=
  if '\n' ∈ typed then typed.dropWhile (· ≠ '\n') ++ after else after.dropWhile (· ≠ '\n')

theorem dropWhile_append_eq (typed after : List Char) :
    (typed ++ after).dropWhile (· ≠ '\n') = laterLines typed after := by
  rw [List.dropWhile_append, laterLines]
  by_cases h : '\n' ∈ typed
  · have hsome : (typed.dropWhile (· ≠ '\n')).isEmpty = false := by
      have hne : typed.dropWhile (· ≠ '\n') ≠ [] := fun he ↦ by
        have hall := List.dropWhile_eq_nil_iff.mp he _ h
        simp at hall
      exact List.isEmpty_eq_false_iff.mpr hne
    rw [if_pos h, hsome]
    rfl
  · have hnone : typed.dropWhile (· ≠ '\n') = [] :=
      List.dropWhile_eq_nil_iff.mpr fun x hx ↦ decide_eq_true fun he ↦ h (he ▸ hx)
    rw [if_neg h, hnone]
    rfl

end Completion

namespace Document

theorem parse_of_isOk {id : Nat} {uri : String} {source : List Char} {version : Int}
    (h : (Grammar.parseFile source).isOk = true) :
    ∃ d, parse id uri source version = .ok d ∧ d.source = source := by
  cases hm : Grammar.parseFile source with
  | error err =>
    rw [hm] at h
    cases h
  | ok ss => exact ⟨⟨id, uri, source, version, ss⟩, by rw [parse, hm]; rfl, rfl⟩

theorem parse_of_not_isOk {id : Nat} {uri : String} {source : List Char} {version : Int}
    (h : (Grammar.parseFile source).isOk = false) :
    ∃ err, parse id uri source version = .error err := by
  cases hm : Grammar.parseFile source with
  | error err => exact ⟨err, by rw [parse, hm]; rfl⟩
  | ok ss =>
    rw [hm] at h
    cases h

end Document

namespace Engine

variable {source : List Char} {cursor : Nat} {target : Expr}

theorem documentFor_eq (e : Engine) (uri : String) {text : List Char}
    (htext : repair? source target.span.start = some text) :
    ((documentFor uri source target).run e).1 =
      ((Document.parse e.nextId uri source 0).toOption <|>
        (Document.parse e.nextId uri text 0).toOption <|>
        e.workspace.registry.get? uri <|>
        (Document.parse e.nextId uri "<?php\n".toList 0).toOption) := by
  cases hsource : Document.parse e.nextId uri source 0 with
  | ok d =>
    simp [documentFor, parse, hsource]
    rfl
  | error err =>
    cases hrepaired : Document.parse e.nextId uri text 0 with
    | ok d =>
      simp [documentFor, parse, hsource, htext, hrepaired]
      rfl
    | error err' =>
      cases hregistered : e.workspace.registry.get? uri with
      | some d =>
        simp [documentFor, parse, hsource, htext, hrepaired, hregistered]
        rfl
      | none =>
        cases hempty : Document.parse e.nextId uri "<?php\n".toList 0 with
        | ok d =>
          simp [documentFor, parse, hsource, htext, hrepaired, hregistered] at hempty ⊢
          simp [hempty]
          rfl
        | error err'' =>
          simp [documentFor, parse, hsource, htext, hrepaired, hregistered] at hempty ⊢
          simp [hempty]
          rfl

/-- The expression up to the cursor gives way to the replacement as far as the end of the line on
which it starts. What was typed of it on later lines is left, if it has any, and the repaired text
is only completed in when it parses with that. -/
theorem completed_in_buffer (htarget : Grammar.completionTarget source cursor = some target) :
    ∃ head typed after replacement,
      source = head ++ typed ++ after ∧ byteLength head = target.span.start ∧
      byteLength (head ++ typed) = cursor ∧
      (∃ n, replacement = filler (lastLine head) ++ List.replicate n ' ') ∧
      repair? source target.span.start = some (head ++ replacement ++ laterLines typed after) ∧
      ∀ e uri, ((documentFor uri source target).run e).1 =
          ((Document.parse e.nextId uri source 0).toOption <|>
            (Document.parse e.nextId uri
              (head ++ replacement ++ laterLines typed after) 0).toOption <|>
            e.workspace.registry.get? uri <|>
            (Document.parse e.nextId uri "<?php\n".toList 0).toOption) ∧
        ((Grammar.parseFile source).isOk = false →
          (Grammar.parseFile
            (head ++ filler (lastLine head) ++ laterLines typed after)).isOk = true →
          ∃ d, ((documentFor uri source target).run e).1 = some d ∧
            d.source = head ++ replacement ++ laterLines typed after) := by
  obtain ⟨head, typed, after, hsource, hhead, hcursor⟩ :=
    (Grammar.completionTarget_eq_some htarget).1
  have hrepair := repair?_append head (typed ++ after)
  rw [← List.append_assoc head typed, ← hsource, hhead, dropWhile_append_eq,
    List.append_assoc head] at hrepair
  refine ⟨head, typed, after, _, hsource, hhead, hcursor, ⟨_, rfl⟩, hrepair, fun e uri ↦ ?_⟩
  have hdocument := documentFor_eq e uri hrepair
  refine ⟨hdocument, fun hfails hparses ↦ ?_⟩
  have hpadded := isOk_parseFile_filling head (typed ++ after) (closers (lastLine head))
  rw [dropWhile_append_eq, List.append_assoc head] at hpadded
  obtain ⟨err, herr⟩ := Document.parse_of_not_isOk hfails
  obtain ⟨d, hd, htext⟩ := Document.parse_of_isOk (hpadded.trans hparses)
  refine ⟨d, ?_, htext⟩
  rw [hdocument, herr, hd]
  rfl

theorem completed_in_buffer_line :
    ∃ target d n, Grammar.completionTarget "<?php\n$a->".toList 10 = some target ∧
      ((documentFor "u" "<?php\n$a->".toList target).run {}).1 = some d ∧
        d.source = "<?php\nnull;".toList ++ List.replicate n ' ' := by
  have hstart : (Grammar.completionTarget "<?php\n$a->".toList 10).map (·.span.start) = some 6 := by
    decide +kernel
  obtain ⟨target, htarget, hspan⟩ := Option.map_eq_some_iff.mp hstart
  obtain ⟨head, typed, after, replacement, hsource, hhead, hcursor, ⟨n, hreplacement⟩, -, hall⟩ :=
    completed_in_buffer htarget
  obtain ⟨-, hbuffer⟩ := hall {} "u"
  have hsplit : "<?php\n".toList ++ "$a->".toList = head ++ (typed ++ after) := by
    rw [← List.append_assoc, ← hsource]
    decide
  obtain ⟨rfl, hrest⟩ := append_inj_of_byteLength hsplit (by rw [hhead, hspan]; decide)
  have hlength : byteLength "$a->".toList = byteLength typed := by
    rw [byteLength_append] at hcursor
    have hfront : byteLength "<?php\n".toList = 6 := by decide
    have htyped : byteLength "$a->".toList = 4 := by decide
    omega
  obtain ⟨rfl, rfl⟩ := append_inj_of_byteLength ((List.append_nil _).trans hrest) hlength
  obtain ⟨d, hd, htext⟩ := hbuffer (by decide +kernel) (by decide +kernel)
  refine ⟨target, d, n, htarget, hd, ?_⟩
  rw [htext, hreplacement, ← List.append_assoc]
  exact List.append_nil _

/-- A later line of a target that is still there, and a chain on two lines that is completed in an
empty file although the text would parse without it. -/
theorem not_completed_in_buffer :
    ((Grammar.completionTarget "<?php f(\"\n?>\")->".toList 16).map fun target ↦
        (target.span.start, ((documentFor "u" "<?php f(\"\n?>\")->".toList target).run {}).1.map
          Document.source)) = some (6, some "<?php null;\n?>\")->".toList) ∧
      ((Grammar.completionTarget "<?php\n$u\n    ->".toList 15).map fun target ↦
        (target.span.start, ((documentFor "u" "<?php\n$u\n    ->".toList target).run {}).1.map
          Document.source)) = some (6, some "<?php\n".toList) ∧
      (Grammar.parseFile "<?php\nnull;".toList).isOk = true := by
  decide +kernel

end Engine

end PhpInsight

import Mathlib.Data.List.Infix
import PhpInsight.Proofs.Comments.Skipped

namespace PhpInsight

namespace Text

variable {piece stop cs ds found : List Char}

theorem dropStop?_append (cs stop : List Char) : dropStop? stop (cs ++ stop) = some cs := by
  rw [dropStop?, List.reverse_append, dropStart?_append, Option.map_some, List.reverse_reverse]

theorem eq_append_of_dropStop? (h : dropStop? stop cs = some ds) : cs = ds ++ stop := by
  obtain ⟨rest, hrest, rfl⟩ := Option.map_eq_some_iff.mp h
  have hsplit := congrArg List.reverse (eq_append_of_dropStart? hrest)
  simpa using hsplit

theorem fromLast?_eq_none (hpiece : piece ≠ []) : fromLast? piece cs = none ↔ ¬ piece <:+: cs := by
  induction cs with
  | nil => simp [fromLast?, hpiece]
  | cons c cs ih =>
    rw [List.infix_cons_iff, fromLast?]
    cases hl : fromLast? piece cs with
    | some found =>
      have hin : piece <:+: cs := Decidable.not_not.mp fun hnot ↦ by simp [ih.mpr hnot] at hl
      simp [hin]
    | none => simp [ih.mp hl, startsWith]

theorem fromLast?_append (cs : List Char) (h : fromLast? piece ds = some found) :
    fromLast? piece (cs ++ ds) = some found := by
  induction cs with
  | nil => exact h
  | cons c cs ih => rw [List.cons_append, fromLast?, ih]

theorem suffix_of_fromLast? (h : fromLast? piece cs = some found) : found <:+ cs := by
  induction cs with
  | nil =>
    rw [fromLast?] at h
    split at h
    · cases h
      exact List.suffix_refl []
    · cases h
  | cons c cs ih =>
    rw [fromLast?] at h
    split at h
    · rename_i hl
      cases h
      exact (ih hl).trans (List.suffix_cons c cs)
    · split at h
      · cases h
        exact List.suffix_refl _
      · cases h

theorem dropBlanksEnd_append (cs : List Char) (h : dropBlanksEnd ds ≠ []) :
    dropBlanksEnd (cs ++ ds) = cs ++ dropBlanksEnd ds := by
  induction cs with
  | nil => rfl
  | cons c cs ih =>
    have hne : dropBlanksEnd (cs ++ ds) ≠ [] := by simp [ih, h]
    simp only [dropBlanksEnd, dropEnd, ne_eq, List.reverse_eq_nil_iff] at hne ih ⊢
    rw [List.cons_append, List.reverse_cons, List.dropWhile_append,
      List.isEmpty_eq_false_iff.mpr hne,
      if_neg Bool.false_ne_true, List.reverse_append, ih]
    rfl

end Text

namespace Grammar

open Text

variable {before between last : List Char}

def isDocComment (cs : List Char) : Bool := startsWith ['/', '*', '*'] cs && 4 < cs.length

/-- The doc comment that some comments in front of a declaration make for it. -/
def docOf (comments : List (List Char)) : Option String :=
  match comments.getLast? with
  | some last => if isDocComment last then some (String.ofList last) else none
  | none => none

/-- A comment in whose text the signs of block comments do not mislead. -/
def isPlain (cs : List Char) : Bool :=
  if isBlockComment cs then ¬ ['/', '*'] <:+: commentBody cs
  else ¬ ['*', '/'] <:+ dropBlanksEnd cs

@[simp] theorem commentBody_block (body : List Char) :
    commentBody (['/', '*'] ++ body ++ ['*', '/']) = body := by
  have hends : body ++ ['*', '/'] = body ++ ['*'] ++ ['/'] := by simp
  have hdrop : (['/', '*'] ++ body ++ ['*', '/']).drop 2 = body ++ ['*', '/'] := by simp
  rw [commentBody, hdrop, hends, List.dropLast_concat, List.dropLast_concat]

theorem trailingDocComment_eq_none {cs : List Char} (h : ¬ ['*', '/'] <:+ dropBlanksEnd cs) :
    trailingDocComment cs = none := by
  cases hd : dropStop? ['*', '/'] (dropBlanksEnd cs) with
  | none =>
    rw [trailingDocComment, hd]
    rfl
  | some inside => exact absurd ⟨inside, (eq_append_of_dropStop? hd).symm⟩ h

theorem infix_star_cons {body : List Char} :
    ['/', '*'] <:+: '*' :: body ↔ ['/', '*'] <:+: body := by
  simp [List.infix_cons_iff]

theorem fromLast?_block {body : List Char} (h : ¬ ['/', '*'] <:+: body) :
    fromLast? ['/', '*'] (['/', '*'] ++ body) = some (['/', '*'] ++ body) := by
  have hstar := (fromLast?_eq_none (by simp)).mpr fun hin ↦ h (infix_star_cons.mp hin)
  rw [List.cons_append, List.singleton_append, fromLast?, hstar]
  simp [startsWith]

theorem fromLast?_block_inner {body : List Char} (h : ['/', '*'] <:+: body) :
    ∃ found, fromLast? ['/', '*'] (['/', '*'] ++ body) = some found ∧
      found.length < (['/', '*'] ++ body).length := by
  cases hstar : fromLast? ['/', '*'] ('*' :: body) with
  | none => exact absurd (infix_star_cons.mpr h) ((fromLast?_eq_none (by simp)).mp hstar)
  | some found =>
    refine ⟨found, ?_, ?_⟩
    · rw [List.cons_append, List.singleton_append, fromLast?, hstar]
    · have hle := (suffix_of_fromLast? hstar).length_le
      simp only [List.length_append, List.length_cons] at hle ⊢
      omega

theorem trailingDocComment_block {body blanks found : List Char} (front : List Char)
    (hblanks : ∀ x ∈ blanks, isBlank x = true)
    (hfound : fromLast? ['/', '*'] (['/', '*'] ++ body) = some found) :
    trailingDocComment (front ++ (['/', '*'] ++ body ++ ['*', '/']) ++ blanks) =
      if isDocComment (found ++ ['*', '/']) then some (String.ofList (found ++ ['*', '/']))
      else none := by
  have hsplit : front ++ (['/', '*'] ++ body ++ ['*', '/']) =
      front ++ (['/', '*'] ++ body) ++ ['*', '/'] := by simp
  have hlast : ∀ x ∈ (front ++ (['/', '*'] ++ body) ++ ['*', '/']).getLast?, isBlank x = false := by
    intro x hx
    rw [List.getLast?_append, List.getLast?_cons_cons, List.getLast?_singleton] at hx
    obtain rfl : '/' = x := by simpa using hx
    decide
  rw [trailingDocComment, dropBlanksEnd_append_blanks _ hblanks, hsplit,
    dropBlanksEnd_eq_self hlast, dropStop?_append]
  change (do
    let found ← fromLast? ['/', '*'] (front ++ (['/', '*'] ++ body))
    guard (isDocComment (found ++ ['*', '/']))
    return String.ofList (found ++ ['*', '/']) : Option String) = _
  rw [fromLast?_append front hfound]
  change (do
    guard (isDocComment (found ++ ['*', '/']))
    return String.ofList (found ++ ['*', '/']) : Option String) = _
  cases isDocComment (found ++ ['*', '/']) <;> rfl

/-- A doc comment is found as a whole just when no sign in its text opens another one. -/
theorem trailingDocComment_iff (h : EndsWith between (some last))
    (hdoc : isDocComment last = true) :
    trailingDocComment (before ++ between) = some (String.ofList last) ↔
      ¬ ['/', '*'] <:+: commentBody last := by
  obtain ⟨hlast, front, blanks, rfl, hblanks⟩ := h
  cases hlast with
  | slashes line => simp [isDocComment, startsWith] at hdoc
  | hash line => simp [isDocComment, startsWith] at hdoc
  | block body =>
    rw [commentBody_block, ← List.append_assoc, ← List.append_assoc]
    by_cases hbody : ['/', '*'] <:+: body
    · obtain ⟨found, hfound, hshort⟩ := fromLast?_block_inner hbody
      rw [trailingDocComment_block _ hblanks hfound]
      refine iff_of_false (fun heq ↦ ?_) (not_not_intro hbody)
      split at heq
      · have hsame := String.ofList_injective (Option.some.inj heq)
        have hlength := congrArg List.length hsame
        simp only [List.length_append] at hlength hshort
        omega
      · cases heq
    · rw [trailingDocComment_block _ hblanks (fromLast?_block hbody), if_pos hdoc]
      exact iff_of_true rfl hbody

theorem suffix_of_suffix_append {front cs : List Char} (hne : cs ≠ []) (hsign : cs ≠ ['/'])
    (h : ['*', '/'] <:+ front ++ cs) : ['*', '/'] <:+ cs := by
  match cs with
  | [x] =>
    obtain ⟨init, hinit⟩ := h
    have hlast := congrArg List.getLast? hinit
    have hx : '/' = x := by simpa using hlast
    exact absurd (by rw [hx]) hsign
  | x :: y :: cs =>
    refine List.suffix_of_suffix_length_le h (List.suffix_append front _) ?_
    simp only [List.length_cons, List.length_nil]
    omega

theorem trailingDocComment_line {blanks : List Char} (front : List Char)
    (hblanks : ∀ x ∈ blanks, isBlank x = true) (hne : dropBlanksEnd last ≠ [])
    (hsign : dropBlanksEnd last ≠ ['/']) (hplain : ¬ ['*', '/'] <:+ dropBlanksEnd last) :
    trailingDocComment (front ++ last ++ blanks) = none := by
  refine trailingDocComment_eq_none fun hsuffix ↦ hplain ?_
  rw [dropBlanksEnd_append_blanks _ hblanks, dropBlanksEnd_append _ hne] at hsuffix
  exact suffix_of_suffix_append hne hsign hsuffix

/-- Behind code, the search back gives what the last comment makes, if its text does not mislead. -/
theorem trailingDocComment_eq {comments : List (List Char)}
    (hbefore : ∃ x ∈ before.getLast?, isBlank x = false ∧ x ≠ '/')
    (h : EndsWith between comments.getLast?)
    (hplain : ∀ last ∈ comments.getLast?, isPlain last = true) :
    trailingDocComment (before ++ between) = docOf comments := by
  unfold docOf
  cases hcomments : comments.getLast? with
  | none =>
    rw [hcomments] at h
    obtain ⟨x, hx, hblank, hslash⟩ := hbefore
    have hself : dropBlanksEnd before = before := by
      refine dropBlanksEnd_eq_self fun y hy ↦ ?_
      obtain rfl := Option.mem_unique hx hy
      exact hblank
    refine trailingDocComment_eq_none ?_
    rw [dropBlanksEnd_append_blanks _ h, hself]
    rintro ⟨init, rfl⟩
    rw [List.getLast?_append, List.getLast?_cons_cons, List.getLast?_singleton] at hx
    exact hslash (by simpa using hx.symm)
  | some last =>
    rw [hcomments] at h
    have hlast : isPlain last = true := hplain last hcomments
    obtain ⟨hcomment, front, blanks, rfl, hblanks⟩ := h
    rw [← List.append_assoc, ← List.append_assoc]
    cases hcomment with
    | block body =>
      have hbody : ¬ ['/', '*'] <:+: body := by
        rw [isPlain, commentBody_block] at hlast
        simpa [isBlockComment, startsWith] using hlast
      exact trailingDocComment_block _ hblanks (fromLast?_block hbody)
    | slashes line =>
      have hends : dropBlanksEnd (['/', '/'] ++ line) = '/' :: '/' :: dropBlanksEnd line := by
        rw [List.cons_append, List.singleton_append, dropBlanksEnd_cons (by decide),
          dropBlanksEnd_cons (by decide)]
      have hsuffix : ¬ ['*', '/'] <:+ dropBlanksEnd (['/', '/'] ++ line) := by
        simpa [isPlain, isBlockComment, startsWith] using hlast
      rw [trailingDocComment_line _ hblanks (by rw [hends]; simp) (by rw [hends]; simp) hsuffix]
      simp [isDocComment, startsWith]
    | hash line =>
      have hends : dropBlanksEnd ('#' :: line) = '#' :: dropBlanksEnd line :=
        dropBlanksEnd_cons (by decide) line
      have hsuffix : ¬ ['*', '/'] <:+ dropBlanksEnd ('#' :: line) := by
        simpa [isPlain, isBlockComment, startsWith] using hlast
      rw [trailingDocComment_line _ hblanks (by simp [hends]) (by simp [hends]) hsuffix]
      simp [isDocComment, startsWith]

end Grammar

end PhpInsight

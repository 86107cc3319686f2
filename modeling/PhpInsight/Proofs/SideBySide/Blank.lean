import PhpInsight.Proofs.SideBySide.Statement

namespace PhpInsight.Grammar

open Peg Peg.Parser Text

/-- Two texts that are the same but for a blank in the second one, which stands behind a semicolon
that was not read yet. -/
inductive Aligned (tail : List Char) : List Char → List Char → Prop
  | same (text : List Char) : Aligned tail text text
  | semicolon : Aligned tail (';' :: tail) (';' :: ' ' :: tail)
  | cons {text text' : List Char} (x : Char) (h : Aligned tail text text') :
    Aligned tail (x :: text) (x :: text')

def Spaced (tail text text' : List Char) : Prop :=
  Aligned tail text text' ∨ text = tail ∧ text' = ' ' :: tail

variable {tail text text' : List Char}

theorem aligned_append (text : List Char) :
    Aligned tail (text ++ ';' :: tail) (text ++ ';' :: ' ' :: tail) := by
  induction text with
  | nil => exact .semicolon
  | cons x text ih => exact .cons x ih

namespace Aligned

theorem cases_head (h : Aligned tail text text') :
    (text = [] ∧ text' = []) ∨ ∃ x xs xs', text = x :: xs ∧ text' = x :: xs' ∧
      Spaced tail xs xs' ∧ (x ≠ ';' → Aligned tail xs xs') := by
  cases h with
  | same =>
    cases text with
    | nil => exact .inl ⟨rfl, rfl⟩
    | cons x xs => exact .inr ⟨x, xs, xs, rfl, rfl, .inl (.same xs), fun _ ↦ .same xs⟩
  | semicolon =>
    exact .inr ⟨';', tail, ' ' :: tail, rfl, rfl, .inr ⟨rfl, rfl⟩, fun h ↦ absurd rfl h⟩
  | cons x h => exact .inr ⟨x, _, _, rfl, rfl, .inl h, fun _ ↦ h⟩

theorem behind {cs : List Char} (hcs : ';' ∉ cs) (h : Aligned tail (cs ++ text) (cs ++ text')) :
    Aligned tail text text' := by
  induction cs with
  | nil => exact h
  | cons x cs ih =>
    obtain ⟨hx, hcs⟩ := not_or.mp (mt List.mem_cons.mpr hcs)
    obtain ⟨hnil, -⟩ | ⟨y, xs, xs', hxs, hxs', -, hnext⟩ := h.cases_head
    · cases hnil
    · cases hxs
      cases hxs'
      exact ih hcs (hnext (Ne.symm hx))

end Aligned

theorem aligned_of_alike {K : List Char → Prop} {c c' next next' : Cursor}
    (h : Aligned tail c.rest c'.rest) (halike : Alike K c c' next next')
    (hK : ∀ cs, K cs → ';' ∉ cs) : Aligned tail next.rest next'.rest := by
  obtain ⟨cs, hcs, hc, hc'⟩ := halike
  rw [hc.1, hc'.1] at h
  exact h.behind (hK cs hcs)

theorem Spaced.cases_head (htail : StartsBlank tail) (h : Spaced tail text text') :
    (∃ x xs xs', text = x :: xs ∧ text' = x :: xs') ∨ StartsBlank text ∧ StartsBlank text' := by
  obtain h | ⟨rfl, rfl⟩ := h
  · obtain ⟨rfl, rfl⟩ | ⟨x, xs, xs', hxs, hxs', -⟩ := h.cases_head
    · exact .inr ⟨startsBlank_nil, startsBlank_nil⟩
    · exact .inl ⟨x, xs, xs', hxs, hxs'⟩
  · refine .inr ⟨htail, fun x hx ↦ ?_⟩
    obtain rfl := Option.some_inj.mp hx
    exact List.mem_cons_self

def spaced (htail : StartsBlank tail) : Pairing where
  Near c c' := Spaced tail c.rest c'.rest
  head h := (h.cases_head htail).imp_right fun ⟨hblank, hblank'⟩ ↦ ⟨.inl hblank, .inl hblank'⟩
  next := by
    rintro x xs xs' n n' (h | ⟨-, h'⟩) hx
    · obtain ⟨hnil, -⟩ | ⟨y, ys, ys', hys, hys', hnext, -⟩ := h.cases_head
      · cases hnil
      · cases hys
        cases hys'
        exact hnext
    · cases h'
      exact absurd List.mem_cons_self hx

section

variable {htail : StartsBlank tail} {c c' : Cursor}

theorem agree_oneOf (K : CharClass) (h : Aligned tail c.rest c'.rest) :
    Agree (oneOf K) (oneOf K) c c' fun _ _ next next' ↦
      (Spaced tail next.rest next'.rest ∧
        (K.contains ';' = false → Aligned tail next.rest next'.rest)) ∧
      Nearer c c' next next' := by
  obtain ⟨rest, n⟩ := c
  obtain ⟨rest', n'⟩ := c'
  obtain ⟨rfl, rfl⟩ | ⟨x, xs, xs', rfl, rfl, hnext, haligned⟩ := h.cases_head
  · exact .inl ⟨_, _, rfl, rfl⟩
  · unfold Agree oneOf
    cases hx : K.contains x with
    | false => exact .inl ⟨_, _, by simp only [hx]; rfl, by simp only [hx]; rfl⟩
    | true =>
      refine .inr ⟨(), (), ⟨xs, n + x.utf8Size⟩, ⟨xs', n' + x.utf8Size⟩, .none, .none,
        by simp only [hx, if_true], by simp only [hx, if_true], ⟨⟨[x], rfl, rfl⟩, [x], rfl, rfl⟩,
        ⟨hnext, fun hK ↦ haligned ?_⟩, Nat.lt_succ_self _, Nat.lt_succ_self _⟩
      rintro rfl
      rw [hx] at hK
      cases hK

/-- A repetition that takes blanks gets past the one that is too much. -/
theorem agree_skipMany_within {p p' : Parser Unit} {k k' : Nat}
    (h : ∀ c c', Aligned tail c.rest c'.rest → c.rest.length ≤ k ∧ c'.rest.length ≤ k' →
      Agree p p' c c' fun _ _ next next' ↦
        Spaced tail next.rest next'.rest ∧ Nearer c c' next next')
    (hblank : ∀ xs n, ∃ f, p' ⟨' ' :: xs, n⟩ = .matched () ⟨xs, n + ' '.utf8Size⟩ f)
    (hc : Spaced tail c.rest c'.rest) (hk : c.rest.length ≤ k ∧ c'.rest.length ≤ k') :
    Agree (skipMany p) (skipMany p') c c' fun _ _ next next' ↦
      Aligned tail next.rest next'.rest := by
  refine (Agree.skipMany_alone (J := fun c c' ↦
    Spaced tail c.rest c'.rest ∧ c.rest.length ≤ k ∧ c'.rest.length ≤ k') ?_ ⟨hc, hk⟩).imp
    fun _ _ next next' ⟨⟨hnext, _⟩, f, f', hf, hf'⟩ ↦ ?_
  -- Behind the semicolon the second run takes the blank alone.
  · rintro c ⟨rest, n⟩ ⟨haligned | ⟨hc, rfl⟩, hle⟩
    · refine .inl ((h c _ haligned hle).imp fun _ _ next next' ⟨hnext, hlt⟩ ↦
        ⟨⟨hnext, ?_⟩, hlt⟩)
      obtain ⟨hlt, hlt'⟩ := hlt
      omega
    · obtain ⟨f, hf⟩ := hblank tail n
      refine .inr ⟨_, f, hf, ⟨[' '], rfl, rfl⟩, Nat.lt_succ_self _, .inl ?_, hle.1,
        Nat.le_of_succ_le hle.2⟩
      rw [hc]
      exact .same tail
  · obtain haligned | ⟨-, hblanked⟩ := hnext
    · exact haligned
    · obtain ⟨rest, n⟩ := next'
      obtain rfl : rest = ' ' :: tail := hblanked
      obtain ⟨g, hg⟩ := hblank tail n
      rw [hg] at hf'
      cases hf'

theorem agree_skipMany {p : Parser Unit}
    (h : ∀ c c', Aligned tail c.rest c'.rest → Agree p p c c' fun _ _ next next' ↦
      Spaced tail next.rest next'.rest ∧ Nearer c c' next next')
    (hblank : ∀ xs n, ∃ f, p ⟨' ' :: xs, n⟩ = .matched () ⟨xs, n + ' '.utf8Size⟩ f)
    (hc : Spaced tail c.rest c'.rest) :
    Agree (skipMany p) (skipMany p) c c' fun _ _ next next' ↦
      Aligned tail next.rest next'.rest :=
  agree_skipMany_within (fun c c' hc _ ↦ h c c' hc) hblank hc ⟨Nat.le_refl _, Nat.le_refl _⟩

theorem agree_until {q : Parser Unit}
    (hq : ∀ c c', Aligned tail c.rest c'.rest → Agree q q c c' fun _ _ _ _ ↦ True)
    (hblank : ∀ xs, Rejects q (' ' :: xs)) (hc : Spaced tail c.rest c'.rest) :
    Agree (skipMany do notAhead q; oneOf .any) (skipMany do notAhead q; oneOf .any) c c'
      fun _ _ next next' ↦ Aligned tail next.rest next'.rest := by
  refine agree_skipMany (fun c c' h ↦ ?_) (fun xs n ↦ ?_) hc
  · have hnot : Agree (notAhead q) (notAhead q) c c' fun _ _ next next' ↦
        next = c ∧ next' = c' := (hq c c' h).notAhead fun _ ↦ ⟨rfl, rfl⟩
    refine hnot.bind fun _ _ next next' _ ⟨hnext, hnext'⟩ ↦ ?_
    subst hnext hnext'
    exact (agree_oneOf .any h).imp fun _ _ _ _ h ↦ ⟨h.1.1, h.2⟩
  · obtain ⟨f, hf⟩ := hblank xs n
    have hnot : notAhead q ⟨' ' :: xs, n⟩ = .matched () ⟨' ' :: xs, n⟩ .none := by
      rw [Parser.notAhead, hf]
    exact ⟨_, bind_of_matched hnot rfl⟩

theorem agree_sign {s : String} (hs : ';' ∉ s.toList) (hne : s.toList ≠ [])
    (h : Aligned tail c.rest c'.rest) :
    Agree (literal s) (literal s) c c' fun _ _ next next' ↦
      Aligned tail next.rest next'.rest ∧ Nearer c c' next next' := by
  have hdrop {cs text text' : List Char} (hcs : ';' ∉ cs) (h : Aligned tail text text')
      (n n' : Nat) :
      (Cursor.dropText? cs ⟨text, n⟩ = none ∧ Cursor.dropText? cs ⟨text', n'⟩ = none) ∨
        ∃ next next', Cursor.dropText? cs ⟨text, n⟩ = some next ∧
          Cursor.dropText? cs ⟨text', n'⟩ = some next' := by
    induction cs generalizing text text' n n' with
    | nil => exact .inr ⟨_, _, rfl, rfl⟩
    | cons y cs ih =>
      obtain ⟨hy, hmore⟩ := not_or.mp (mt List.mem_cons.mpr hcs)
      obtain ⟨rfl, rfl⟩ | ⟨x, xs, xs', rfl, rfl, -, hnext⟩ := h.cases_head
      · exact .inl ⟨rfl, rfl⟩
      · by_cases hx : x = y
        · subst hx
          simpa [Cursor.dropText?] using
            ih hmore (hnext (Ne.symm hy)) (n + x.utf8Size) (n' + x.utf8Size)
        · simp [Cursor.dropText?, hx]
  unfold Agree literal
  obtain ⟨hnone, hnone'⟩ | ⟨next, next', hnext, hnext'⟩ :=
    hdrop hs h c.offset c'.offset
  · exact .inl ⟨_, _, by rw [hnone], by rw [hnone']⟩
  · have htakes : c.Takes s.toList next := dropText?_eq_some hnext
    have htakes' : c'.Takes s.toList next' := dropText?_eq_some hnext'
    have halike : Alike (· = s.toList) c c' next next' := ⟨_, rfl, htakes, htakes'⟩
    refine .inr ⟨(), (), next, next', .none, .none, by rw [hnext], by rw [hnext'],
      ⟨htakes.reaches, htakes'.reaches⟩, aligned_of_alike h halike ?_, halike.nearer ?_⟩
    · rintro _ rfl
      exact hs
    · rintro _ rfl
      exact hne

theorem rejects_blank {s : String} (xs : List Char)
    (hs : s.toList.head?.any (· ∉ [' ']) = true) : Rejects (literal s) (' ' :: xs) :=
  (heads_cons (List.mem_singleton_self ' ')).rejects_literal hs

theorem agree_word (htail : StartsBlank tail) (h : Aligned tail c.rest c'.rest) :
    Agree word word c c' fun w w' next next' ↦
      (w = w' ∧ Aligned tail next.rest next'.rest) ∧ Nearer c c' next next' := by
  refine ((spaced htail).agree_word (.inl h)).imp fun w w' next next' ⟨hw, _, halike⟩ ↦
    ⟨⟨hw, aligned_of_alike h halike fun cs hcs hmem ↦ ?_⟩, halike.nearer fun _ h ↦ h.2.1⟩
  have hword := hcs.2.2 _ hmem
  cases hword

theorem agree_lineEnd (h : Aligned tail c.rest c'.rest) :
    Agree lineEnd lineEnd c c' fun _ _ next next' ↦
      Aligned tail next.rest next'.rest ∧ Nearer c c' next next' :=
  (agree_sign (by decide) (by decide) h).orElse (agree_sign (by decide) (by decide) h)

theorem agree_inlineSpaces (h : Aligned tail c.rest c'.rest) :
    Agree (skipMany (oneOf inlineSpace)) (skipMany (oneOf inlineSpace)) c c'
      fun _ _ next next' ↦ Aligned tail next.rest next'.rest :=
  .skipMany (J := fun c c' ↦ Aligned tail c.rest c'.rest)
    (fun _ _ h ↦ (agree_oneOf _ h).imp fun _ _ _ _ h ↦ ⟨h.1.2 (by decide), h.2⟩) h

theorem agree_quoted {quote : Char} (hquote : quote = '\'' ∨ quote = '"')
    (h : Aligned tail c.rest c'.rest) :
    Agree (quoted quote) (quoted quote) c c' fun _ _ next next' ↦
      Aligned tail next.rest next'.rest ∧ Nearer c c' next next' := by
  have hdelimiter {c c' : Cursor} (h : Aligned tail c.rest c'.rest) :
      Agree (literal (String.singleton quote)) (literal (String.singleton quote)) c c'
        fun _ _ next next' ↦ Aligned tail next.rest next'.rest ∧ Nearer c c' next next' := by
    rcases hquote with rfl | rfl <;> exact agree_sign (by decide) (by decide) h
  refine (hdelimiter h).bind_nearer fun _ _ mid mid' h _ ↦ ?_
  refine (Agree.textOf (agree_skipMany ?_ ?_ (.inl h))).bind fun _ _ _ _ _ h ↦ ?_
  · intro c c' h
    refine .orElse ?_ ((agree_oneOf _ h).imp fun _ _ _ _ h ↦ ⟨h.1.1, h.2⟩)
    refine (agree_sign (by decide) (by decide) h).bind_nearer fun _ _ _ _ h _ ↦ ?_
    exact (agree_oneOf .any h).imp fun _ _ _ _ h ↦ h.1.1
  · rcases hquote with rfl | rfl <;> exact fun xs n ↦ ⟨_, rfl⟩
  · exact (hdelimiter h.2).bind fun _ _ _ _ _ h ↦ .pure h.1

theorem agree_heredocEnd (htail : StartsBlank tail) (label : String)
    (h : Aligned tail c.rest c'.rest) :
    Agree (heredocEnd label) (heredocEnd label) c c' fun _ _ next next' ↦
      Aligned tail next.rest next'.rest := by
  refine (agree_lineEnd h).bind fun _ _ _ _ _ h ↦ ?_
  refine (agree_inlineSpaces h.1).bind fun _ _ _ _ _ h ↦ ?_
  refine (agree_word htail h).bind fun w w' _ _ _ ⟨⟨hw, h⟩, _⟩ ↦ ?_
  subst hw
  split
  · exact .pure h
  · exact .failExpecting _

theorem agree_heredoc (htail : StartsBlank tail) (h : Aligned tail c.rest c'.rest) :
    Agree heredoc heredoc c c' fun _ _ next next' ↦
      Aligned tail next.rest next'.rest ∧ Nearer c c' next next' := by
  have hquote {c c' : Cursor} (h : Aligned tail c.rest c'.rest) :
      Agree (optional (oneOf (.ofChars ['"', '\''])))
        (optional (oneOf (.ofChars ['"', '\'']))) c c' fun _ _ next next' ↦
          Aligned tail next.rest next'.rest :=
    .optional ((agree_oneOf _ h).imp fun _ _ _ _ h ↦ h.1.2 (by decide)) h
  refine (agree_sign (by decide) (by decide) h).bind_nearer fun _ _ _ _ h _ ↦ ?_
  refine (agree_inlineSpaces h).bind fun _ _ _ _ _ h ↦ ?_
  refine (hquote h).bind fun _ _ _ _ _ h ↦ ?_
  refine (agree_word htail h).bind fun w w' _ _ _ ⟨⟨hw, h⟩, _⟩ ↦ ?_
  refine (hquote h).bind fun _ _ _ _ _ h ↦ ?_
  subst hw
  have hend : ∀ c c', Aligned tail c.rest c'.rest →
      Agree (heredocEnd w) (heredocEnd w) c c' fun _ _ _ _ ↦ True := by
    intro _ _ h
    exact (agree_heredocEnd htail w h).imp fun _ _ _ _ _ ↦ trivial
  have hblank (xs : List Char) : Rejects (heredocEnd w) (' ' :: xs) :=
    .bind (.orElse (rejects_blank xs (by decide)) (rejects_blank xs (by decide)))
  refine (Agree.textOf (agree_until hend hblank (.inl h))).bind fun _ _ _ _ _ h ↦ ?_
  exact (agree_heredocEnd htail w h.2).bind fun _ _ _ _ _ h ↦ .pure h

theorem agree_stringLiteral (htail : StartsBlank tail) (h : Aligned tail c.rest c'.rest) :
    Agree stringLiteral stringLiteral c c' fun _ _ next next' ↦
      Aligned tail next.rest next'.rest ∧ Nearer c c' next next' :=
  (agree_quoted (.inl rfl) h).orElse ((agree_quoted (.inr rfl) h).orElse (agree_heredoc htail h))

theorem agree_restOfLine (h : Aligned tail c.rest c'.rest) :
    Agree restOfLine restOfLine c c' fun _ _ next next' ↦ Aligned tail next.rest next'.rest := by
  refine agree_until (fun c c' h ↦ ?_) (fun xs ↦ ?_) (.inl h)
  · exact ((agree_lineEnd h).orElse (agree_sign (by decide) (by decide) h)).imp
      fun _ _ _ _ _ ↦ trivial
  · exact .orElse (.orElse (rejects_blank xs (by decide)) (rejects_blank xs (by decide)))
      (rejects_blank xs (by decide))

theorem agree_blockComment (h : Aligned tail c.rest c'.rest) :
    Agree blockComment blockComment c c' fun _ _ next next' ↦
      Aligned tail next.rest next'.rest ∧ Nearer c c' next next' := by
  refine (agree_sign (by decide) (by decide) h).bind_nearer fun _ _ _ _ h _ ↦ ?_
  refine (agree_until (fun c c' h ↦ ?_) (fun xs ↦ ?_) (.inl h)).bind fun _ _ _ _ _ h ↦ ?_
  · exact (agree_sign (by decide) (by decide) h).imp fun _ _ _ _ _ ↦ trivial
  · exact rejects_blank xs (by decide)
  · exact (agree_sign (by decide) (by decide) h).imp fun _ _ _ _ h ↦ h.1

theorem agree_attributeBody_end (fuel fuel' : List Char) (h : Aligned tail c.rest c'.rest)
    (hend : c.rest = [] ∨ c'.rest = []) :
    Agree (attributeBody fuel) (attributeBody fuel') c c' fun _ _ next next' ↦
      Aligned tail next.rest next'.rest := by
  have hstop (fuel : List Char) (n : Nat) :
      ∃ f, attributeBody fuel ⟨[], n⟩ = .matched () ⟨[], n⟩ f := by
    cases fuel <;> exact ⟨_, rfl⟩
  obtain ⟨rest, n⟩ := c
  obtain ⟨rest', n'⟩ := c'
  obtain ⟨rfl, rfl⟩ | ⟨x, xs, xs', rfl, rfl, -⟩ := h.cases_head
  · obtain ⟨f, hf⟩ := hstop fuel n
    obtain ⟨f', hf'⟩ := hstop fuel' n'
    exact .inr ⟨(), (), _, _, f, f', hf, hf', ⟨.refl _, .refl _⟩, h⟩
  · obtain hnil | hnil := hend <;> cases hnil

theorem agree_attributeBody (htail : StartsBlank tail) (fuel fuel' : List Char) {c c' : Cursor}
    (hc : c.rest.length ≤ fuel.length) (hc' : c'.rest.length ≤ fuel'.length)
    (h : Aligned tail c.rest c'.rest) :
    Agree (attributeBody fuel) (attributeBody fuel') c c' fun _ _ next next' ↦
      Aligned tail next.rest next'.rest := by
  induction fuel generalizing fuel' c c' with
  | nil =>
    have hend : c.rest = [] := List.eq_nil_of_length_eq_zero (by simpa using hc)
    exact agree_attributeBody_end _ _ h (.inl hend)
  | cons x fuel ih =>
    cases fuel' with
    | nil =>
      have hend : c'.rest = [] := List.eq_nil_of_length_eq_zero (by simpa using hc')
      exact agree_attributeBody_end _ _ h (.inr hend)
    | cons x' fuel' =>
      refine agree_skipMany_within (fun c c' h hle ↦ ?_) (fun xs n ↦ ?_) (.inl h) ⟨hc, hc'⟩
      · rw [List.length_cons, List.length_cons] at hle
        refine .orElse ?_ (.orElse ?_ ?_)
        · refine (agree_sign (by decide) (by decide) h).bind_nearer fun _ _ mid mid' h hlt ↦ ?_
          obtain ⟨hlt, hlt'⟩ := hlt
          refine (ih fuel' (by omega) (by omega) h).bind fun _ _ _ _ _ h ↦ ?_
          exact (agree_sign (by decide) (by decide) h).imp fun _ _ _ _ h ↦ .inl h.1
        · exact (agree_stringLiteral htail h).bind_nearer fun _ _ _ _ h _ ↦ .pure (.inl h)
        · exact (agree_oneOf _ h).imp fun _ _ _ _ h ↦ ⟨h.1.1, h.2⟩
      · have hstring : Rejects (stringLiteral >>= fun _ ↦ pure ()) (' ' :: xs) :=
          .bind ((heads_cons (List.mem_singleton_self ' ')).rejects_stringLiteral (by decide))
        obtain ⟨f, hf⟩ := hstring n
        exact ⟨_, orElse_of_failed rfl (orElse_of_failed hf rfl)⟩

theorem agree_comment (htail : StartsBlank tail) (h : Aligned tail c.rest c'.rest) :
    Agree comment comment c c' fun _ _ next next' ↦
      Aligned tail next.rest next'.rest ∧ Nearer c c' next next' := by
  refine (agree_blockComment h).orElse (.orElse ?_ (.orElse ?_ ?_))
  · exact (agree_sign (by decide) (by decide) h).bind_nearer fun _ _ _ _ h _ ↦ agree_restOfLine h
  · refine (agree_sign (by decide) (by decide) h).bind_nearer fun _ _ mid mid' h _ ↦ ?_
    have hbody := agree_attributeBody htail mid.rest mid'.rest (Nat.le_refl _) (Nat.le_refl _) h
    have hbody' : Agree (fun c ↦ attributeBody c.rest c) (fun c ↦ attributeBody c.rest c) mid mid'
        fun _ _ next next' ↦ Aligned tail next.rest next'.rest := hbody
    refine hbody'.bind fun _ _ _ _ _ h ↦ ?_
    exact (agree_sign (by decide) (by decide) h).imp fun _ _ _ _ h ↦ h.1
  · exact (agree_sign (by decide) (by decide) h).bind_nearer fun _ _ _ _ h _ ↦ agree_restOfLine h

/-- Where blanks follow the one that is too much, all of them are taken. -/
theorem agree_whitespace_blank {b : Char} {rest : List Char} {n n' : Nat} (hb : b ∈ blanks) :
    Agree whitespace whitespace ⟨b :: rest, n⟩ ⟨' ' :: b :: rest, n'⟩ fun _ _ next next' ↦
      next.rest = next'.rest ∧ Nearer ⟨b :: rest, n⟩ ⟨' ' :: b :: rest, n'⟩ next next' := by
  have hfirst : Agree (oneOf (.ofChars [' ', '\t', '\n', '\r']))
      (oneOf (.ofChars [' ', '\t', '\n', '\r'])) ⟨b :: rest, n⟩ ⟨' ' :: b :: rest, n'⟩
      fun _ _ next next' ↦ (next.rest = rest ∧ next'.rest = b :: rest) ∧
        Nearer ⟨b :: rest, n⟩ ⟨' ' :: b :: rest, n'⟩ next next' :=
    .inr ⟨(), (), _, _, .none, .none, oneOf_blank hb _ _, oneOf_blank List.mem_cons_self _ _,
      ⟨⟨[b], rfl, rfl⟩, [' '], rfl, rfl⟩, ⟨rfl, rfl⟩, Nat.lt_succ_self _, Nat.lt_succ_self _⟩
  refine hfirst.bind_nearer fun _ _ mid mid' hmid _ ↦ ?_
  obtain ⟨hmid, hmid'⟩ := hmid
  refine (Agree.skipMany_alone (J := fun c c' ↦ c.rest = c'.rest ∨ c'.rest = b :: c.rest) ?_
    (.inr (by rw [hmid, hmid']))).imp fun _ _ next next' hlast ↦ ?_
  · rintro ⟨xs, n⟩ ⟨xs', n'⟩ (hsame | hblank)
    · obtain rfl : xs = xs' := hsame
      refine .inl ?_
      cases xs with
      | nil => exact .inl ⟨_, _, rfl, rfl⟩
      | cons x xs =>
        by_cases hx : x ∈ blanks
        · exact .inr ⟨(), (), _, _, .none, .none, oneOf_blank hx _ _, oneOf_blank hx _ _,
            ⟨⟨[x], rfl, rfl⟩, [x], rfl, rfl⟩, .inl rfl, Nat.lt_succ_self _, Nat.lt_succ_self _⟩
        · have hreject : Rejects (oneOf (.ofChars [' ', '\t', '\n', '\r'])) (x :: xs) :=
            .oneOf fun y hy ↦ by
              obtain rfl := Option.some_inj.mp hy
              rw [CharClass.contains_ofChars]
              exact decide_eq_false hx
          exact agree_of_rejects hreject hreject
    · obtain rfl : xs' = b :: xs := hblank
      exact .inr ⟨_, _, oneOf_blank hb xs n', ⟨[b], rfl, rfl⟩, Nat.lt_succ_self _, .inl rfl⟩
  · obtain ⟨hsame | hblank, f, f', -, hf'⟩ := hlast
    · exact hsame
    · obtain ⟨xs', n'⟩ := next'
      obtain rfl : xs' = b :: next.rest := hblank
      rw [oneOf_blank hb] at hf'
      cases hf'

theorem agree_whitespace (h : Aligned tail c.rest c'.rest) :
    Agree whitespace whitespace c c' fun _ _ next next' ↦
      Aligned tail next.rest next'.rest ∧ Nearer c c' next next' := by
  have hone {c c' : Cursor} (h : Aligned tail c.rest c'.rest) :
      Agree (oneOf (.ofChars [' ', '\t', '\n', '\r'])) (oneOf (.ofChars [' ', '\t', '\n', '\r']))
        c c' fun _ _ next next' ↦ Aligned tail next.rest next'.rest ∧ Nearer c c' next next' :=
    (agree_oneOf _ h).imp fun _ _ _ _ h ↦ ⟨h.1.2 (by decide), h.2⟩
  exact (hone h).bind_nearer fun _ _ _ _ h _ ↦
    .skipMany (J := fun c c' ↦ Aligned tail c.rest c'.rest) (fun _ _ ↦ hone) h

theorem agree_trivia (htail : StartsBlank tail) (h : Spaced tail c.rest c'.rest) :
    Agree trivia trivia c c' fun _ _ next next' ↦ Aligned tail next.rest next'.rest := by
  refine ((Agree.skipMany_alone (J := fun c c' ↦ Spaced tail c.rest c'.rest) ?_ h).imp
    fun _ _ next next' ⟨hnext, f, f', _, hf'⟩ ↦ ?_).quiet
  · rintro ⟨rest, n⟩ ⟨rest', n'⟩ (haligned | ⟨rfl, hblank⟩)
    · exact .inl (((agree_whitespace haligned).orElse (agree_comment htail haligned)).imp
        fun _ _ _ _ h ↦ ⟨.inl h.1, h.2⟩)
    · obtain rfl : rest' = ' ' :: rest := hblank
      cases rest with
      | nil =>
        exact .inr ⟨⟨[], n' + ' '.utf8Size⟩, _, rfl, ⟨[' '], rfl, rfl⟩, Nat.lt_succ_self _,
          .inl (.same [])⟩
      | cons b rest =>
        have hb : b ∈ blanks := htail b rfl
        have hheads (xs : List Char) {x : Char} (hx : x ∈ blanks) : Rejects comment (x :: xs) :=
          (heads_cons hx).rejects_comment (by decide)
        refine .inl (.orElse ?_ (agree_of_rejects (hheads _ hb) (hheads _ (by decide))))
        exact (agree_whitespace_blank hb).imp fun _ _ next next' ⟨hsame, hlt⟩ ↦
          ⟨.inl (hsame ▸ .same _), hlt⟩
  · obtain haligned | ⟨-, hblank⟩ := hnext
    · exact haligned
    · obtain ⟨rest, n⟩ := next'
      obtain rfl : rest = ' ' :: tail := hblank
      have hone : oneOf (.ofChars [' ', '\t', '\n', '\r']) ⟨' ' :: tail, n⟩ =
        .matched () ⟨tail, n + ' '.utf8Size⟩ .none := rfl
      obtain ⟨last, g, hlast⟩ := skipMany_matches (oneOf (.ofChars [' ', '\t', '\n', '\r']))
        ⟨tail, n + ' '.utf8Size⟩
      have hwhite : whitespace ⟨' ' :: tail, n⟩ = .matched () last _ := bind_of_matched hone hlast
      rw [orElse_of_matched hwhite] at hf'
      cases hf'

def oneBlank (htail : StartsBlank tail) : Frame where
  toPairing := spaced htail
  toLikeness := .shape
  position_near _ := trivial
  text_taken _ _ _ _ _ := trivial
  written_taken _ _ _ _ := trivial
  quotes_taken _ _ := trivial
  Inside _ _ := True
  step _ _ := trivial
  opener _ _ := trivial
  closer _ _ := trivial
  slash _ _ := trivial
  division h _ x hx := by
    have hplain : ∀ x ∈ ['/', '*'], x ∉ blanks := List.all_iff_forall_prop.mp (by decide)
    have hbehind := (spaced htail).next h (by decide)
    obtain ⟨y, ys, ys', rfl, rfl⟩ | ⟨hblank, hblank'⟩ := hbehind.cases_head htail
    · rfl
    · exact ⟨fun h ↦ absurd (hblank x h) (hplain x hx), fun h ↦ absurd (hblank' x h) (hplain x hx)⟩
  angle _ _ := trivial
  shift _ := .inl trivial
  string := by
    rintro _ c c' (h | ⟨h, h'⟩) -
    · exact (agree_stringLiteral htail h).imp fun _ _ _ _ h ↦
        ⟨⟨trivial, .inl h.1, trivial⟩, h.2⟩
    · refine agree_of_rejects ?_ ?_
      · rw [h]
        exact Heads.rejects_stringLiteral htail (by decide)
      · rw [h']
        exact (heads_cons (List.mem_singleton_self ' ')).rejects_stringLiteral (by decide)
  skip h _ := (agree_trivia htail h).imp fun _ _ _ _ h ↦ ⟨.inl h, trivial⟩

theorem at_of_aligned {d : List Char} (h : Aligned tail c.rest c'.rest) :
    (oneBlank htail).At d c c' := ⟨.inl h, trivial⟩

theorem firm_traitUse_oneBlank {k : Nat} {d : List Char} :
    (oneBlank htail).Firm k d d (MemberKind.Like .shape) traitUse traitUse := by
  refine Frame.firm_traitUse fun c c' hc _ ↦ ?_
  refine ((oneBlank htail).agree_literal (by decide) hc.1).bind fun _ _ _ _ _ h ↦ ?_
  refine (agree_until (fun c c' h ↦ ?_) (fun xs ↦ ?_) h.1).bind fun _ _ _ _ _ h ↦ ?_
  · exact (agree_sign (by decide) (by decide) h).imp fun _ _ _ _ _ ↦ trivial
  · exact rejects_blank xs (by decide)
  · exact (agree_sign (by decide) (by decide) h).imp fun _ _ _ _ h ↦ ⟨rfl, at_of_aligned h.1⟩

theorem agree_optional {α : Type} {p : Parser α}
    (h : Aligned tail c.rest c'.rest → Agree p p c c' fun _ _ next next' ↦
      Aligned tail next.rest next'.rest) (hc : Aligned tail c.rest c'.rest) :
    Agree (optional p) (optional p) c c' fun _ _ next next' ↦
      Aligned tail next.rest next'.rest := .optional (h hc) hc

theorem agree_file (htail : StartsBlank tail) {k m n : Nat} (hm : k ≤ m) (hn : k ≤ n)
    (h : Aligned tail c.rest c'.rest) (hk : c.rest.length < k) :
    Agree (file (.ofDepth m)) (file (.ofDepth n)) c c' fun _ _ _ _ ↦ True := by
  have htied : (oneBlank htail).Tied k (.ofDepth m) (.ofDepth n) :=
    Frame.tied_ofDepth (fun _ _ ↦ firm_traitUse_oneBlank) hm hn
  have hmark := agree_optional (p := literal (String.singleton byteOrderMark)) (fun h ↦
    (agree_sign (by decide) (by decide) h).imp fun _ _ _ _ h ↦ h.1) h
  refine hmark.bind fun _ _ c₁ _ hle₁ h ↦ ?_
  refine (agree_trivia htail (.inl h)).bind fun _ _ c₂ _ hle₂ h ↦ ?_
  refine (agree_sign (by decide) (by decide) h).bind fun _ _ c₃ c₃' hle₃ h ↦ ?_
  have hword : Agree (oneOf wordStart <|> oneOf digit) (oneOf wordStart <|> oneOf digit) c₃ c₃'
      fun _ _ _ _ ↦ True :=
    .orElse ((agree_oneOf _ h.1).imp fun _ _ _ _ _ ↦ trivial)
      ((agree_oneOf _ h.1).imp fun _ _ _ _ _ ↦ trivial)
  have hnot : Agree (notAhead (oneOf wordStart <|> oneOf digit))
      (notAhead (oneOf wordStart <|> oneOf digit)) c₃ c₃' fun _ _ next next' ↦
        Aligned tail next.rest next'.rest := hword.notAhead fun _ ↦ h.1
  refine hnot.bind fun _ _ c₄ c₄' hle₄ h ↦ ?_
  have hless : c₄.rest.length < k := Nat.lt_of_le_of_lt
    ((((hle₁.1.trans hle₂.1).trans hle₃.1).trans hle₄.1).length_le) hk
  have hstatements := Frame.steady_statements htied (d := []) c₄ c₄' (at_of_aligned h) hless
  refine hstatements.bind fun _ _ _ _ _ h ↦ ?_
  refine (agree_trivia htail h.2.1).bind fun _ _ _ _ _ h ↦ ?_
  refine (agree_optional (fun h ↦ ?_) h).bind fun _ _ c₅ c₅' _ h ↦ ?_
  · refine (agree_sign (by decide) (by decide) h).bind fun _ _ _ _ _ h ↦ ?_
    refine agree_skipMany (fun _ _ h ↦ ?_) (fun _ _ ↦ ⟨_, rfl⟩) (.inl h.1)
    exact (agree_oneOf .any h).imp fun _ _ _ _ h ↦ ⟨h.1.1, h.2⟩
  · have hend : Agree endOfText endOfText c₅ c₅' fun _ _ _ _ ↦ True :=
      (agree_oneOf .any h).notAhead fun _ ↦ trivial
    exact hend.bind fun _ _ _ _ _ _ ↦ .pure trivial

end

theorem isOk_parseFile_space (htail : StartsBlank tail) (text : List Char) :
    (parseFile (text ++ ';' :: ' ' :: tail)).isOk = (parseFile (text ++ ';' :: tail)).isOk := by
  have hagree : Agree (file (.forText (text ++ ';' :: tail)))
      (file (.forText (text ++ ';' :: ' ' :: tail))) ⟨text ++ ';' :: tail, 0⟩
      ⟨text ++ ';' :: ' ' :: tail, 0⟩ fun _ _ _ _ ↦ True :=
    agree_file htail (Nat.le_refl _) (by simp) (aligned_append text) (Nat.lt_succ_self _)
  unfold parseFile
  obtain ⟨f, f', hf, hf'⟩ | ⟨a, a', next, next', f, f', hf, hf', -⟩ := hagree <;>
    simp only [hf, hf'] <;> rfl

/-- Spaces behind a semicolon do not decide whether a text parses. -/
theorem isOk_parseFile_spaces (htail : StartsBlank tail) (text : List Char) (n : Nat) :
    (parseFile (text ++ ';' :: (List.replicate n ' ' ++ tail))).isOk =
      (parseFile (text ++ ';' :: tail)).isOk := by
  induction n with
  | zero => rfl
  | succ n ih =>
    have hspaces : StartsBlank (List.replicate n ' ' ++ tail) := by
      cases n with
      | zero => exact htail
      | succ n =>
        intro x hx
        obtain rfl := Option.some_inj.mp hx
        exact List.mem_cons_self
    rw [← ih, List.replicate_succ, List.cons_append, isOk_parseFile_space hspaces]

end PhpInsight.Grammar

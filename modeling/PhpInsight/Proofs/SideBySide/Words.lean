import Mathlib.Data.Bool.AllAny
import PhpInsight.Proofs.SideBySide.Frame

namespace PhpInsight.Grammar

open Peg Peg.Parser Text

theorem consumes_trivia : Consumes trivia fun _ ↦ True := by
  refine consumes_of_moves fun source lo ↦ ?_
  have hblank : Takes source whitespace := takes_some1 (takes_oneOf (by decide))
  have hskip : Moves source (skipMany (whitespace <|> comment)) :=
    .skipMany (hblank.moves.orElse takes_comment.moves)
  exact (hskip lo).quiet

theorem consumes_stringLiteral : Consumes stringLiteral (· ≠ []) :=
  consumes_of_takes fun _ ↦ takes_stringLiteral

namespace Pairing

variable {P : Pairing} {c c' : Cursor}

theorem agree_oneOf {K : CharClass} (hK : gapHeads.all (!K.contains ·) = true) (h : P.Near c c') :
    Agree (oneOf K) (oneOf K) c c' fun _ _ next next' ↦ P.Near next next' ∧
      Alike (fun cs ↦ ∃ x, cs = [x] ∧ K.contains x = true) c c' next next' := by
  have hgap {x : Char} (hx : x ∈ gapHeads) : K.contains x = false := by
    simpa using List.all_eq_true.mp hK x hx
  obtain ⟨rest, n⟩ := c
  obtain ⟨rest', n'⟩ := c'
  obtain ⟨x, xs, xs', rfl, rfl⟩ | ⟨hstart, hstart'⟩ := P.head h
  · unfold Agree oneOf
    cases hx : K.contains x with
    | false => exact .inl ⟨_, _, by simp only [hx]; rfl, by simp only [hx]; rfl⟩
    | true =>
      have hnot : x ∉ blanks := fun hmem ↦ by simp [hgap (List.mem_append_left _ hmem)] at hx
      exact .inr ⟨(), (), ⟨xs, n + x.utf8Size⟩, ⟨xs', n' + x.utf8Size⟩, .none, .none,
        by simp only [hx, if_true], by simp only [hx, if_true], ⟨⟨[x], rfl, rfl⟩, [x], rfl, rfl⟩,
        P.next h hnot, [x], ⟨x, rfl, hx⟩, ⟨rfl, rfl⟩, rfl, rfl⟩
  · exact agree_of_rejects (.oneOf fun x hx ↦ hgap (hstart.head x hx))
      (.oneOf fun x hx ↦ hgap (hstart'.head x hx))

theorem near_dropText? {t : List Char} (ht : isTight t = true) (h : P.Near c c') :
    (Cursor.dropText? t c = none ∧ Cursor.dropText? t c' = none) ∨
      ∃ next next', Cursor.dropText? t c = some next ∧ Cursor.dropText? t c' = some next' ∧
        P.Near next next' := by
  induction t generalizing c c' with
  | nil => exact .inr ⟨c, c', rfl, rfl, h⟩
  | cons y t ih =>
    obtain ⟨rest, n⟩ := c
    obtain ⟨rest', n'⟩ := c'
    obtain ⟨x, xs, xs', rfl, rfl⟩ | ⟨hstart, hstart'⟩ := P.head h
    · by_cases hx : x = y
      · subst hx
        simpa [Cursor.dropText?] using ih (isTight_tail ht) (P.next h (isTight_head ht))
      · simp [Cursor.dropText?, hx]
    · have hnone := dropText?_eq_none (hstart.not_prefix ht)
      exact .inl ⟨hnone, dropText?_eq_none (hstart'.not_prefix ht)⟩

theorem agree_literal {s : String} (hs : isTight s.toList = true) (h : P.Near c c') :
    Agree (literal s) (literal s) c c' fun _ _ next next' ↦
      P.Near next next' ∧ Alike (· = s.toList) c c' next next' := by
  unfold Agree literal
  obtain ⟨hnone, hnone'⟩ | ⟨next, next', hnext, hnext', hnear⟩ := near_dropText? hs h
  · exact .inl ⟨_, _, by rw [hnone], by rw [hnone']⟩
  · have htakes : c.Takes s.toList next := dropText?_eq_some hnext
    have htakes' : c'.Takes s.toList next' := dropText?_eq_some hnext'
    exact .inr ⟨(), (), next, next', .none, .none, by rw [hnext], by rw [hnext'],
      ⟨htakes.reaches, htakes'.reaches⟩, hnear, s.toList, rfl, htakes, htakes'⟩

theorem agree_word (h : P.Near c c') :
    Agree word word c c' fun w w' next next' ↦ w = w' ∧ P.Near next next' ∧
      Alike (fun cs ↦ cs = w.toList ∧ cs ≠ [] ∧ ∀ x ∈ cs, isWordChar x = true) c c' next next' := by
  have hread : Agree (do oneOf wordStart; skipMany (oneOf wordStart <|> oneOf digit))
      (do oneOf wordStart; skipMany (oneOf wordStart <|> oneOf digit)) c c' fun _ _ next next' ↦
        P.Near next next' ∧
          Alike (fun cs ↦ cs ≠ [] ∧ ∀ x ∈ cs, isWordChar x = true) c c' next next' := by
    refine (agree_oneOf (by decide) h).bind fun _ _ mid mid' _ hmid ↦ ?_
    obtain ⟨hmid, halike⟩ := hmid
    have hrest {c c' : Cursor} (h : P.Near c c') :
        Agree (oneOf wordStart <|> oneOf digit) (oneOf wordStart <|> oneOf digit) c c'
          fun _ _ next next' ↦ P.Near next next' ∧
            Alike (fun cs ↦ cs ≠ [] ∧ ∀ x ∈ cs, isWordChar x = true) c c' next next' := by
      refine .orElse ((agree_oneOf (by decide) h).imp ?_) ((agree_oneOf (by decide) h).imp ?_)
      all_goals
        rintro _ _ next next' ⟨hnext, cs, ⟨x, rfl, hx⟩, htakes⟩
        exact ⟨hnext, [x], by simp [isWordChar, hx], htakes⟩
    refine Agree.skipMany (J := fun next next' ↦ P.Near next next' ∧
      Alike (fun cs ↦ cs ≠ [] ∧ ∀ x ∈ cs, isWordChar x = true) c c' next next')
      (fun d d' hd ↦ ?_) ?_
    · refine (hrest hd.1).imp fun _ _ next next' h ↦ ?_
      obtain ⟨hnext, hmore⟩ := h
      refine ⟨⟨hnext, ?_⟩, ?_⟩
      · refine hd.2.trans hmore fun cs ds hcs hds ↦ ?_
        exact ⟨by simp [hcs.1], List.forall_mem_append.mpr ⟨hcs.2, hds.2⟩⟩
      · exact hmore.nearer fun _ h ↦ h.1
    · obtain ⟨cs, ⟨x, rfl, hx⟩, htakes⟩ := halike
      exact ⟨hmid, [x], by simp [isWordChar, hx], htakes⟩
  refine hread.textOf.imp fun w w' next next' h ↦ ?_
  obtain ⟨htakes, hnext, cs, hcs, hc, hc'⟩ := h
  have hw : cs = w.toList := hc.unique htakes.1
  have hw' : cs = w'.toList := hc'.unique htakes.2
  exact ⟨String.toList_inj.mp (hw.symm.trans hw'), hnext, cs, ⟨hw, hcs⟩, hc, hc'⟩

theorem agree_sign {s : String} (hs : isTight s.toList = true) (h : P.Near c c') :
    Agree (isPresent (literal s)) (isPresent (literal s)) c c' fun b b' next next' ↦
      b = b' ∧ P.Near next next' ∧ Alike (· = if b then s.toList else []) c c' next next' := by
  have hsign : Agree (optional (literal s)) (optional (literal s)) c c' fun o o' next next' ↦
      o.isSome = o'.isSome ∧ P.Near next next' ∧
        Alike (· = if o.isSome then s.toList else []) c c' next next' := by
    refine .optional ?_ ?_
    · exact (agree_literal hs h).imp fun _ _ _ _ hmatched ↦ ⟨rfl, hmatched⟩
    · exact ⟨rfl, h, [], rfl, .nil c, .nil c'⟩
  exact hsign.bind fun _ _ _ _ _ h ↦ .pure h

def isNameChar (x : Char) : Bool := x = '\\' || isWordChar x

theorem agree_segment (h : P.Near c c') :
    Agree (do literal "\\"; word) (do literal "\\"; word) c c' fun w w' next next' ↦
      w = w' ∧ P.Near next next' ∧
        Alike (fun cs ↦ cs = '\\' :: w.toList ∧ ∀ x ∈ cs, isNameChar x = true) c c' next next' := by
  refine (agree_literal (by decide) h).bind fun _ _ mid mid' _ ⟨hmid, halike⟩ ↦ ?_
  refine (agree_word hmid).imp fun w w' next next' ⟨hw, hnext, hword⟩ ↦ ⟨hw, hnext, ?_⟩
  refine halike.trans hword ?_
  rintro cs ds rfl ⟨rfl, -, hds⟩
  refine ⟨rfl, List.forall_mem_cons.mpr ⟨rfl, fun x hx ↦ ?_⟩⟩
  rw [isNameChar, hds x hx, Bool.or_true]

/-- The same segments are read, and the span of the name is that of its text. -/
theorem agree_name (h : P.Near c c') :
    Agree name name c c' fun n n' next next' ↦ P.Near next next' ∧ ∃ full first others,
      n = .ofParts full (first :: others) ⟨c.offset, next.offset⟩ ∧
      n' = .ofParts full (first :: others) ⟨c'.offset, next'.offset⟩ ∧
      Alike (fun cs ↦ cs = pathText full (first :: others) ∧ cs ≠ [] ∧
        ∀ x ∈ cs, isNameChar x = true) c c' next next' := by
  refine .position_bind ?_
  refine (agree_sign (by decide) h).bind fun full _ c₁ c₁' _ hfull ↦ ?_
  obtain ⟨rfl, h₁, hsign⟩ := hfull
  refine (agree_word h₁).bind fun first _ c₂ c₂' _ hfirst ↦ ?_
  obtain ⟨rfl, h₂, hword⟩ := hfirst
  let J (others others' : List String) (next next' : Cursor) : Prop :=
    others = others' ∧ P.Near next next' ∧ Alike (fun cs ↦ cs = pathText full (first :: others) ∧
      cs ≠ [] ∧ ∀ x ∈ cs, isNameChar x = true) c c' next next'
  have hstart : J [] [] c₂ c₂' := by
    refine ⟨rfl, h₂, hsign.trans hword ?_⟩
    rintro cs ds rfl ⟨rfl, hne, hds⟩
    refine ⟨by simp [pathText, segmentsText], by simp [hne], List.forall_mem_append.mpr ⟨?_, ?_⟩⟩
    · cases full <;> simp [isNameChar]
    · exact fun x hx ↦ by rw [isNameChar, hds x hx, Bool.or_true]
  refine (Agree.many_onto (J := J) (fun others _ m m' hm ↦ ?_) hstart).bind
    fun others _ next next' _ hothers ↦ ?_
  · obtain ⟨rfl, hm, hsofar⟩ := hm
    refine (agree_segment hm).imp fun w w' next next' hsegment ↦ ?_
    obtain ⟨rfl, hnext, hsegment⟩ := hsegment
    refine ⟨⟨rfl, hnext, hsofar.trans hsegment ?_⟩, hsegment.nearer fun _ h ↦ by simp [h.1]⟩
    rintro cs ds ⟨rfl, hne, hcs⟩ ⟨rfl, hds⟩
    exact ⟨by simp [pathText, segmentsText], by simp [hne], List.forall_mem_append.mpr ⟨hcs, hds⟩⟩
  · obtain ⟨rfl, hnext, halike⟩ := hothers
    exact .position_bind (.pure ⟨hnext, full, first, others, rfl, rfl, halike⟩)

end Pairing

namespace Unmarked

theorem pure {α : Type} (a : α) : Unmarked (pure a : Parser α) := by
  intro c b next f hm
  cases hm
  exact ⟨[], rfl, rfl, List.forall_mem_nil _⟩

theorem bind {α β : Type} {p : Parser α} {f : α → Parser β} (hp : Unmarked p)
    (hf : ∀ a, Unmarked (f a)) : Unmarked (p >>= f) := by
  refine (Consumes.bind hp hf).imp ?_
  rintro _ ⟨cs, ds, rfl, hcs, hds⟩
  exact List.forall_mem_append.mpr ⟨hcs, hds⟩

theorem oneOf {K : CharClass} (h : isUnmarked K = true) : Unmarked (oneOf K) := by
  rw [isUnmarked, List.all_append, Bool.and_eq_true] at h
  refine (Consumes.oneOf K).imp ?_
  rintro _ ⟨x, rfl, hx⟩ y hy hmark
  obtain rfl := List.mem_singleton.mp hy
  have hnot := List.all_eq_true.mp h.2 y hmark
  simp [hx] at hnot

theorem literal {s : String} (h : s.toList.all (· ∉ marks) = true) : Unmarked (literal s) := by
  refine (Consumes.literal s).imp ?_
  rintro _ rfl
  exact List.all_iff_forall_prop.mp h

theorem skipMany {p : Parser Unit} (h : Unmarked p) : Unmarked (skipMany p) := Consumes.skipMany h

theorem some1 {p : Parser Unit} (h : Unmarked p) : Unmarked (some1 p) := h.bind fun _ ↦ h.skipMany

theorem optional {α : Type} {p : Parser α} (h : Unmarked p) : Unmarked (optional p) := by
  intro c o next f hm
  unfold Parser.optional at hm
  cases hp : p c with
  | failed g =>
    simp only [hp] at hm
    cases hm
    exact ⟨[], rfl, rfl, List.forall_mem_nil _⟩
  | matched a mid g =>
    simp only [hp] at hm
    cases hm
    exact h _ _ _ _ hp

end Unmarked

theorem unmarked_exponent : Unmarked exponent := by
  refine .bind (.oneOf (by decide)) fun _ ↦ ?_
  refine .bind (.optional (.oneOf (by decide))) fun _ ↦ ?_
  exact .some1 (.oneOf (by decide))

namespace Frame

variable {α : Type} {F : Frame} {k : Nat} {d e : List Char} {p p' : Parser α} {c c' : Cursor}
  {R : α → α → Prop}

theorem inside_of_plain {cs : List Char} {next : Cursor} (hc : F.Inside d c)
    (h : c.Takes cs next) (hcs : ∀ x ∈ cs, x ∉ marks) : F.Inside d next :=
  h.induct (fun _ _ _ hx hin ↦ F.step hin (hcs _ hx)) hc

theorem firm_oneOf {K : CharClass} (h : isUnmarked K = true) :
    F.Firm k d d Eq (oneOf K) (oneOf K) := by
  rw [isUnmarked, List.all_append, Bool.and_eq_true] at h
  intro c c' hc _
  refine (F.agree_oneOf h.1 hc.1).imp fun _ _ next next' ⟨hnext, halike⟩ ↦
    ⟨⟨rfl, hnext, ?_⟩, halike.nearer ?_⟩
  · obtain ⟨cs, ⟨x, rfl, hx⟩, htakes, -⟩ := halike
    refine inside_of_plain hc.2 htakes fun y hy hmark ↦ ?_
    obtain rfl := List.mem_singleton.mp hy
    have hnot := List.all_eq_true.mp h.2 y hmark
    rw [hx] at hnot
    cases hnot
  · rintro _ ⟨x, rfl, -⟩
    exact List.cons_ne_nil _ _

/-- No character of a text is a bracket, and no string literal or comment can start in it. -/
def isSafe : List Char → Bool
  | [] => true
  | x :: xs => (x ∉ marks || x = '/' && xs.head?.any (· ∉ ['/', '*']) ||
      x = '<' && Differ ['<', '<'] xs) && isSafe xs

theorem not_prefix_of_differ {s t xs : List Char} (h : Differ s t = true) : ¬ s <+: t ++ xs := by
  induction s generalizing t with
  | nil => cases h
  | cons x s ih =>
    cases t with
    | nil => cases h
    | cons y t =>
      rw [List.cons_append, List.cons_prefix_cons]
      rintro ⟨rfl, hs⟩
      exact ih (by simpa [Differ] using h) hs

theorem inside_of_isSafe {t xs : List Char} {n : Nat} (h : isSafe t = true)
    (hc : F.Inside d ⟨t ++ xs, n⟩) : F.Inside d ⟨xs, n + byteLength t⟩ := by
  induction t generalizing n with
  | nil => exact hc
  | cons x t ih =>
    simp only [isSafe, Bool.and_eq_true, Bool.or_eq_true, decide_eq_true_eq] at h
    obtain ⟨hx, ht⟩ := h
    have hnext : F.Inside d ⟨t ++ xs, n + x.utf8Size⟩ := by
      rcases hx with (hx | ⟨rfl, hhead⟩) | ⟨rfl, hdiffer⟩
      · exact F.step hc hx
      · refine F.slash hc fun y hy ↦ ?_
        cases t with
        | nil => cases hhead
        | cons z t =>
          obtain rfl : z = y := by simpa using hy
          simpa using hhead
      · exact F.angle hc (not_prefix_of_differ hdiffer)
    have hlast := ih ht hnext
    rwa [Nat.add_assoc] at hlast

def isPlainSign (s : String) : Bool :=
  isSafe s.toList && !s.toList.isEmpty && isTight s.toList

theorem firm_literal {s : String} (h : isPlainSign s = true) :
    F.Firm k d d Eq (literal s) (literal s) := by
  simp only [isPlainSign, Bool.and_eq_true] at h
  obtain ⟨⟨hsafe, hne⟩, htight⟩ := h
  intro c c' hc _
  refine (F.agree_literal htight hc.1).imp fun _ _ next next' ⟨hnext, halike⟩ ↦
    ⟨⟨rfl, hnext, ?_⟩, halike.nearer ?_⟩
  · obtain ⟨cs, rfl, ⟨hrest, hoffset⟩, -⟩ := halike
    obtain ⟨rest, n⟩ := c
    have hinside := hc.2
    rw [show rest = s.toList ++ next.rest from hrest] at hinside
    have hlast := inside_of_isSafe hsafe hinside
    rwa [show n + byteLength s.toList = next.offset from hoffset.symm] at hlast
  · rintro _ rfl
    simpa using hne

theorem sees_literal {s : String} (h : isTight s.toList = true) :
    F.Sees d (literal s) (literal s) := by
  intro _ _ hc
  exact (F.agree_literal h hc.1).imp fun _ _ _ _ _ ↦ trivial

theorem sees_oneOf {K : CharClass} (h : gapHeads.all (!K.contains ·) = true) :
    F.Sees d (oneOf K) (oneOf K) := by
  intro _ _ hc
  exact (F.agree_oneOf h hc.1).imp fun _ _ _ _ _ ↦ trivial

theorem firm_single {s : String} {x : Char} (hs : s.toList = [x]) (htight : isTight [x] = true)
    (hx : ∀ {xs : List Char} {n : Nat}, F.Inside d ⟨x :: xs, n⟩ → F.Inside e ⟨xs, n + x.utf8Size⟩) :
    F.Firm k d e Eq (literal s) (literal s) := by
  intro c c' hc _
  refine (F.agree_literal (hs ▸ htight) hc.1).imp
    fun _ _ next next' ⟨hnext, halike⟩ ↦ ⟨⟨rfl, hnext, ?_⟩, halike.nearer ?_⟩
  · obtain ⟨cs, rfl, ⟨hrest, hoffset⟩, -⟩ := halike
    rw [hs] at hrest hoffset
    obtain ⟨rest, n⟩ := c
    have hinside := hc.2
    rw [show rest = x :: next.rest from hrest] at hinside
    have hlast := hx hinside
    rwa [show n + x.utf8Size = next.offset from hoffset.symm] at hlast
  · rintro _ rfl
    simp [hs]

theorem firm_parenthesis : F.Firm k d (')' :: d) Eq (literal "(") (literal "(") :=
  firm_single rfl (by decide) (F.opener · rfl)

theorem firm_parenthesis_end : F.Firm k (')' :: d) d Eq (literal ")") (literal ")") :=
  firm_single rfl (by decide) (F.closer · rfl)

theorem firm_bracket : F.Firm k d (']' :: d) Eq (literal "[") (literal "[") :=
  firm_single rfl (by decide) (F.opener · rfl)

theorem firm_bracket_end : F.Firm k (']' :: d) d Eq (literal "]") (literal "]") :=
  firm_single rfl (by decide) (F.closer · rfl)

theorem not_mark_of_isWordChar {x : Char} (h : isWordChar x = true) : x ∉ marks := by
  have hmarks : ∀ x ∈ marks, isWordChar x = false := List.all_iff_forall_prop.mp (by decide)
  intro hmem
  rw [hmarks x hmem] at h
  cases h

theorem inside_of_word {cs : List Char} {next : Cursor} (hc : F.Inside d c)
    (h : c.Takes cs next) (hcs : ∀ x ∈ cs, isWordChar x = true) : F.Inside d next :=
  inside_of_plain hc h fun x hx ↦ not_mark_of_isWordChar (hcs x hx)

theorem firm_word : F.Firm k d d Eq word word := by
  intro c c' hc _
  refine (F.agree_word hc.1).imp fun w w' next next' ⟨hw, hnext, halike⟩ ↦ ?_
  obtain ⟨cs, ⟨-, -, hcs⟩, htakes, -⟩ := id halike
  exact ⟨⟨hw, hnext, inside_of_word hc.2 htakes hcs⟩, halike.nearer fun _ h ↦ h.2.1⟩

theorem firm_keyword (text : String) : F.Firm (k + 1) d d Eq (keyword text) (keyword text) :=
  firm_word.bind_eq fun _ ↦ .ite (.pure rfl) (.failExpecting _)

theorem firm_reserved : F.Firm (k + 1) d d Eq reserved reserved :=
  firm_word.bind_eq fun _ ↦ .ite (.pure rfl) (.failExpecting _)

theorem firm_castType : F.Firm (k + 1) d d Eq castType castType :=
  firm_word.bind_eq fun _ ↦ .ite (.pure rfl) (.failExpecting _)

theorem spans_near {next next' : Cursor} (h : F.Near c c') (h' : F.Near next next') :
    F.spans ⟨c.offset, next.offset⟩ ⟨c'.offset, next'.offset⟩ :=
  ⟨F.position_near h, F.position_near h'⟩

theorem firm_identifier :
    F.Firm k d d (Identifier.Like F.toLikeness []) identifier identifier := by
  intro c c' hc _
  refine .position_bind ?_
  refine (F.agree_word hc.1).bind fun w _ next next' _ ⟨hw, hnext, halike⟩ ↦ ?_
  subst hw
  obtain ⟨cs, ⟨rfl, -, hcs⟩, htakes, -⟩ := id halike
  have hlike : Identifier.Like F.toLikeness [] ⟨w, ⟨c.offset, next.offset⟩⟩
      ⟨w, ⟨c'.offset, next'.offset⟩⟩ :=
    ⟨F.text_refl w, spans_near hc.1 hnext, F.quotes_taken hc.1 htakes⟩
  have hinside := inside_of_word hc.2 htakes hcs
  exact .position_bind (.pure ⟨⟨hlike, hnext, hinside⟩, halike.nearer fun _ h ↦ h.2.1⟩)

theorem firm_variableName :
    F.Firm k d d (Identifier.Like F.toLikeness ['$']) variableName variableName := by
  intro c c' hc _
  refine .position_bind ?_
  refine (F.agree_literal (by decide) hc.1).bind fun _ _ mid mid' _ hmid ↦ ?_
  refine (F.agree_word hmid.1).bind fun w _ next next' _ ⟨hw, hnext, hword⟩ ↦ ?_
  subst hw
  obtain ⟨ds, ⟨rfl, -, hds⟩, hrest, -⟩ := id hword
  have halike : Alike (· = '$' :: w.toList) c c' next next' := by
    refine hmid.2.trans hword ?_
    rintro _ _ rfl ⟨rfl, -⟩
    rfl
  obtain ⟨cs, rfl, htakes, -⟩ := id halike
  have hlike : Identifier.Like F.toLikeness ['$'] ⟨w, ⟨c.offset, next.offset⟩⟩
      ⟨w, ⟨c'.offset, next'.offset⟩⟩ :=
    ⟨F.text_refl w, spans_near hc.1 hnext, F.quotes_taken hc.1 htakes⟩
  have hinside : F.Inside d next := by
    refine inside_of_plain hc.2 htakes ?_
    rintro x (_ | ⟨_, hx⟩)
    · decide
    · exact not_mark_of_isWordChar (hds x hx)
  refine .position_bind (.pure ⟨⟨hlike, hnext, hinside⟩, halike.nearer ?_⟩)
  exact fun _ h ↦ h ▸ List.cons_ne_nil _ _

theorem display_ofParts (full : Bool) (first : String) (others : List String) (span : Span) :
    (Name.ofParts full (first :: others) span).display.toList =
      pathText full (first :: others) := by
  have hjoined : (Name.ofParts full (first :: others) span).joined.toList =
      first.toList ++ segmentsText others := by
    rw [Name.joined, Name.ofParts, String.toList_intercalate, List.map_cons]
    induction others generalizing first with
    | nil => simp [segmentsText]
    | cons w ws ih => simpa [segmentsText, List.intercalate] using ih w
  cases full with
  | true =>
    have hfull : (Name.ofParts true (first :: others) span).isFullyQualified = true := rfl
    rw [Name.display, if_pos hfull, String.toList_append, hjoined]
    rfl
  | false =>
    have hfull : (Name.ofParts false (first :: others) span).isFullyQualified = false := by
      cases others <;> simp [Name.isFullyQualified, Name.ofParts, Name.kindOf]
    rw [Name.display, hfull, if_neg (by simp), hjoined]
    rfl

theorem single_ofParts (full : Bool) (first : String) (others : List String) (span : Span)
    (h : (Name.ofParts full (first :: others) span).isUnqualified = true) :
    (Name.ofParts full (first :: others) span).display =
      (Name.ofParts full (first :: others) span).last := by
  cases full with
  | true => cases h
  | false =>
    cases others with
    | nil =>
      simp [Name.display, Name.isFullyQualified, Name.ofParts, Name.kindOf, Name.joined, Name.last]
    | cons w ws => simp [Name.isUnqualified, Name.ofParts, Name.kindOf] at h

theorem firm_name : F.Firm k d d (Name.Like F.toLikeness) name name := by
  intro c c' hc _
  refine (F.agree_name hc.1).imp fun n n' next next' hread ↦ ?_
  obtain ⟨hnext, full, first, others, hn, hn', halike⟩ := hread
  obtain ⟨cs, ⟨rfl, -, hcs⟩, htakes, -⟩ := id halike
  subst hn hn'
  refine ⟨⟨⟨rfl, rfl, spans_near hc.1 hnext, ?_, single_ofParts _ _ _ _⟩, hnext, ?_⟩,
    halike.nearer fun _ h ↦ h.2.1⟩
  · rw [display_ofParts]
    exact F.quotes_taken hc.1 htakes
  · refine inside_of_plain hc.2 htakes fun x hx ↦ ?_
    obtain hslash | hword := Bool.or_eq_true _ _ ▸ hcs x hx
    · rw [of_decide_eq_true hslash]
      decide
    · exact not_mark_of_isWordChar hword

theorem firm_plainName : F.Firm (k + 1) d d (Name.Like F.toLikeness) plainName plainName :=
  .after (.notAhead (Firm.sees fun _ ↦ firm_reserved)) fun _ _ _ ↦ firm_name

theorem firm_stringLiteral : F.Firm k d d F.text stringLiteral stringLiteral := fun _ _ hc _ ↦
  F.string hc.1 hc.2

theorem firm_some1 {p p' : Parser Unit} (h : F.Firm (k + 1) d d Eq p p') :
    F.Firm (k + 1) d d Eq (some1 p) (some1 p') := h.bind_eq fun _ ↦ .skipMany h.less

theorem firm_exponent : F.Firm (k + 1) d d Eq exponent exponent := by
  refine .bind_eq (firm_oneOf (by decide)) fun _ ↦ ?_
  refine .bind (.optional (firm_oneOf (by decide)).steady) fun _ _ _ ↦ ?_
  exact (firm_some1 (firm_oneOf (by decide))).steady

theorem firm_number : F.Firm (k + 1) d d F.text number number := by
  have hdigits {k : Nat} : F.Firm (k + 1) d d Eq
      (do oneOf digit; skipMany (oneOf (.ofRanges [('0', '9'), ('_', '_')])))
      (do oneOf digit; skipMany (oneOf (.ofRanges [('0', '9'), ('_', '_')]))) :=
    .bind_eq (firm_oneOf (by decide)) fun _ ↦ .skipMany (firm_oneOf (by decide))
  have hexponent : F.Steady k d d Eq (do let _ ← optional exponent)
      (do let _ ← optional exponent) :=
    .bind (.optional firm_exponent.steady) fun _ _ _ ↦ .pure rfl
  have hpoint : F.Steady k d d Eq
      (do literal "."; oneOf digit; skipMany (oneOf (.ofRanges [('0', '9'), ('_', '_')])))
      (do literal "."; oneOf digit; skipMany (oneOf (.ofRanges [('0', '9'), ('_', '_')]))) :=
    .bind_eq (firm_literal (by decide)).steady fun _ ↦ hdigits.steady
  have hunmarked : Unmarked
      (do oneOf digit; skipMany (oneOf (.ofRanges [('0', '9'), ('_', '_')]))) :=
    .bind (.oneOf (by decide)) fun _ ↦ .skipMany (.oneOf (by decide))
  refine .orElse (.textOf ?_ ?_) (.orElse (.textOf ?_ ?_) (.orElse (.textOf ?_ ?_) (.textOf ?_ ?_)))
  · refine .bind_eq (firm_literal (by decide)) fun _ ↦ ?_
    refine .bind_eq (firm_oneOf (by decide)).steady fun _ ↦ ?_
    exact (firm_some1 (firm_oneOf (by decide))).steady
  · refine .bind (.literal (by decide)) fun _ ↦ ?_
    exact .bind (.oneOf (by decide)) fun _ ↦ .some1 (.oneOf (by decide))
  · refine .bind_eq (firm_literal (by decide)) fun _ ↦ ?_
    refine .bind_eq (firm_oneOf (by decide)).steady fun _ ↦ ?_
    exact (firm_some1 (firm_oneOf (by decide))).steady
  · refine .bind (.literal (by decide)) fun _ ↦ ?_
    exact .bind (.oneOf (by decide)) fun _ ↦ .some1 (.oneOf (by decide))
  · refine hdigits.bind_eq fun _ ↦ ?_
    refine .bind (.optional hpoint) fun _ _ _ ↦ ?_
    exact hexponent
  · refine hunmarked.bind fun _ ↦ ?_
    refine .bind (.optional (.bind (.literal (by decide)) fun _ ↦ hunmarked)) fun _ ↦ ?_
    exact .bind (.optional unmarked_exponent) fun _ ↦ .pure ()
  · refine .bind_eq (firm_literal (by decide)) fun _ ↦ ?_
    refine .bind_eq (firm_some1 (firm_oneOf (by decide))).steady fun _ ↦ ?_
    exact hexponent
  · refine .bind (.literal (by decide)) fun _ ↦ ?_
    refine .bind (.some1 (.oneOf (by decide))) fun _ ↦ ?_
    exact .bind (.optional unmarked_exponent) fun _ ↦ .pure ()

theorem steady_trivia : F.Steady k d d Eq trivia trivia := by
  intro c c' hc _
  exact (F.skip hc.1 hc.2).imp fun _ _ _ _ h ↦ ⟨rfl, h⟩

theorem Steady.gap (h : F.Steady k d e R p p') :
    F.Steady k d e R (do trivia; p) (do trivia; p') := .bind_eq steady_trivia fun _ ↦ h

theorem Firm.gap (h : F.Firm k d e R p p') : F.Firm k d e R (do trivia; p) (do trivia; p') :=
  .after_eq steady_trivia fun _ ↦ h

section

variable {e' : List Char} {s s' : Parser Unit}

theorem Steady.token (hs : F.Firm (k + 1) d e Eq s s') (h : F.Steady k e e' R p p') :
    F.Steady k d e' R (do s; trivia; p) (do s'; trivia; p') := hs.steady.bind_eq fun _ ↦ h.gap

theorem Firm.token (hs : F.Firm (k + 1) d e Eq s s') (h : F.Steady k e e' R p p') :
    F.Firm (k + 1) d e' R (do s; trivia; p) (do s'; trivia; p') := hs.bind_eq fun _ ↦ h.gap

end

theorem firm_comma : F.Firm (k + 1) d d Eq comma comma := by
  refine .gap ?_
  refine .bind_eq (firm_literal (by decide)) fun _ ↦ ?_
  exact steady_trivia

theorem steady_trailingComma : F.Steady k d d Eq trailingComma trailingComma := by
  have hcomma : F.Steady k d d Eq (do trivia; literal ",") (do trivia; literal ",") :=
    .gap (firm_literal (by decide)).steady
  exact .bind (.optional hcomma) fun _ _ _ ↦ .pure rfl

theorem steady_optionalAfter (h : F.Steady k d d R p p') :
    F.Steady k d d (Option.Rel R) (optionalAfter p) (optionalAfter p') :=
  .optional h.gap

theorem steady_optionalBefore (h : F.Steady k d d R p p') :
    F.Steady k d d (Option.Rel R) (optionalBefore p) (optionalBefore p') :=
  .optional (h.bind fun _ _ ha ↦ .gap (.pure ha))

theorem steady_manyAfter (h : F.Firm k d d R p p') :
    F.Steady k d d (List.Forall₂ R) (manyAfter p) (manyAfter p') :=
  .many h.gap

theorem firm_between {left right : String}
    (hleft : F.Firm (k + 1) d e Eq (literal left) (literal left)) (hp : F.Steady k e e R p p')
    (hright : F.Firm (k + 1) e d Eq (literal right) (literal right)) :
    F.Firm (k + 1) d d R (between left p right) (between left p' right) := by
  refine .token hleft ?_
  refine .bind hp fun _ _ ha ↦ .gap ?_
  refine .bind_eq hright.steady fun _ ↦ ?_
  exact .pure ha

theorem firm_enclosed (h : F.Steady k (')' :: d) (')' :: d) R p p') :
    F.Firm (k + 1) d d R (between "(" p ")") (between "(" p' ")") :=
  firm_between firm_parenthesis h firm_parenthesis_end

theorem firm_listed (h : F.Steady k (')' :: d) (')' :: d) R p p') :
    F.Firm (k + 1) d d (List.Forall₂ R)
      (do
        literal "("
        trivia
        let found ← sepBy p comma
        trailingComma
        trivia
        literal ")"
        return found)
      (do
        literal "("
        trivia
        let found ← sepBy p' comma
        trailingComma
        trivia
        literal ")"
        return found) := by
  refine .token firm_parenthesis ?_
  refine .bind (h.sepBy firm_comma) fun _ _ hfound ↦ ?_
  refine .bind_eq steady_trailingComma fun _ ↦ .gap ?_
  refine .bind_eq firm_parenthesis_end.steady fun _ ↦ ?_
  exact .pure hfound

end Frame

end PhpInsight.Grammar

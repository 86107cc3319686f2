import PhpInsight.Proofs.Reading.Repetition
import PhpInsight.Proofs.SideBySide.Statement

namespace PhpInsight

open Peg Peg.Parser Text Grammar

namespace Peg.Parser

variable {α β : Type} {p q : Parser α}

/-- What is read does not depend on the position of the text. -/
def Unplaced (p : Parser α) : Prop := ∀ c c', c.rest = c'.rest →
  Agree p p c c' fun a a' next next' ↦ a = a' ∧ next.rest = next'.rest

namespace Unplaced

theorem pure (a : α) : Unplaced (pure a : Parser α) := fun _ _ h ↦ .pure ⟨rfl, h⟩

theorem failExpecting (label : String) : Unplaced (failExpecting label : Parser α) :=
  fun _ _ _ ↦ .failExpecting label

theorem bind {f : α → Parser β} (hp : Unplaced p) (hf : ∀ a, Unplaced (f a)) :
    Unplaced (p >>= f) := fun c c' h ↦
  (hp c c' h).bind fun a _ next next' _ ⟨ha, hnext⟩ ↦ ha ▸ hf a next next' hnext

theorem orElse (hp : Unplaced p) (hq : Unplaced q) : Unplaced (p <|> q) := fun c c' h ↦
  (hp c c' h).orElse (hq c c' h)

theorem oneOf (k : CharClass) : Unplaced (oneOf k) := by
  rintro ⟨cs, n⟩ ⟨_, n'⟩ rfl
  unfold Agree Parser.oneOf
  cases cs with
  | nil => exact .inl ⟨_, _, rfl, rfl⟩
  | cons x xs =>
    cases hx : k.contains x with
    | false => exact .inl ⟨_, _, by simp only [hx]; rfl, by simp only [hx]; rfl⟩
    | true =>
      exact .inr ⟨(), (), ⟨xs, n + x.utf8Size⟩, ⟨xs, n' + x.utf8Size⟩, .none, .none,
        by simp only [hx, if_true], by simp only [hx, if_true], ⟨⟨[x], rfl, rfl⟩, [x], rfl, rfl⟩,
        rfl, rfl⟩

theorem literal (s : String) : Unplaced (literal s) := by
  intro c c' h
  unfold Agree Parser.literal
  by_cases hs : s.toList <+: c.rest
  · obtain ⟨rest, hrest⟩ := hs
    have hdrop {c : Cursor} (hc : s.toList ++ rest = c.rest) :
        Cursor.dropText? s.toList c = some ⟨rest, c.offset + byteLength s.toList⟩ := by
      obtain ⟨cs, n⟩ := c
      obtain rfl : s.toList ++ rest = cs := hc
      exact Yields.dropText?_append _ _ _
    have hrest' : s.toList ++ rest = c'.rest := hrest.trans h
    have hreaches : c.Reaches ⟨rest, c.offset + byteLength s.toList⟩ :=
      ⟨s.toList, hrest.symm, rfl⟩
    have hreaches' : c'.Reaches ⟨rest, c'.offset + byteLength s.toList⟩ :=
      ⟨s.toList, hrest'.symm, rfl⟩
    exact .inr ⟨(), (), _, _, .none, .none, by rw [hdrop hrest], by rw [hdrop hrest'],
      ⟨hreaches, hreaches'⟩, rfl, rfl⟩
  · have hnone {c : Cursor} (hc : ¬ s.toList <+: c.rest) : Cursor.dropText? s.toList c = none :=
      Option.eq_none_iff_forall_ne_some.mpr fun next hnext ↦
        hc ⟨next.rest, (dropText?_eq_some hnext).1.symm⟩
    exact .inl ⟨_, _, by rw [hnone hs], by rw [hnone (h ▸ hs)]⟩

theorem optional (hp : Unplaced p) : Unplaced (optional p) := fun c c' h ↦
  .optional ((hp c c' h).imp fun _ _ _ _ h ↦ ⟨congrArg some h.1, h.2⟩) ⟨rfl, h⟩

theorem notAhead {p : Parser Unit} (hp : Unplaced p) : Unplaced (notAhead p) := by
  intro c c' h
  refine (hp c c' h).notAhead fun _ ↦ ?_
  exact ⟨rfl, h⟩

theorem quiet (hp : Unplaced p) : Unplaced (quiet p) := fun c c' h ↦ (hp c c' h).quiet

theorem textOf {p : Parser Unit} (hp : Unplaced p) : Unplaced (textOf p) := by
  intro c c' h
  have hread : Agree p p c c' fun _ _ next next' ↦ next.rest = next'.rest :=
    (hp c c' h).imp fun _ _ _ _ h ↦ h.2
  refine hread.textOf.imp fun w w' next next' ⟨⟨hw, hw'⟩, hnext⟩ ↦ ⟨?_, hnext⟩
  refine String.toList_inj.mp ((List.append_left_inj next.rest).mp ?_)
  rw [← hw.1, h, hw'.1, hnext]

theorem skipMany {p : Parser Unit} (hp : Unplaced p) : Unplaced (skipMany p) := by
  intro c c' h
  have hfrom : ∀ (fuel : List Char) (f f' : Failures) (c c' : Cursor), c.rest = c'.rest →
      Agree (skipManyFrom p fuel f) (skipManyFrom p fuel f') c c' fun u u' next next' ↦
        u = u' ∧ next.rest = next'.rest := by
    intro fuel
    induction fuel with
    | nil =>
      intro f f' c c' h
      unfold Agree skipManyFrom
      obtain ⟨g, g', hp, hp'⟩ | ⟨a, a', next, next', g, g', hp, hp', hle, hnext⟩ := hp c c' h
      · exact .inr ⟨(), (), c, c', _, _, by rw [hp], by rw [hp'], ⟨.refl _, .refl _⟩, rfl, h⟩
      · exact .inr ⟨(), (), next, next', _, _, by rw [hp], by rw [hp'], hle, rfl, hnext.2⟩
    | cons x fuel ih =>
      intro f f' c c' h
      obtain ⟨g, g', hp, hp'⟩ | ⟨a, a', mid, mid', g, g', hp, hp', hle, hmid⟩ := hp c c' h
      · unfold Agree skipManyFrom
        exact .inr ⟨(), (), c, c', _, _, by rw [hp], by rw [hp'], ⟨.refl _, .refl _⟩, rfl, h⟩
      · obtain ⟨k, k', hr, hr'⟩ | ⟨u, u', next, next', k, k', hr, hr', hle', hnext⟩ :=
          ih (f.merge g) (f'.merge g') mid mid' hmid.2
        · refine .inl ⟨k, k', ?_, ?_⟩ <;> unfold skipManyFrom
          · simp only [hp, hr]
          · simp only [hp', hr']
        · refine .inr ⟨u, u', next, next', k, k', ?_, ?_,
            ⟨hle.1.trans hle'.1, hle.2.trans hle'.2⟩, hnext⟩ <;> unfold skipManyFrom
          · simp only [hp, hr]
          · simp only [hp', hr']
  obtain ⟨cs, n⟩ := c
  obtain ⟨_, n'⟩ := c'
  obtain rfl : cs = _ := h
  exact hfrom cs .none .none _ _ rfl

end Unplaced

end Peg.Parser

namespace Grammar

theorem unplaced_word : Unplaced word :=
  .textOf (.bind (.oneOf _) fun _ ↦ .skipMany (.orElse (.oneOf _) (.oneOf _)))

theorem unplaced_quoted (quote : Char) : Unplaced (quoted quote) := by
  have hescaped : Unplaced (do literal "\\"; oneOf .any) := .bind (.literal _) fun _ ↦ .oneOf _
  refine .bind (.literal _) fun _ ↦ ?_
  refine .bind (.textOf (.skipMany (.orElse hescaped (.oneOf _)))) fun _ ↦ ?_
  refine .bind (.literal _) fun _ ↦ ?_
  exact .pure _

theorem unplaced_lineEnd : Unplaced lineEnd := .orElse (.literal _) (.literal _)

theorem unplaced_heredocEnd (label : String) : Unplaced (heredocEnd label) := by
  refine .bind unplaced_lineEnd fun _ ↦ ?_
  refine .bind (.skipMany (.oneOf _)) fun _ ↦ ?_
  refine .bind unplaced_word fun w ↦ ?_
  split
  · exact .pure ()
  · exact .failExpecting _

theorem unplaced_until {p : Parser Unit} (hp : Unplaced p) :
    Unplaced (skipMany do notAhead p; oneOf .any) :=
  .skipMany (.bind (.notAhead hp) fun _ ↦ .oneOf _)

theorem unplaced_heredoc : Unplaced heredoc := by
  refine .bind (.literal _) fun _ ↦ ?_
  refine .bind (.skipMany (.oneOf _)) fun _ ↦ ?_
  refine .bind (.optional (.oneOf _)) fun _ ↦ ?_
  refine .bind unplaced_word fun label ↦ ?_
  refine .bind (.optional (.oneOf _)) fun _ ↦ ?_
  refine .bind (.textOf (unplaced_until (unplaced_heredocEnd label))) fun _ ↦ ?_
  refine .bind (unplaced_heredocEnd label) fun _ ↦ ?_
  exact .pure _

theorem unplaced_stringLiteral : Unplaced stringLiteral :=
  .orElse (unplaced_quoted _) (.orElse (unplaced_quoted _) unplaced_heredoc)

theorem unplaced_restOfLine : Unplaced restOfLine :=
  unplaced_until (.orElse unplaced_lineEnd (.literal _))

theorem unplaced_attributeBody (fuel : List Char) : Unplaced (attributeBody fuel) := by
  induction fuel with
  | nil => exact .pure ()
  | cons x fuel ih =>
    refine .skipMany (.orElse ?_ (.orElse ?_ (.oneOf _)))
    · refine .bind (.literal _) fun _ ↦ ?_
      refine .bind ih fun _ ↦ ?_
      exact .literal _
    · exact .bind unplaced_stringLiteral fun _ ↦ .pure ()

theorem unplaced_comment : Unplaced comment := by
  have hbody : Unplaced fun c ↦ attributeBody c.rest c := by
    rintro ⟨cs, n⟩ ⟨_, n'⟩ rfl
    exact unplaced_attributeBody cs _ _ rfl
  refine .orElse ?_ (.orElse ?_ (.orElse ?_ ?_))
  · refine .bind (.literal _) fun _ ↦ ?_
    refine .bind (unplaced_until (.literal _)) fun _ ↦ ?_
    exact .literal _
  · exact .bind (.literal _) fun _ ↦ unplaced_restOfLine
  · refine .bind (.literal _) fun _ ↦ ?_
    refine .bind hbody fun _ ↦ ?_
    exact .literal _
  · exact .bind (.literal _) fun _ ↦ unplaced_restOfLine

theorem unplaced_trivia : Unplaced trivia := by
  have hwhite : Unplaced whitespace := .bind (.oneOf _) fun _ ↦ .skipMany (.oneOf _)
  exact .quiet (.skipMany (.orElse hwhite unplaced_comment))

/-- The same text stands at two places, and its positions and pieces are as asked for. -/
structure Moved (L : Likeness) (c c' : Cursor) : Prop where
  rest : c.rest = c'.rest
  position : ∀ before behind, c.rest = before ++ behind →
    L.position (c.offset + byteLength before) (c'.offset + byteLength before)
  quotes : ∀ before text behind, c.rest = before ++ (text ++ behind) →
    L.quotes text ⟨c.offset + byteLength before, c.offset + byteLength before + byteLength text⟩

variable {L : Likeness} {c c' next next' : Cursor}

theorem Moved.behind (h : Moved L c c') (hnext : c.Reaches next) (hnext' : c'.Reaches next')
    (hrest : next.rest = next'.rest) : Moved L next next' := by
  obtain ⟨cs, hcs⟩ := hnext
  obtain ⟨ds, hds⟩ := hnext'
  obtain rfl : cs = ds := by
    refine (List.append_left_inj next.rest).mp ?_
    rw [← hcs.1, h.rest, hds.1, hrest]
  refine ⟨hrest, fun before behind hsplit ↦ ?_, fun before text behind hsplit ↦ ?_⟩
  · have hposition := h.position (cs ++ before) behind (by rw [hcs.1, hsplit, List.append_assoc])
    rwa [byteLength_append, ← Nat.add_assoc, ← Nat.add_assoc, ← hcs.2, ← hds.2] at hposition
  · have hquotes := h.quotes (cs ++ before) text behind
      (by rw [hcs.1, hsplit, List.append_assoc])
    rwa [byteLength_append, ← Nat.add_assoc, ← hcs.2] at hquotes

theorem Moved.text_taken {w w' : String} (h : Moved L c c') (h' : Moved L next next')
    (hw : c.Takes w.toList next) (hw' : c'.Takes w'.toList next') : L.text w w' := by
  obtain rfl : w = w' := by
    refine String.toList_inj.mp ((List.append_left_inj next.rest).mp ?_)
    rw [← hw.1, h.rest, hw'.1, h'.rest]
  exact L.text_refl w

def Anywhere (_ : List Char) (_ : Cursor) : Prop := True

def moved (L : Likeness) : Frame where
  Near := Moved L
  head := by
    rintro ⟨cs, n⟩ ⟨cs', n'⟩ h
    obtain rfl : cs = cs' := h.rest
    cases cs with
    | nil => exact .inr ⟨.inl startsBlank_nil, .inl startsBlank_nil⟩
    | cons x xs => exact .inl ⟨x, xs, xs, rfl, rfl⟩
  next {x xs xs' n n'} h _ :=
    h.behind ⟨[x], rfl, rfl⟩ ⟨[x], rfl, rfl⟩ (List.cons_inj_right x |>.mp h.rest)
  toLikeness := L
  position_near {c c'} h := h.position [] c.rest rfl
  text_taken h h' hw hw' _ := h.text_taken h' hw hw'
  written_taken h h' hw hw' := L.written_of_text (h.text_taken h' hw hw')
  quotes_taken {c c' next cs} h hcs := by
    have hquotes := h.quotes [] cs next.rest hcs.1
    rwa [byteLength, Nat.add_zero, ← hcs.2] at hquotes
  Inside := Anywhere
  step _ _ := trivial
  opener _ _ := trivial
  closer _ _ := trivial
  slash _ _ := trivial
  division {due xs xs' n n'} h _ x _ := by
    obtain rfl : xs = xs' := (List.cons.inj h.rest).2
    rfl
  angle _ _ := trivial
  shift _ := .inl trivial
  string {due c c'} h _ := by
    refine (unplaced_stringLiteral c c' h.rest).imp_matched
      fun v v' next next' f f' hm hm' ⟨hv, hnext⟩ ↦ ?_
    obtain ⟨cs, hcs, hoffset, hne⟩ := consumes_stringLiteral _ _ _ _ hm
    obtain ⟨cs', hcs', hoffset', hne'⟩ := consumes_stringLiteral _ _ _ _ hm'
    have htakes : c.Takes cs next := ⟨hcs, hoffset⟩
    have htakes' : c'.Takes cs' next' := ⟨hcs', hoffset'⟩
    exact ⟨⟨hv ▸ L.text_refl v, h.behind htakes.reaches htakes'.reaches hnext, trivial⟩,
      htakes.length_lt hne, htakes'.length_lt hne'⟩
  skip {due c c'} h _ := (unplaced_trivia c c' h.rest).imp_reaches
    fun _ _ _ _ hnext hnext' hrest ↦ ⟨h.behind hnext hnext' hrest.2, trivial⟩

theorem steady_of_unplaced {α : Type} {k : Nat} {d : List Char} {p : Parser α} (h : Unplaced p) :
    (moved L).Steady k d d Eq p p := by
  intro c c' hc _
  refine (h c c' hc.1.rest).imp_reaches fun _ _ _ _ hnext hnext' hrest ↦ ?_
  exact ⟨hrest.1, hc.1.behind hnext hnext' hrest.2, trivial⟩

theorem sees_of_unplaced {d : List Char} {p : Parser Unit} (h : Unplaced p) :
    (moved L).Sees d p p := by
  intro c c' hc
  exact (h c c' hc.1.rest).imp fun _ _ _ _ _ ↦ trivial

/-- The rules of the grammar read the same text alike, to any two depths that are enough. -/
theorem tied_moved (L : Likeness) {k m n : Nat} (hm : k ≤ m) (hn : k ≤ n) :
    (moved L).Tied k (.ofDepth m) (.ofDepth n) := by
  have hblock : Unplaced (do
      literal "\x7b"
      skipMany do
        notAhead (literal "\x7d")
        oneOf .any
      literal "\x7d") := by
    refine .bind (.literal _) fun _ ↦ ?_
    refine .bind (unplaced_until (.literal _)) fun _ ↦ ?_
    exact .literal _
  exact Frame.tied_ofDepth (fun _ _ ↦ Frame.firm_traitUse (steady_of_unplaced hblock)) hm hn

theorem steady_file (L : Likeness) {k m n : Nat} {d : List Char} (hm : k ≤ m) (hn : k ≤ n) :
    (moved L).Steady k d d (List.Forall₂ (Stmt.Like L))
      (file (.ofDepth m)) (file (.ofDepth n)) :=
  Frame.steady_file (tied_moved L hm hn) (steady_of_unplaced (.skipMany (.oneOf _)))
    (sees_of_unplaced (.oneOf _))

/-- What agrees with itself and is firm takes characters. -/
theorem takesBelow_of_firm {α : Type} {k : Nat} {d e : List Char} {R : α → α → Prop} {p : Parser α}
    (h : (moved .shape).Firm k d e R p p) : TakesBelow k p := by
  intro c a next f hk hm
  have hself : Moved .shape c c := ⟨rfl, fun _ _ _ ↦ trivial, fun _ _ _ _ ↦ trivial⟩
  obtain ⟨_, hnearer⟩ := (h c c ⟨hself, trivial⟩ hk).both_matched hm hm
  exact hnearer.1

theorem statement_takes (n : Nat) :
    TakesBelow n (trivia >>= fun _ ↦ (Rules.ofDepth n).statement) := by
  have htied := tied_moved .shape (Nat.le_refl n) (Nat.le_refl n)
  exact takesBelow_of_firm (d := []) (.after_eq Frame.steady_trivia fun _ ↦ htied.statement _)

end Grammar

end PhpInsight

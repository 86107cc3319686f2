import PhpInsight.Proofs.Comments.Places
import PhpInsight.Proofs.Span.Quoting

namespace PhpInsight.Grammar.Commented

open Peg Peg.Parser Text

variable {t : Commented}

/-- The same place of the two texts. -/
def Near (t : Commented) (c c' : Cursor) : Prop :=
  (∃ v, c.rest = v ++ t.tail ∧ c'.rest = v ++ t.blankTail ∧ c.offset = c'.offset) ∨
    c = c' ∧ c.rest <:+ t.after

def Inside (t : Commented) (c : Cursor) : Prop :=
  (∃ left, c.rest = left ++ t.tail ∧ t.Place left) ∨ c.rest <:+ t.after

variable {c c' next next' : Cursor} {x : Char} {xs xs' : List Char} {n n' : Nat}

theorem Near.cases_inside (h : t.Near c c') (hc : t.Inside c) :
    (∃ left, c.rest = left ++ t.tail ∧ c'.rest = left ++ t.blankTail ∧ c.offset = c'.offset ∧
      t.Place left) ∨ c = c' ∧ c.rest <:+ t.after := by
  obtain ⟨v, hrest, hrest', hoffset⟩ | hbehind := h
  · obtain ⟨left, hleft, hplace⟩ | hbehind := hc
    · obtain rfl : left = v := List.append_cancel_right (hleft.symm.trans hrest)
      exact .inl ⟨left, hrest, hrest', hoffset, hplace⟩
    · exact absurd (hrest ▸ hbehind) (not_suffix v)
  · exact .inr hbehind

theorem Near.head (h : t.Near c c') : SameHead c.rest c'.rest := by
  obtain ⟨v, hrest, hrest', -⟩ | ⟨rfl, -⟩ := h
  · rw [hrest, hrest']
    cases v with
    | nil => exact .inr ⟨t.startsGap_tail, t.startsGap_blankTail⟩
    | cons x v => exact .inl ⟨x, v ++ t.tail, v ++ t.blankTail, rfl, rfl⟩
  · cases c.rest with
    | nil => exact .inr ⟨.inl startsBlank_nil, .inl startsBlank_nil⟩
    | cons x xs => exact .inl ⟨x, xs, xs, rfl, rfl⟩

theorem Near.behind (h : t.Near ⟨x :: xs, n⟩ ⟨x :: xs', n'⟩) (hx : x ∉ blanks) :
    t.Near ⟨xs, n + x.utf8Size⟩ ⟨xs', n' + x.utf8Size⟩ := by
  obtain ⟨v, hrest, hrest', hoffset⟩ | ⟨hsame, hbehind⟩ := h
  · obtain rfl : n = n' := hoffset
    cases v with
    | nil =>
      have hhead : Heads [' '] (x :: xs') :=
        (show x :: xs' = t.blankTail from hrest') ▸ t.heads_blankTail
      obtain rfl := List.mem_singleton.mp (hhead x rfl)
      exact absurd List.mem_cons_self hx
    | cons y v => exact .inl ⟨v, (List.cons.inj hrest).2, (List.cons.inj hrest').2, rfl⟩
  · cases hsame
    exact .inr ⟨rfl, (List.suffix_cons x xs).trans hbehind⟩

theorem Near.taken {w w' : List Char} (h : t.Near c c') (h' : t.Near next next')
    (hw : c.Takes w next) (hw' : c'.Takes w' next') :
    w = w' ∨ ∃ front back, w = front ++ t.comment ++ back ∧ w' = front ++ t.spaces ++ back := by
  obtain ⟨v, hrest, hrest', -⟩ | ⟨rfl, hbehind⟩ := h <;>
    obtain ⟨u, hnext, hnext', -⟩ | ⟨rfl, hnext⟩ := h'
  · have hsplit : v = w ++ u := by
      refine List.append_cancel_right (?_ : v ++ t.tail = w ++ u ++ t.tail)
      rw [← hrest, hw.1, hnext, List.append_assoc]
    have hsplit' : v = w' ++ u := by
      refine List.append_cancel_right (?_ : v ++ t.blankTail = w' ++ u ++ t.blankTail)
      rw [← hrest', hw'.1, hnext', List.append_assoc]
    exact .inl (List.append_cancel_right (hsplit.symm.trans hsplit'))
  · obtain ⟨back, hback⟩ := hnext
    refine .inr ⟨v, back, ?_, ?_⟩
    · refine List.append_cancel_right (?_ : w ++ next.rest = v ++ t.comment ++ back ++ next.rest)
      rw [← hw.1, hrest, tail, ← hback, List.append_assoc, List.append_assoc]
    · refine List.append_cancel_right (?_ : w' ++ next.rest = v ++ t.spaces ++ back ++ next.rest)
      rw [← hw'.1, hrest', blankTail, ← hback, List.append_assoc, List.append_assoc]
  · rw [hw.1, hnext, ← List.append_assoc] at hbehind
    exact absurd hbehind (not_suffix _)
  · exact .inl (hw.unique hw')

theorem Near.text_taken {w w' : String} (h : t.Near c c') (h' : t.Near next next')
    (hw : c.Takes w.toList next) (hw' : c'.Takes w'.toList next')
    (hmarks : ∀ x ∈ w.toList, x ∉ marks) : w = w' := by
  obtain hsame | ⟨front, back, hfront, -⟩ := h.taken h' hw hw'
  · exact String.toList_inj.mp hsame
  · obtain ⟨y, ys, hy⟩ := List.exists_cons_of_ne_nil t.isComment.ne_nil
    have hmem : y ∈ w.toList := by simp [hfront, hy]
    have hhead : y ∈ ['/', '#'] := t.isComment.heads [] y (by rw [hy]; rfl)
    exact absurd (List.subset_def.mp (by decide) hhead) (hmarks y hmem)

theorem Near.written_taken {w w' : String} (h : t.Near c c') (h' : t.Near next next')
    (hw : c.Takes w.toList next) (hw' : c'.Takes w'.toList next') : t.blanking.written w w' := by
  obtain hsame | hblanked := h.taken h' hw hw'
  · exact .inl (String.toList_inj.mp hsame)
  · exact .inr hblanked

theorem Inside.char (h : t.Inside ⟨x :: xs, n⟩) (hx : Ordinary (x :: xs)) :
    t.Inside ⟨xs, n + x.utf8Size⟩ := by
  obtain ⟨left, hrest, hplace⟩ | hbehind := h
  · cases left with
    | nil =>
      obtain ⟨f, hf⟩ := hx.comment 0
      obtain ⟨_, g, hm, -⟩ := t.reads 0
      rw [show x :: xs = t.comment ++ t.after from hrest, hm] at hf
      cases hf
    | cons y left =>
      obtain ⟨rfl, rfl⟩ := List.cons.inj hrest
      exact .inl ⟨left, rfl, hplace.char hx⟩
  · exact .inr ((List.suffix_cons x xs).trans hbehind)

theorem Near.division (h : t.Near ⟨'/' :: xs, n⟩ ⟨'/' :: xs', n'⟩)
    (hc : t.Inside ⟨'/' :: xs, n⟩) :
    ∀ y ∈ ['/', '*'], xs.head? = some y ↔ xs'.head? = some y := by
  obtain ⟨left, hrest, hrest', -, hplace⟩ | ⟨hsame, -⟩ := h.cases_inside hc
  · cases left with
    | nil =>
      have hhead : Heads [' '] ('/' :: xs') :=
        (show '/' :: xs' = t.blankTail from hrest') ▸ t.heads_blankTail
      exact absurd (hhead '/' rfl) (by decide)
    | cons y left =>
      obtain ⟨rfl, rfl⟩ := List.cons.inj hrest
      obtain ⟨-, rfl⟩ := List.cons.inj hrest'
      cases left with
      | cons y left => exact fun _ _ ↦ Iff.rfl
      | nil =>
        refine fun y hy ↦ ⟨fun htail ↦ ?_, fun htail ↦ ?_⟩
        · obtain ⟨more, hmore⟩ := List.head?_eq_some_iff.mp htail
          have hslash : y = '/' := by
            have hmem := t.heads_tail y htail
            simp only [List.mem_cons, List.not_mem_nil, or_false] at hy hmem
            rcases hy with rfl | rfl <;> simp_all
          have hreject := hplace.slash.comment
          rw [show t.tail = y :: more from hmore, hslash] at hreject
          exact absurd hreject not_rejects_slashes
        · obtain rfl := List.mem_singleton.mp (t.heads_blankTail y htail)
          exact absurd hy (by decide)
  · cases hsame
    exact fun _ _ ↦ Iff.rfl

theorem Near.agree_stringLiteral (h : t.Near c c') (hc : t.Inside c) :
    Agree stringLiteral stringLiteral c c' fun v v' next next' ↦
      (v = v' ∧ t.Near next next' ∧ t.Inside next) ∧ Nearer c c' next next' := by
  obtain ⟨left, hrest, hrest', hoffset, hplace⟩ | ⟨rfl, hbehind⟩ := h.cases_inside hc
  · obtain ⟨rest, n⟩ := c
    obtain ⟨rest', n'⟩ := c'
    obtain rfl : rest = left ++ t.tail := hrest
    obtain rfl : rest' = left ++ t.blankTail := hrest'
    obtain rfl : n = n' := hoffset
    obtain rfl | ⟨cs, more, v, rfl, hstring, hmore⟩ | ⟨cs, more, rfl, hcomment, -⟩ |
      ⟨x, more, rfl, hordinary, -⟩ := hplace.cases
    · exact agree_of_rejects (t.heads_tail.rejects_stringLiteral (by decide))
        (t.heads_blankTail.rejects_stringLiteral (by decide))
    · have hne := consumes_stringLiteral.of_yields (hstring _ mem_tails.1)
      rw [List.append_assoc, List.append_assoc]
      refine agree_of_yields (hstring _ mem_tails.1) (hstring _ mem_tails.2) fun w w' hw hw' ↦ ?_
      refine ⟨⟨hw.trans hw'.symm, .inl ⟨more, rfl, rfl, rfl⟩, .inl ⟨more, rfl, hmore⟩⟩, ?_, ?_⟩
      · exact Cursor.Takes.length_lt ⟨rfl, rfl⟩ hne
      · exact Cursor.Takes.length_lt ⟨rfl, rfl⟩ hne
    · refine agree_of_rejects ?_ ?_
      · have hreject := rejects_stringLiteral_of_comment (hcomment _ mem_tails.1)
        rwa [List.append_assoc]
      · have hreject := rejects_stringLiteral_of_comment (hcomment _ mem_tails.2)
        rwa [List.append_assoc]
    · exact agree_of_rejects (hordinary _ mem_tails.1).string (hordinary _ mem_tails.2).string
  · refine agree_self consumes_stringLiteral fun _ cs next _ _ htakes hne ↦ ?_
    have hnext : next.rest <:+ t.after := (List.IsSuffix.trans ⟨cs, htakes.1.symm⟩ hbehind)
    exact ⟨⟨rfl, .inr ⟨rfl, hnext⟩, .inr hnext⟩, htakes.length_lt hne, htakes.length_lt hne⟩

/-- Trivia is skipped in both texts up to one place: where it is the comment in the first one, the
spaces are skipped in the second one. -/
theorem Near.clears (h : t.Near c c') (hc : t.Inside c) (hclears : Clears c next) :
    ∃ next', Clears c' next' ∧ t.Near next next' ∧ t.Inside next := by
  induction hclears generalizing c' with
  | stop c => exact ⟨c', .stop c', h, hc⟩
  | @blank x xs n next hx _ ih =>
    have hblanks : ∀ x ∈ blanks, x ∉ ['\'', '"', '<', '/', '#'] :=
      List.all_iff_forall_prop.mp (by decide)
    have hbehind : t.Inside ⟨xs, n + x.utf8Size⟩ := hc.char (.char (hblanks x hx))
    obtain ⟨v, hrest, hrest', hoffset⟩ | ⟨rfl, hsuffix⟩ := h
    · obtain ⟨rest', n'⟩ := c'
      obtain rfl : n = n' := hoffset
      obtain rfl : rest' = v ++ t.blankTail := hrest'
      cases v with
      | nil =>
        have hhead : Heads ['/', '#'] (x :: xs) :=
          (show x :: xs = t.tail from hrest) ▸ t.heads_tail
        exact absurd (List.subset_def.mp (by decide) (hhead x rfl)) (hblanks x hx)
      | cons y v =>
        obtain ⟨rfl, rfl⟩ := List.cons.inj hrest
        have hnear : t.Near ⟨v ++ t.tail, n + x.utf8Size⟩ ⟨v ++ t.blankTail, n + x.utf8Size⟩ :=
          .inl ⟨v, rfl, rfl, rfl⟩
        obtain ⟨next', hclears', hnext⟩ := ih hnear hbehind
        exact ⟨next', .blank hx hclears', hnext⟩
    · obtain ⟨next', hclears', hnext⟩ :=
        ih (.inr ⟨rfl, (List.suffix_cons x xs).trans hsuffix⟩) hbehind
      exact ⟨next', .blank hx hclears', hnext⟩
  | @comment c mid next f hm hrest ih =>
    obtain ⟨left, hleft, hleft', hoffset, hplace⟩ | ⟨rfl, hsuffix⟩ := h.cases_inside hc
    · obtain ⟨rest, n⟩ := c
      obtain ⟨rest', n'⟩ := c'
      obtain rfl : n = n' := hoffset
      obtain rfl : rest = left ++ t.tail := hleft
      obtain rfl : rest' = left ++ t.blankTail := hleft'
      obtain rfl | ⟨cs, more, v, rfl, hstring, -⟩ | ⟨cs, more, rfl, hcomment, hmore⟩ |
        ⟨x, more, rfl, hordinary, -⟩ := hplace.cases
      · obtain ⟨_, g, hread, -⟩ := t.reads n
        rw [show t.comment ++ t.after = [] ++ t.tail from rfl, hm] at hread
        cases hread
        obtain ⟨next', hclears', hnext⟩ := ih (.inr ⟨rfl, List.suffix_rfl⟩) (.inr List.suffix_rfl)
        have hspaces : ∀ x ∈ t.spaces, x ∈ blanks := by
          intro x hx
          rw [List.eq_of_mem_replicate hx]
          exact List.mem_cons_self
        have hskipped : Clears ⟨t.spaces ++ t.after, n⟩ next' :=
          .behind_blanks hspaces (by rwa [byteLength_spaces])
        exact ⟨next', hskipped, hnext⟩
      · have hreject := rejects_comment_of_string (hstring _ mem_tails.1)
        rw [← List.append_assoc] at hreject
        exact absurd hm (Rejects.not_matched hreject)
      · obtain ⟨_, g, hread, -⟩ := hcomment _ mem_tails.1 n
        obtain ⟨_, g', hread', -⟩ := hcomment _ mem_tails.2 n
        rw [← List.append_assoc] at hread hread'
        rw [hm] at hread
        cases hread
        have hnear : t.Near ⟨more ++ t.tail, n + byteLength cs⟩
            ⟨more ++ t.blankTail, n + byteLength cs⟩ := .inl ⟨more, rfl, rfl, rfl⟩
        obtain ⟨next', hclears', hnext⟩ := ih hnear (.inl ⟨more, rfl, hmore⟩)
        exact ⟨next', .comment hread' hclears', hnext⟩
      · exact absurd hm (Rejects.not_matched (hordinary _ mem_tails.1).comment)
    · obtain ⟨text, htext, -, -⟩ := consumes_comment _ _ _ _ hm
      have hmid : mid.rest <:+ t.after := List.IsSuffix.trans ⟨text, htext.symm⟩ hsuffix
      obtain ⟨next', hclears', hnext⟩ := ih (.inr ⟨rfl, hmid⟩) (.inr hmid)
      exact ⟨next', .comment hm hclears', hnext⟩

theorem Near.stops (h : t.Near c c') (hc : t.Inside c) (hstop : Stops c) : Stops c' := by
  obtain ⟨left, hleft, hleft', -, hplace⟩ | ⟨rfl, -⟩ := h.cases_inside hc
  · obtain ⟨rest, n⟩ := c
    obtain ⟨rest', n'⟩ := c'
    obtain rfl : rest = left ++ t.tail := hleft
    obtain rfl : rest' = left ++ t.blankTail := hleft'
    obtain ⟨g, hg⟩ := hstop.failed
    have hread {cs rest : List Char} (h : Accepts Grammar.comment cs rest)
        (hsame : left ++ t.tail = cs ++ rest) : False := by
      obtain ⟨_, e, hm, -⟩ := h n
      rw [hsame, hm] at hg
      cases hg
    have hcomment : left ≠ [] ∧ Rejects Grammar.comment (left ++ t.blankTail) := by
      obtain rfl | ⟨cs, more, v, rfl, hstring, -⟩ | ⟨cs, more, rfl, hcomment, -⟩ |
        ⟨x, more, rfl, hordinary, -⟩ := hplace.cases
      · exact (hread t.reads rfl).elim
      · have hne := consumes_stringLiteral.of_yields (hstring _ mem_tails.1)
        have hreject := rejects_comment_of_string (hstring _ mem_tails.2)
        rw [← List.append_assoc] at hreject
        exact ⟨fun hnil ↦ hne (List.append_eq_nil_iff.mp hnil).1, hreject⟩
      · exact (hread (hcomment _ mem_tails.1) (List.append_assoc _ _ _)).elim
      · exact ⟨List.cons_ne_nil _ _, (hordinary _ mem_tails.2).comment⟩
    obtain ⟨x, left, rfl⟩ := List.exists_cons_of_ne_nil hcomment.1
    have hsolid : Solid (x :: left ++ t.blankTail) := ⟨hstop.head, hcomment.2⟩
    exact hsolid.rejects n'
  · exact hstop

theorem Near.agree_trivia (h : t.Near c c') (hc : t.Inside c) :
    Agree trivia trivia c c' fun _ _ next next' ↦ t.Near next next' ∧ t.Inside next := by
  obtain ⟨next, f, hm⟩ : ∃ next f, trivia c = .matched () next f := by
    obtain ⟨next, g, hg⟩ := skipMany_matches (whitespace <|> Grammar.comment) c
    refine ⟨next, .none, ?_⟩
    unfold trivia quiet
    rw [hg]
  obtain ⟨comments, hskips⟩ := skips_of_trivia hm
  obtain ⟨hclears, hstop⟩ := hskips.clears
  obtain ⟨next', hclears', hnext, hinside⟩ := h.clears hc hclears
  obtain ⟨f', hm'⟩ := trivia_of_clears hclears' (hnext.stops hinside hstop)
  have hreaches {c next : Cursor} {f : Failures} (hm : trivia c = .matched () next f) :
      c.Reaches next := by
    obtain ⟨cs, hrest, hoffset, -⟩ := consumes_trivia _ _ _ _ hm
    exact ⟨cs, hrest, hoffset⟩
  exact .inr ⟨(), (), next, next', f, f', hm, hm', ⟨hreaches hm, hreaches hm'⟩, hnext, hinside⟩

theorem agree_ruleBlock_across {v : List Char} (hv : '\x7d' ∉ v) (hcomment : '\x7d' ∉ t.comment) :
    Agree ruleBlock ruleBlock ⟨'\x7b' :: v ++ t.tail, n⟩ ⟨'\x7b' :: v ++ t.blankTail, n⟩
      fun _ _ next next' ↦ t.Near next next' ∧ t.Inside next := by
  have hspaces : '\x7d' ∉ t.spaces := fun hmem ↦ absurd (List.eq_of_mem_replicate hmem) (by decide)
  by_cases hafter : '\x7d' ∈ t.after
  · obtain ⟨u, w, hsplit, hu⟩ := List.eq_append_cons_of_mem hafter
    have htext (piece : List Char) : '\x7b' :: v ++ (piece ++ t.after) =
        '\x7b' :: (v ++ piece ++ u ++ ['\x7d']) ++ w := by simp [hsplit]
    have hinner {piece : List Char} (hpiece : '\x7d' ∉ piece) : '\x7d' ∉ v ++ piece ++ u :=
      List.not_mem_append (List.not_mem_append hv hpiece) hu
    unfold tail blankTail
    rw [htext, htext]
    refine agree_of_yields (accepts_ruleBlock (hinner hcomment))
      (accepts_ruleBlock (hinner hspaces)) fun _ _ _ _ ↦ ?_
    have hsuffix : w <:+ t.after := ⟨u ++ ['\x7d'], by simp [hsplit]⟩
    refine ⟨.inr ⟨?_, hsuffix⟩, .inr hsuffix⟩
    simp only [byteLength, byteLength_append, byteLength_spaces]
  · exact agree_of_rejects
      (rejects_ruleBlock (List.not_mem_append hv (List.not_mem_append hcomment hafter)))
      (rejects_ruleBlock (List.not_mem_append hv (List.not_mem_append hspaces hafter)))

theorem Near.agree_ruleBlock (h : t.Near c c')
    (hends : ∀ next f, ruleBlock c = .matched () next f →
      (∃ more, next.rest = more ++ t.tail ∧ t.Place more) ∨
        next.rest.length < t.after.length) :
    Agree ruleBlock ruleBlock c c' fun _ _ next next' ↦ t.Near next next' ∧ t.Inside next := by
  obtain ⟨v, hrest, hrest', hoffset⟩ | ⟨rfl, hbehind⟩ := h
  · obtain ⟨rest, n⟩ := c
    obtain ⟨rest', n'⟩ := c'
    obtain rfl : n = n' := hoffset
    obtain rfl : rest = v ++ t.tail := hrest
    obtain rfl : rest' = v ++ t.blankTail := hrest'
    cases v with
    | nil =>
      exact agree_of_rejects (.bind (t.heads_tail.rejects_literal (by decide)))
        (.bind (t.heads_blankTail.rejects_literal (by decide)))
    | cons x v =>
      by_cases hx : x = '\x7b'
      · subst hx
        by_cases hv : '\x7d' ∈ v
        · obtain ⟨u, w, rfl, hu⟩ := List.eq_append_cons_of_mem hv
          have hsplit (tail : List Char) : '\x7b' :: (u ++ '\x7d' :: w) ++ tail =
              '\x7b' :: (u ++ ['\x7d']) ++ (w ++ tail) := by simp
          have haccepts (tail : List Char) :
              Accepts ruleBlock ('\x7b' :: (u ++ ['\x7d'])) (w ++ tail) := accepts_ruleBlock hu
          obtain ⟨_, f, hm, -⟩ := haccepts t.tail n
          rw [← hsplit] at hm
          rw [hsplit, hsplit]
          refine agree_of_yields (haccepts _) (haccepts _) fun _ _ _ _ ↦ ?_
          refine ⟨.inl ⟨w, rfl, rfl, rfl⟩, .inl ⟨w, rfl, ?_⟩⟩
          obtain ⟨more, hmore, hplace⟩ | hlt := hends _ f hm
          · obtain rfl := List.append_cancel_right hmore
            exact hplace
          · have hlt' := t.length_after_lt
            rw [List.length_append] at hlt
            omega
        · refine agree_ruleBlock_across hv fun hcomment ↦ ?_
          -- a brace in the comment would end the rules there
          obtain ⟨u, w, hsplit, hu⟩ := List.eq_append_cons_of_mem hcomment
          have hinner : '\x7d' ∉ v ++ u := List.not_mem_append hv hu
          have htext : '\x7b' :: v ++ t.tail =
              '\x7b' :: (v ++ u ++ ['\x7d']) ++ (w ++ t.after) := by simp [tail, hsplit]
          have haccepts : Accepts ruleBlock ('\x7b' :: (v ++ u ++ ['\x7d'])) (w ++ t.after) :=
            accepts_ruleBlock hinner
          obtain ⟨_, f, hm, -⟩ := haccepts n
          rw [← htext] at hm
          have hlength := congrArg List.length hsplit
          rw [List.length_append, List.length_cons] at hlength
          obtain ⟨more, hmore, -⟩ | hlt := hends _ f hm
          · have hlength' := congrArg List.length hmore
            simp only [tail, List.length_append] at hlength'
            omega
          · rw [List.length_append] at hlt
            omega
      · have hreject (more : List Char) : Rejects ruleBlock (x :: more) :=
          .bind (.literal_head rfl fun y hy ↦ Option.some_inj.mp hy ▸ hx)
        exact agree_of_rejects (hreject _) (hreject _)
  · refine agree_self consumes_ruleBlock fun _ cs next _ _ htakes _ ↦ ?_
    have hnext : next.rest <:+ t.after := List.IsSuffix.trans ⟨cs, htakes.1.symm⟩ hbehind
    exact ⟨.inr ⟨rfl, hnext⟩, .inr hnext⟩

def beside (t : Commented) : Frame where
  Near := t.Near
  head := Near.head
  next := Near.behind
  toLikeness := t.blanking
  position_near := by
    rintro c c' (⟨_, -, -, hoffset⟩ | ⟨rfl, -⟩)
    · exact hoffset
    · rfl
  text_taken := Near.text_taken
  written_taken := Near.written_taken
  quotes_taken _ _ := trivial
  Inside _ := t.Inside
  step h hx := h.char (.unmarked hx)
  opener h hx := h.char (.bracket (.inl hx))
  closer h hx := h.char (.bracket (.inr hx))
  slash h hx := h.char (.slash hx)
  division := Near.division
  angle h hx := h.char (.angle (rejects_string_of_angle hx))
  shift h := Ordinary.shift (fun h hordinary ↦ h.char hordinary) h
  string := Near.agree_stringLiteral
  skip := Near.agree_trivia

variable {k : Nat} {d : List Char}

theorem InCode.rules_end {c₁ c₂ c₃ c₄ : Cursor} {u₁ u₂ u₄ : Unit} {names : List Name}
    {f₁ f₂ f₃ f₄ f : Failures} (hcode : t.InCode) (hc : t.Inside c)
    (h₁ : keyword "use" c = .matched u₁ c₁ f₁) (h₂ : trivia c₁ = .matched u₂ c₂ f₂)
    (h₃ : nameList c₂ = .matched names c₃ f₃) (h₄ : trivia c₃ = .matched u₄ c₄ f₄)
    (hblock : ruleBlock c₄ = .matched () next f) (hlt : next.rest.length < c.rest.length) :
    (∃ more, next.rest = more ++ t.tail ∧ t.Place more) ∨
      next.rest.length < t.after.length := by
  obtain ⟨left, hrest, hplace⟩ | hbehind := hc
  · obtain ⟨rest, n⟩ := c
    obtain rfl : rest = left ++ t.tail := hrest
    obtain ⟨_, c₅, _, _, h₅, hblock⟩ := bind_eq_matched hblock
    obtain ⟨_, c₆, _, _, h₆, h₇⟩ := bind_eq_matched hblock
    have hread : traitRules ⟨left ++ t.tail, n⟩ = .matched () c₅ _ := bind_of_matched h₁
      (bind_of_matched h₂ (bind_of_matched h₃ (bind_of_matched h₄ h₅)))
    exact hcode.rules hplace (bind_of_matched hread (bind_of_matched h₆ h₇))
  · exact .inr (Nat.lt_of_lt_of_le hlt hbehind.length_le)

theorem firm_traitUse (hcode : t.InCode) :
    t.beside.Firm k d d (MemberKind.Like t.blanking) traitUse traitUse := by
  intro c c' hc _
  have hword : Agree (keyword "use") (keyword "use") c c' fun u _ next next' ↦
      ((∃ f, keyword "use" c = .matched u next f) ∧ t.beside.At d next next') ∧
        Nearer c c' next next' :=
    (Frame.firm_keyword "use" c c' hc (Nat.lt_succ_self _)).matching.imp fun _ _ _ _ h ↦
      ⟨⟨h.1, h.2.1.2⟩, h.2.2⟩
  refine hword.bind_nearer fun _ _ c₁ c₁' ⟨⟨f₁, h₁⟩, hc₁⟩ hlt ↦ ?_
  refine (Frame.steady_trivia c₁ c₁' hc₁ (Nat.lt_succ_self _)).matching.bind
    fun _ _ c₂ c₂' hle₂ ⟨⟨f₂, h₂⟩, _, hc₂⟩ ↦ ?_
  refine (Frame.steady_nameList c₂ c₂' hc₂ (Nat.lt_succ_self _)).matching.bind
    fun names _ c₃ c₃' hle₃ ⟨⟨f₃, h₃⟩, hnames, hc₃⟩ ↦ ?_
  refine (Frame.steady_trivia c₃ c₃' hc₃ (Nat.lt_succ_self _)).matching.bind
    fun _ _ c₄ c₄' hle₄ ⟨⟨f₄, h₄⟩, _, hc₄⟩ ↦ ?_
  have hend : Agree (literal ";" <|> ruleBlock) (literal ";" <|> ruleBlock) c₄ c₄'
      fun _ _ next next' ↦ t.beside.At d next next' := by
    refine .orElse ?_ ?_
    · exact (Frame.firm_literal (by decide) c₄ c₄' hc₄ (Nat.lt_succ_self _)).imp
        fun _ _ _ _ h ↦ h.1.2
    · refine Near.agree_ruleBlock hc₄.1 fun next f hm ↦ hcode.rules_end hc.2 h₁ h₂ h₃ h₄ hm ?_
      obtain ⟨cs, hrest, hoffset, -⟩ := consumes_ruleBlock _ _ _ _ hm
      have htakes : c₄.Takes cs next := ⟨hrest, hoffset⟩
      calc next.rest.length ≤ c₄.rest.length := htakes.length_le
        _ ≤ c₃.rest.length := hle₄.1.length_le
        _ ≤ c₂.rest.length := hle₃.1.length_le
        _ ≤ c₁.rest.length := hle₂.1.length_le
        _ < c.rest.length := hlt.1
  exact hend.bind fun _ _ _ _ _ h ↦ .pure ⟨.traitUse hnames, h⟩

theorem rejects_any_nil : Rejects (oneOf .any) [] := fun _ ↦ ⟨_, rfl⟩

theorem agree_any (h : t.Near c c') :
    Agree (oneOf .any) (oneOf .any) c c' fun _ _ _ _ ↦ True := by
  have hone (x : Char) (xs : List Char) : Accepts (oneOf .any) [x] xs := .oneOf rfl
  have hboth {x x' : Char} {xs xs' : List Char} {n n' : Nat} :
      Agree (oneOf .any) (oneOf .any) ⟨x :: xs, n⟩ ⟨x' :: xs', n'⟩ fun _ _ _ _ ↦ True :=
    agree_of_yields (hone x xs) (hone x' xs') fun _ _ _ _ ↦ trivial
  obtain ⟨rest, n⟩ := c
  obtain ⟨rest', n'⟩ := c'
  obtain ⟨v, hrest, hrest', -⟩ | ⟨hsame, -⟩ := h
  · obtain ⟨x, xs, hx⟩ : ∃ x xs, v ++ t.tail = x :: xs := by
      refine List.exists_cons_of_ne_nil (List.append_ne_nil_of_right_ne_nil v ?_)
      exact List.append_ne_nil_of_left_ne_nil t.isComment.ne_nil _
    obtain ⟨x', xs', hx'⟩ : ∃ x xs, v ++ t.blankTail = x :: xs := by
      obtain ⟨more, hmore⟩ := t.exists_spaces
      refine List.exists_cons_of_ne_nil (List.append_ne_nil_of_right_ne_nil v ?_)
      rw [blankTail, hmore]
      exact List.cons_ne_nil _ _
    obtain rfl : rest = x :: xs := hrest.trans hx
    obtain rfl : rest' = x' :: xs' := hrest'.trans hx'
    exact hboth
  · cases hsame
    cases rest with
    | nil => exact agree_of_rejects rejects_any_nil rejects_any_nil
    | cons x xs => exact hboth

theorem byteLength_near (h : t.Near c c') :
    c.offset + byteLength c.rest = c'.offset + byteLength c'.rest := by
  obtain ⟨v, hrest, hrest', hoffset⟩ | ⟨rfl, -⟩ := h
  · rw [hrest, hrest', hoffset, tail, blankTail]
    simp only [byteLength_append, byteLength_spaces]
  · rfl

/-- Behind the code a file is taken to its end. -/
theorem steady_behind :
    t.beside.Steady k d d Eq (skipMany (oneOf .any)) (skipMany (oneOf .any)) := by
  intro c c' hc _
  have hall (cs : List Char) : Accepts (skipMany (oneOf .any)) cs [] :=
    .skipMany (fun _ _ _ _ ↦ .oneOf rfl) rejects_any_nil
  have hend := byteLength_near hc.1
  obtain ⟨rest, n⟩ := c
  obtain ⟨rest', n'⟩ := c'
  rw [← List.append_nil rest, ← List.append_nil rest']
  refine agree_of_yields (hall rest) (hall rest') fun _ _ _ _ ↦ ?_
  exact ⟨rfl, .inr ⟨congrArg (Cursor.mk []) hend, List.nil_suffix⟩, .inr List.nil_suffix⟩

theorem length_source_le : t.source.length ≤ t.blanked.length := by
  have hlength (cs : List Char) : cs.length ≤ byteLength cs := by
    induction cs with
    | nil => exact Nat.le_refl _
    | cons x cs ih =>
      have hsize := x.utf8Size_pos
      rw [List.length_cons, byteLength]
      omega
  have hcomment := hlength t.comment
  simp only [source, blanked, tail, blankTail, spaces, List.length_append, List.length_replicate]
  omega

/-- Comments are white space: with spaces in its place the file holds the same statements, at the
same spans. -/
theorem parseFile_blanked (hcode : t.InCode) {ss : List Stmt} (h : parseFile t.source = .ok ss) :
    ∃ ss', parseFile t.blanked = .ok ss' ∧ List.Forall₂ (Stmt.Like t.blanking) ss ss' := by
  have htied : t.beside.Tied (t.source.length + 1) (.forText t.source) (.forText t.blanked) :=
    Frame.tied_ofDepth (fun _ _ ↦ firm_traitUse hcode) (Nat.le_refl _)
      (Nat.succ_le_succ t.length_source_le)
  have hstart : t.beside.At [] ⟨t.source, 0⟩ ⟨t.blanked, 0⟩ :=
    ⟨.inl ⟨t.before, rfl, rfl, rfl⟩, .inl ⟨t.before, rfl, .stop _, hcode.divides⟩⟩
  have hagree := Frame.steady_file htied steady_behind (fun _ _ hc ↦ agree_any hc.1) _ _ hstart
    (Nat.lt_succ_self _)
  unfold parseFile at h ⊢
  cases hm : file (.forText t.source) ⟨t.source, 0⟩ with
  | failed f =>
    rw [hm] at h
    cases h
  | matched a next f =>
    rw [hm] at h
    cases h
    obtain ⟨a', next', f', hm', hlike, -⟩ := hagree.matched hm
    rw [hm']
    exact ⟨_, rfl, like_documentAll (fun _ _ ↦ trivial) a a' hlike⟩

theorem parseFile_blanked_argument :
    ∃ t : Commented, t.source = "<?php /* a */ f(/* it's */ $x);".toList ∧
      t.blanked = "<?php /* a */ f(           $x);".toList ∧ t.InCode ∧
      ∃ ss ss', parseFile t.source = .ok ss ∧ parseFile t.blanked = .ok ss' ∧
        List.Forall₂ (Stmt.Like t.blanking) ss ss' := by
  let t : Commented := ⟨"<?php /* a */ f(".toList, "/* it's */".toList, " $x);".toList,
    fun _ ↦ ⟨(), _, rfl, trivial⟩⟩
  have hcomment : ∀ tail ∈ t.tails,
      Accepts Grammar.comment "/* a */".toList (" f(".toList ++ tail) := by
    refine List.forall_mem_cons.mpr ⟨fun _ ↦ ⟨(), _, rfl, trivial⟩, ?_⟩
    exact List.forall_mem_singleton.mpr fun _ ↦ ⟨(), _, rfl, trivial⟩
  have hcall : Divides t.tails (" f(".toList ++ []) [] := .plain (by decide) (.stop [])
  have hopening : Divides t.tails ("?php ".toList ++ ("/* a */".toList ++ " f(".toList)) [] :=
    .plain (by decide) (.comment hcomment hcall)
  have hdivides : Divides t.tails t.before [] := by
    refine .char (fun _ _ ↦ .angle (rejects_string_of_angle fun h ↦ ?_)) hopening
    cases (List.cons_prefix_cons.mp h).1
  have hcode : t.InCode := inCode_of_no_brace hdivides (by decide)
  have hread : (parseFile t.source).isOk = true := by decide +kernel
  cases hp : parseFile t.source with
  | error e =>
    rw [hp] at hread
    cases hread
  | ok ss =>
    obtain ⟨ss', hss'⟩ := parseFile_blanked hcode hp
    exact ⟨t, rfl, rfl, hcode, ss, ss', hp, hss'⟩

def namesBelow (ss : List Stmt) : List String :=
  (Node.ofStmts ss).flatMap fun s ↦ s.children.flatMap fun e ↦ e.identifiers.map Identifier.name

/-- A computed name keeps its comment. What an attribute reads may be decided by a quote in a
comment behind it, also where the rules of a trait use tear what would be a string literal. -/
theorem blanked_differs :
    ((parseFile "<?php $a->\x7b/* c */ $b\x7d;".toList).toOption.map namesBelow =
        some ["\x7b/* c */ $b\x7d"] ∧
      (parseFile "<?php $a->\x7b        $b\x7d;".toList).toOption.map namesBelow =
        some ["\x7b        $b\x7d"]) ∧
    ((parseFile "<?php #[a'] f();\n/* ' */".toList).toOption.map List.length = some 0 ∧
      (parseFile "<?php #[a'] f();\n       ".toList).toOption.map List.length = some 1) ∧
    (parseFile
        "<?php class A \x7b use B \x7b ' \x7d \x7d #[a'] f();\n/* ' */".toList).toOption.map
          List.length = some 1 ∧
      (parseFile
        "<?php class A \x7b use B \x7b ' \x7d \x7d #[a'] f();\n       ".toList).toOption.map
          List.length = some 2 := by
  refine ⟨?_, ?_, ?_⟩ <;> decide +kernel

end PhpInsight.Grammar.Commented

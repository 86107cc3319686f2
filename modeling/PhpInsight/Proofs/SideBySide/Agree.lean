import Mathlib.Data.List.Forall2
import PhpInsight.Proofs.Comments.Skipped

namespace PhpInsight.Peg

open Text

def Cursor.Takes (c : Cursor) (cs : List Char) (next : Cursor) : Prop :=
  c.rest = cs ++ next.rest ∧ next.offset = c.offset + byteLength cs

def Cursor.Reaches (c next : Cursor) : Prop := ∃ cs, c.Takes cs next

def Alike (K : List Char → Prop) (c c' next next' : Cursor) : Prop :=
  ∃ cs, K cs ∧ c.Takes cs next ∧ c'.Takes cs next'

def Nearer (c c' next next' : Cursor) : Prop :=
  next.rest.length < c.rest.length ∧ next'.rest.length < c'.rest.length

section

variable {c c' mid mid' next next' : Cursor} {K L M : List Char → Prop} {cs ds : List Char}

theorem Cursor.Takes.nil (c : Cursor) : c.Takes [] c := ⟨rfl, rfl⟩

theorem Cursor.Takes.append (h : c.Takes cs mid) (h' : mid.Takes ds next) :
    c.Takes (cs ++ ds) next := by
  refine ⟨?_, ?_⟩
  · rw [h.1, h'.1, List.append_assoc]
  · rw [h'.2, h.2, byteLength_append, Nat.add_assoc]

theorem Cursor.Takes.induct {J : Cursor → Prop} (h : c.Takes cs next)
    (hstep : ∀ x xs n, x ∈ cs → J ⟨x :: xs, n⟩ → J ⟨xs, n + x.utf8Size⟩) (hc : J c) : J next := by
  induction cs generalizing c with
  | nil =>
    obtain ⟨rest, n⟩ := c
    obtain ⟨rest', n'⟩ := next
    obtain ⟨hrest, hoffset⟩ := h
    obtain rfl : rest = rest' := hrest
    obtain rfl : n' = n := hoffset
    exact hc
  | cons x cs ih =>
    obtain ⟨rest, n⟩ := c
    obtain ⟨hrest, hoffset⟩ := h
    obtain rfl : rest = x :: (cs ++ next.rest) := hrest
    refine ih (c := ⟨cs ++ next.rest, n + x.utf8Size⟩) ⟨rfl, ?_⟩
      (fun y ys m hy ↦ hstep y ys m (List.mem_cons_of_mem _ hy))
      (hstep x _ n List.mem_cons_self hc)
    rw [hoffset, byteLength, Nat.add_assoc]

theorem Cursor.Takes.length_le (h : c.Takes cs next) : next.rest.length ≤ c.rest.length := by
  rw [h.1, List.length_append]
  exact Nat.le_add_left _ _

theorem Cursor.Takes.length_lt (h : c.Takes cs next) (hcs : cs ≠ []) :
    next.rest.length < c.rest.length := by
  have hpos := List.length_pos_iff.mpr hcs
  rw [h.1, List.length_append]
  omega

theorem Cursor.Takes.reaches (h : c.Takes cs next) : c.Reaches next := ⟨cs, h⟩

theorem Cursor.Reaches.refl (c : Cursor) : c.Reaches c := ⟨[], .nil c⟩

theorem Cursor.Reaches.trans (h : c.Reaches mid) (h' : mid.Reaches next) : c.Reaches next := by
  obtain ⟨cs, hcs⟩ := h
  obtain ⟨ds, hds⟩ := h'
  exact ⟨cs ++ ds, hcs.append hds⟩

theorem Cursor.Reaches.length_le (h : c.Reaches next) : next.rest.length ≤ c.rest.length := by
  obtain ⟨cs, hcs⟩ := h
  exact hcs.length_le

theorem Cursor.Takes.unique (h : c.Takes cs next) (h' : c.Takes ds next) : cs = ds :=
  List.append_cancel_right (h.1.symm.trans h'.1)

theorem Alike.nearer (h : Alike K c c' next next') (hK : ∀ cs, K cs → cs ≠ []) :
    Nearer c c' next next' := by
  obtain ⟨cs, hcs, hc, hc'⟩ := h
  exact ⟨hc.length_lt (hK cs hcs), hc'.length_lt (hK cs hcs)⟩

theorem Alike.trans (h : Alike K c c' mid mid') (h' : Alike L mid mid' next next')
    (hM : ∀ cs ds, K cs → L ds → M (cs ++ ds)) : Alike M c c' next next' := by
  obtain ⟨cs, hcs, hc, hc'⟩ := h
  obtain ⟨ds, hds, hd, hd'⟩ := h'
  exact ⟨cs ++ ds, hM cs ds hcs hds, hc.append hd, hc'.append hd'⟩

end

namespace Parser

variable {α β : Type} {p p' q q' : Parser α} {c c' : Cursor}
  {Q R : α → α → Cursor → Cursor → Prop}

/-- Both fail, or both match: then what they give and where they get to are related. -/
def Agree (p p' : Parser α) (c c' : Cursor) (Q : α → α → Cursor → Cursor → Prop) : Prop :=
  (∃ f f', p c = .failed f ∧ p' c' = .failed f') ∨
    ∃ a a' next next' f f', p c = .matched a next f ∧ p' c' = .matched a' next' f' ∧
      (c.Reaches next ∧ c'.Reaches next') ∧ Q a a' next next'

theorem agree_of_rejects (h : Rejects p c.rest) (h' : Rejects p' c'.rest) :
    Agree p p' c c' Q := by
  obtain ⟨f, hf⟩ := h c.offset
  obtain ⟨f', hf'⟩ := h' c'.offset
  exact .inl ⟨f, f', hf, hf'⟩

theorem agree_self {K : List Char → Prop} (h : Consumes p K)
    (hQ : ∀ a cs next f, p c = .matched a next f → c.Takes cs next → K cs → Q a a next next) :
    Agree p p c c Q := by
  unfold Agree
  cases hm : p c with
  | failed f => exact .inl ⟨f, f, rfl, rfl⟩
  | matched a next f =>
    obtain ⟨cs, hcs, hoffset, hK⟩ := h c a next f hm
    have htakes : c.Takes cs next := ⟨hcs, hoffset⟩
    exact .inr ⟨a, a, next, next, f, f, rfl, rfl, ⟨htakes.reaches, htakes.reaches⟩,
      hQ a cs next f hm htakes hK⟩

theorem agree_of_yields {cs cs' rest rest' : List Char} {n n' : Nat} {S S' : α → Prop}
    (h : Yields p cs rest S) (h' : Yields p' cs' rest' S')
    (hQ : ∀ a a', S a → S' a' →
      Q a a' ⟨rest, n + byteLength cs⟩ ⟨rest', n' + byteLength cs'⟩) :
    Agree p p' ⟨cs ++ rest, n⟩ ⟨cs' ++ rest', n'⟩ Q := by
  obtain ⟨a, f, hm, ha⟩ := h n
  obtain ⟨a', f', hm', ha'⟩ := h' n'
  exact .inr ⟨a, a', _, _, f, f', hm, hm', ⟨⟨cs, rfl, rfl⟩, cs', rfl, rfl⟩, hQ a a' ha ha'⟩

namespace Agree

theorem imp (h : Agree p p' c c' Q)
    (hQ : ∀ a a' next next', Q a a' next next' → R a a' next next') : Agree p p' c c' R := by
  obtain h | ⟨a, a', next, next', f, f', hp, hp', hle, hq⟩ := h
  · exact .inl h
  · exact .inr ⟨a, a', next, next', f, f', hp, hp', hle, hQ a a' next next' hq⟩

theorem imp_matched (h : Agree p p' c c' Q)
    (hQ : ∀ a a' next next' f f', p c = .matched a next f → p' c' = .matched a' next' f' →
      Q a a' next next' → R a a' next next') : Agree p p' c c' R := by
  obtain h | ⟨a, a', next, next', f, f', hp, hp', hle, hq⟩ := h
  · exact .inl h
  · exact .inr ⟨a, a', next, next', f, f', hp, hp', hle, hQ a a' next next' f f' hp hp' hq⟩

theorem matching (h : Agree p p' c c' Q) : Agree p p' c c' fun a a' next next' ↦
    (∃ f, p c = .matched a next f) ∧ Q a a' next next' :=
  h.imp_matched fun _ _ _ _ f _ hm _ hQ ↦ ⟨⟨f, hm⟩, hQ⟩

theorem imp_reaches (h : Agree p p' c c' Q)
    (hQ : ∀ a a' next next', c.Reaches next → c'.Reaches next' → Q a a' next next' →
      R a a' next next') : Agree p p' c c' R := by
  obtain h | ⟨a, a', next, next', f, f', hp, hp', hle, hq⟩ := h
  · exact .inl h
  · exact .inr ⟨a, a', next, next', f, f', hp, hp', hle, hQ a a' next next' hle.1 hle.2 hq⟩

theorem matched {a : α} {next : Cursor} {f : Failures} (h : Agree p p' c c' Q)
    (hp : p c = .matched a next f) :
    ∃ a' next' f', p' c' = .matched a' next' f' ∧ Q a a' next next' := by
  obtain ⟨g, g', hfailed, -⟩ | ⟨b, a', _, next', _, f', hb, hp', -, hQ⟩ := h
  · rw [hp] at hfailed
    cases hfailed
  · rw [hp] at hb
    cases hb
    exact ⟨a', next', f', hp', hQ⟩

theorem both_matched {a a' : α} {next next' : Cursor} {f f' : Failures} (h : Agree p p' c c' Q)
    (hp : p c = .matched a next f) (hp' : p' c' = .matched a' next' f') : Q a a' next next' := by
  obtain ⟨_, _, _, hm, hQ⟩ := h.matched hp
  rw [hp'] at hm
  cases hm
  exact hQ

theorem pure {a a' : α} (h : Q a a' c c') : Agree (pure a) (pure a') c c' Q :=
  .inr ⟨a, a', c, c', .none, .none, rfl, rfl, ⟨.refl _, .refl _⟩, h⟩

theorem fail : Agree (fail : Parser α) fail c c' Q := .inl ⟨_, _, rfl, rfl⟩

theorem failExpecting (label : String) :
    Agree (failExpecting label : Parser α) (failExpecting label) c c' Q := .inl ⟨_, _, rfl, rfl⟩

theorem position {Q : Nat → Nat → Cursor → Cursor → Prop} (h : Q c.offset c'.offset c c') :
    Agree position position c c' Q :=
  .inr ⟨_, _, c, c', .none, .none, rfl, rfl, ⟨.refl _, .refl _⟩, h⟩

theorem bind {f f' : α → Parser β} {Q : β → β → Cursor → Cursor → Prop}
    (hp : Agree p p' c c' R)
    (hf : ∀ a a' next next', c.Reaches next ∧ c'.Reaches next' →
      R a a' next next' → Agree (f a) (f' a') next next' Q) :
    Agree (p >>= f) (p' >>= f') c c' Q := by
  change Agree (Parser.bind p f) (Parser.bind p' f') c c' Q
  unfold Agree Parser.bind
  obtain ⟨g, g', hp, hp'⟩ | ⟨a, a', mid, mid', g, g', hp, hp', hle, hR⟩ := hp
  · exact .inl ⟨g, g', by rw [hp], by rw [hp']⟩
  · obtain ⟨h, h', hfa, hfa'⟩ | ⟨b, b', next, next', h, h', hfa, hfa', hle', hQ⟩ :=
      hf a a' mid mid' hle hR
    · exact .inl ⟨g.merge h, g'.merge h', by simp only [hp, hfa, Outcome.withFailures],
        by simp only [hp', hfa', Outcome.withFailures]⟩
    · exact .inr ⟨b, b', next, next', g.merge h, g'.merge h',
        by simp only [hp, hfa, Outcome.withFailures],
        by simp only [hp', hfa', Outcome.withFailures],
        ⟨hle.1.trans hle'.1, hle.2.trans hle'.2⟩, hQ⟩

theorem position_bind {f f' : Nat → Parser α} (h : Agree (f c.offset) (f' c'.offset) c c' Q) :
    Agree (Parser.position >>= f) (Parser.position >>= f') c c' Q := by
  have hread : Agree Parser.position Parser.position c c' fun n n' next next' ↦
      (n = c.offset ∧ n' = c'.offset) ∧ next = c ∧ next' = c' := .position ⟨⟨rfl, rfl⟩, rfl, rfl⟩
  refine hread.bind fun n n' next next' _ ⟨⟨hn, hn'⟩, hnext, hnext'⟩ ↦ ?_
  subst hn hn' hnext hnext'
  exact h

theorem bind_nearer {f f' : α → Parser β} {Q : β → β → Cursor → Cursor → Prop}
    (hp : Agree p p' c c' fun a a' next next' ↦ R a a' next next' ∧ Nearer c c' next next')
    (hf : ∀ a a' next next', R a a' next next' → Nearer c c' next next' →
      Agree (f a) (f' a') next next' Q) :
    Agree (p >>= f) (p' >>= f') c c' fun b b' next next' ↦
      Q b b' next next' ∧ Nearer c c' next next' := by
  refine hp.bind fun a a' mid mid' _ ⟨hR, hmid⟩ ↦ ?_
  obtain hfail | ⟨b, b', next, next', g, g', hb, hb', hle, hQ⟩ := hf a a' mid mid' hR hmid
  · exact .inl hfail
  · exact .inr ⟨b, b', next, next', g, g', hb, hb', hle, hQ,
      Nat.lt_of_le_of_lt hle.1.length_le hmid.1, Nat.lt_of_le_of_lt hle.2.length_le hmid.2⟩

theorem orElse (hp : Agree p p' c c' Q) (hq : Agree q q' c c' Q) :
    Agree (p <|> q) (p' <|> q') c c' Q := by
  change Agree (Parser.orElse p fun _ ↦ q) (Parser.orElse p' fun _ ↦ q') c c' Q
  unfold Agree Parser.orElse
  obtain ⟨g, g', hp, hp'⟩ | ⟨a, a', next, next', g, g', hp, hp', hle, hQ⟩ := hp
  · obtain ⟨h, h', hq, hq'⟩ | ⟨b, b', next, next', h, h', hq, hq', hle, hQ⟩ := hq
    · exact .inl ⟨g.merge h, g'.merge h', by simp only [hp, hq, Outcome.withFailures],
        by simp only [hp', hq', Outcome.withFailures]⟩
    · exact .inr ⟨b, b', next, next', g.merge h, g'.merge h',
        by simp only [hp, hq, Outcome.withFailures],
        by simp only [hp', hq', Outcome.withFailures], hle, hQ⟩
  · exact .inr ⟨a, a', next, next', g, g', by rw [hp], by rw [hp'], hle, hQ⟩

theorem optional {Q : Option α → Option α → Cursor → Cursor → Prop}
    (h : Agree p p' c c' fun a a' ↦ Q (some a) (some a')) (hc : Q none none c c') :
    Agree (optional p) (optional p') c c' Q := by
  unfold Agree Parser.optional
  obtain ⟨g, g', hp, hp'⟩ | ⟨a, a', next, next', g, g', hp, hp', hle, hQ⟩ := h
  · exact .inr ⟨none, none, c, c', g, g', by rw [hp], by rw [hp'], ⟨.refl _, .refl _⟩, hc⟩
  · exact .inr ⟨some a, some a', next, next', g, g', by rw [hp], by rw [hp'], hle, hQ⟩

theorem quiet (h : Agree p p' c c' Q) : Agree (quiet p) (quiet p') c c' Q := by
  unfold Agree Parser.quiet
  obtain ⟨g, g', hp, hp'⟩ | ⟨a, a', next, next', g, g', hp, hp', hle, hQ⟩ := h
  · exact .inl ⟨.none, .none, by rw [hp], by rw [hp']⟩
  · exact .inr ⟨a, a', next, next', .none, .none, by rw [hp], by rw [hp'], hle, hQ⟩

theorem ahead {p p' : Parser Unit} {Q R : Unit → Unit → Cursor → Cursor → Prop}
    (h : Agree p p' c c' R) (hQ : Q () () c c') : Agree (ahead p) (ahead p') c c' Q := by
  unfold Agree Parser.ahead
  obtain ⟨g, g', hp, hp'⟩ | ⟨a, a', next, next', g, g', hp, hp', -, -⟩ := h
  · exact .inl ⟨.none, .none, by rw [hp], by rw [hp']⟩
  · exact .inr ⟨(), (), c, c', .none, .none, by rw [hp], by rw [hp'],
      ⟨.refl _, .refl _⟩, hQ⟩

theorem notAhead {p p' : Parser Unit} {Q R : Unit → Unit → Cursor → Cursor → Prop}
    (h : Agree p p' c c' R) (hQ : (∃ f, p c = .failed f) → Q () () c c') :
    Agree (notAhead p) (notAhead p') c c' Q := by
  unfold Agree Parser.notAhead
  obtain ⟨g, g', hp, hp'⟩ | ⟨a, a', next, next', g, g', hp, hp', -, -⟩ := h
  · exact .inr ⟨(), (), c, c', .none, .none, by rw [hp], by rw [hp'],
      ⟨.refl _, .refl _⟩, hQ ⟨g, hp⟩⟩
  · exact .inl ⟨.none, .none, by rw [hp], by rw [hp']⟩

theorem textOf {p p' : Parser Unit} {Q : Cursor → Cursor → Prop}
    (h : Agree p p' c c' fun _ _ ↦ Q) :
    Agree (textOf p) (textOf p') c c' fun w w' next next' ↦
      (c.Takes w.toList next ∧ c'.Takes w'.toList next') ∧ Q next next' := by
  have htext {c next : Cursor} (h : c.Reaches next) :
      c.Takes (String.ofList (takeBytes (next.offset - c.offset) c.rest)).toList next := by
    obtain ⟨cs, hcs⟩ := h
    have htake : takeBytes (next.offset - c.offset) c.rest = cs := by
      rw [hcs.1, hcs.2, Nat.add_sub_cancel_left, Consumes.takeBytes_byteLength]
    rwa [htake, String.toList_ofList]
  unfold Agree Parser.textOf
  obtain ⟨g, g', hp, hp'⟩ | ⟨a, a', next, next', g, g', hp, hp', hle, hQ⟩ := h
  · exact .inl ⟨g, g', by rw [hp], by rw [hp']⟩
  · exact .inr ⟨_, _, next, next', g, g', by rw [hp], by rw [hp'], hle,
      ⟨htext hle.1, htext hle.2⟩, hQ⟩

/-- Every match shortens what is left at both places, so that neither run is stopped by its fuel. -/
theorem foldMany {J : α → α → Cursor → Cursor → Prop} {step step' : α → Parser α}
    (h : ∀ a a' c c', J a a' c c' → Agree (step a) (step' a') c c' fun b b' next next' ↦
      J b b' next next' ∧ Nearer c c' next next') {a a' : α} (hc : J a a' c c') :
    Agree (foldMany step a) (foldMany step' a') c c' J := by
  have hfrom : ∀ (fuel fuel' : List Char) (a a' : α) (c c' : Cursor),
      c.rest.length ≤ fuel.length → c'.rest.length ≤ fuel'.length → J a a' c c' →
      Agree (foldManyFrom step fuel a) (foldManyFrom step' fuel' a') c c' J := by
    intro fuel
    induction fuel with
    | nil =>
      intro fuel' a a' c c' hlength _ hc
      unfold Agree foldManyFrom
      obtain ⟨g, g', hs, hs'⟩ | ⟨b, b', mid, mid', g, g', -, -, -, -, hlt, -⟩ := h a a' c c' hc
      · exact .inr ⟨a, a', c, c', g, g', by rw [hs], by rw [hs'], ⟨.refl _, .refl _⟩, hc⟩
      · rw [List.length_nil] at hlength
        omega
    | cons x fuel ih =>
      intro fuel' a a' c c' hlength hlength' hc
      obtain ⟨g, g', hs, hs'⟩ | ⟨b, b', mid, mid', g, g', hs, hs', hle, hmid, hlt, hlt'⟩ :=
        h a a' c c' hc
      · unfold Agree foldManyFrom
        exact .inr ⟨a, a', c, c', g, g', by rw [hs], by rw [hs'], ⟨.refl _, .refl _⟩, hc⟩
      · cases fuel' with
        | nil =>
          rw [List.length_nil] at hlength'
          omega
        | cons y fuel' =>
          rw [List.length_cons] at hlength hlength'
          obtain ⟨k, k', hr, hr'⟩ | ⟨d, d', next, next', k, k', hr, hr', hle', hnext⟩ :=
            ih fuel' b b' mid mid' (by omega) (by omega) hmid
          · refine .inl ⟨g.merge k, g'.merge k', ?_, ?_⟩ <;> unfold foldManyFrom
            · simp only [hs, hr, Outcome.withFailures]
            · simp only [hs', hr', Outcome.withFailures]
          · refine .inr ⟨d, d', next, next', g.merge k, g'.merge k', ?_, ?_,
              ⟨hle.1.trans hle'.1, hle.2.trans hle'.2⟩, hnext⟩ <;> unfold foldManyFrom
            · simp only [hs, hr, Outcome.withFailures]
            · simp only [hs', hr', Outcome.withFailures]
  exact hfrom c.rest c'.rest a a' c c' (Nat.le_refl _) (Nat.le_refl _) hc

/-- As often as the one parser matches the other one does. What was read so far may matter. -/
theorem many_onto {J : List α → List α → Cursor → Cursor → Prop}
    (h : ∀ as as' c c', J as as' c c' → Agree p p' c c' fun a a' next next' ↦
      J (as ++ [a]) (as' ++ [a']) next next' ∧ Nearer c c' next next') (hc : J [] [] c c') :
    Agree (many p) (many p') c c' J := by
  have hfrom : ∀ (fuel fuel' : List Char) (as as' : List α) (c c' : Cursor),
      c.rest.length ≤ fuel.length → c'.rest.length ≤ fuel'.length → J as as' c c' →
      Agree (manyFrom p fuel) (manyFrom p' fuel') c c' fun bs bs' ↦ J (as ++ bs) (as' ++ bs') := by
    intro fuel
    induction fuel with
    | nil =>
      intro fuel' as as' c c' hlength _ hc
      unfold Agree manyFrom
      obtain ⟨g, g', hp, hp'⟩ | ⟨b, b', mid, mid', g, g', -, -, -, -, hlt, -⟩ := h as as' c c' hc
      · exact .inr ⟨[], [], c, c', g, g', by rw [hp], by rw [hp'], ⟨.refl _, .refl _⟩,
          by simpa only [List.append_nil] using hc⟩
      · rw [List.length_nil] at hlength
        omega
    | cons x fuel ih =>
      intro fuel' as as' c c' hlength hlength' hc
      obtain ⟨g, g', hp, hp'⟩ | ⟨b, b', mid, mid', g, g', hp, hp', hle, hmid, hlt, hlt'⟩ :=
        h as as' c c' hc
      · unfold Agree manyFrom
        exact .inr ⟨[], [], c, c', g, g', by rw [hp], by rw [hp'], ⟨.refl _, .refl _⟩,
          by simpa only [List.append_nil] using hc⟩
      · cases fuel' with
        | nil =>
          rw [List.length_nil] at hlength'
          omega
        | cons y fuel' =>
          rw [List.length_cons] at hlength hlength'
          obtain ⟨k, k', hr, hr'⟩ | ⟨bs, bs', next, next', k, k', hr, hr', hle', hnext⟩ :=
            ih fuel' _ _ mid mid' (by omega) (by omega) hmid
          · refine .inl ⟨g.merge k, g'.merge k', ?_, ?_⟩ <;> unfold manyFrom
            · simp only [hp, hr]
            · simp only [hp', hr']
          · rw [List.append_assoc, List.append_assoc] at hnext
            refine .inr ⟨b :: bs, b' :: bs', next, next', g.merge k, g'.merge k', ?_, ?_,
              ⟨hle.1.trans hle'.1, hle.2.trans hle'.2⟩, hnext⟩ <;> unfold manyFrom
            · simp only [hp, hr]
            · simp only [hp', hr']
  exact hfrom c.rest c'.rest [] [] c c' (Nat.le_refl _) (Nat.le_refl _) hc

theorem many {J : Cursor → Cursor → Prop} {R : α → α → Prop}
    (h : ∀ c c', J c c' → Agree p p' c c' fun a a' next next' ↦
      (R a a' ∧ J next next') ∧ Nearer c c' next next') (hc : J c c') :
    Agree (many p) (many p') c c' fun as as' next next' ↦
      List.Forall₂ R as as' ∧ J next next' :=
  many_onto (fun _ _ c c' hc ↦ (h c c' hc.2).imp fun _ _ _ _ h ↦
    ⟨⟨List.rel_append hc.1 (.cons h.1.1 .nil), h.1.2⟩, h.2⟩) ⟨.nil, hc⟩

/-- The second run may take some steps alone. Both stop where neither parser matches. -/
theorem skipMany_alone {p p' : Parser Unit} {J : Cursor → Cursor → Prop}
    (h : ∀ c c', J c c' → Agree p p' c c' (fun _ _ next next' ↦
        J next next' ∧ Nearer c c' next next') ∨
      ∃ next' f', p' c' = .matched () next' f' ∧ c'.Reaches next' ∧
        next'.rest.length < c'.rest.length ∧ J c next')
    (hc : J c c') :
    Agree (skipMany p) (skipMany p') c c' fun _ _ next next' ↦
      J next next' ∧ ∃ f f', p next = .failed f ∧ p' next' = .failed f' := by
  have hfrom : ∀ (fuel' fuel : List Char) (f f' : Failures) (c c' : Cursor),
      c.rest.length ≤ fuel.length → c'.rest.length ≤ fuel'.length → J c c' →
      Agree (skipManyFrom p fuel f) (skipManyFrom p' fuel' f') c c' fun _ _ next next' ↦
        J next next' ∧ ∃ f f', p next = .failed f ∧ p' next' = .failed f' := by
    -- The second run has the more steps, so its fuel is what the induction is on.
    intro fuel'
    induction fuel' with
    | nil =>
      intro fuel f f' c c' _ hlength' hc
      rw [List.length_nil] at hlength'
      obtain (⟨g, g', hp, hp'⟩ | ⟨b, b', mid, mid', g, g', -, -, -, -, -, hlt'⟩) |
        ⟨mid', g', -, -, hlt', -⟩ := h c c' hc
      · unfold Agree skipManyFrom
        exact .inr ⟨(), (), c, c', f.merge g, f'.merge g', by rw [hp], by rw [hp'],
          ⟨.refl _, .refl _⟩, hc, g, g', hp, hp'⟩
      · omega
      · omega
    | cons y fuel' ih =>
      intro fuel f f' c c' hlength hlength' hc
      rw [List.length_cons] at hlength'
      obtain (⟨g, g', hp, hp'⟩ | ⟨b, b', mid, mid', g, g', hp, hp', hle, hmid, hlt, hlt'⟩) |
        ⟨mid', g', hp', hreaches, hlt', hmid⟩ := h c c' hc
      · unfold Agree skipManyFrom
        exact .inr ⟨(), (), c, c', f.merge g, f'.merge g', by rw [hp], by rw [hp'],
          ⟨.refl _, .refl _⟩, hc, g, g', hp, hp'⟩
      · cases fuel with
        | nil =>
          rw [List.length_nil] at hlength
          omega
        | cons x fuel =>
          rw [List.length_cons] at hlength
          obtain ⟨k, k', hr, hr'⟩ | ⟨a, a', next, next', k, k', hr, hr', hle', hnext⟩ :=
            ih fuel (f.merge g) (f'.merge g') mid mid' (by omega) (by omega) hmid
          · refine .inl ⟨k, k', ?_, ?_⟩ <;> unfold skipManyFrom
            · simp only [hp, hr]
            · simp only [hp', hr']
          · refine .inr ⟨a, a', next, next', k, k', ?_, ?_,
              ⟨hle.1.trans hle'.1, hle.2.trans hle'.2⟩, hnext⟩ <;> unfold skipManyFrom
            · simp only [hp, hr]
            · simp only [hp', hr']
      · obtain ⟨k, k', hr, hr'⟩ | ⟨a, a', next, next', k, k', hr, hr', hle', hnext⟩ :=
          ih fuel f (f'.merge g') c mid' hlength (by omega) hmid
        · refine .inl ⟨k, k', hr, ?_⟩
          unfold skipManyFrom
          simp only [hp', hr']
        · refine .inr ⟨a, a', next, next', k, k', hr, ?_, ⟨hle'.1, hreaches.trans hle'.2⟩, hnext⟩
          unfold skipManyFrom
          simp only [hp', hr']
  exact hfrom c'.rest c.rest .none .none c c' (Nat.le_refl _) (Nat.le_refl _) hc

theorem skipMany {p p' : Parser Unit} {J : Cursor → Cursor → Prop}
    (h : ∀ c c', J c c' → Agree p p' c c' fun _ _ next next' ↦
      J next next' ∧ Nearer c c' next next') (hc : J c c') :
    Agree (skipMany p) (skipMany p') c c' fun _ _ ↦ J :=
  (skipMany_alone (fun c c' hc ↦ .inl (h c c' hc)) hc).imp fun _ _ _ _ h ↦ h.1

end Agree

end Parser

end PhpInsight.Peg

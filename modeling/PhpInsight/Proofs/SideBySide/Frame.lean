import PhpInsight.Grammar.Target
import PhpInsight.Proofs.SideBySide.Agree
import PhpInsight.Proofs.SideBySide.Likeness

namespace PhpInsight.Grammar

open Peg Peg.Parser Text

/-- The characters that are brackets or may be the start of a string literal or a comment. -/
def marks : List Char := ['(', ')', '[', ']', '\'', '"', '#', '/', '<']

/-- What is taken are no marks. -/
def Unmarked {α : Type} (p : Parser α) : Prop := Consumes p fun cs ↦ ∀ x ∈ cs, x ∉ marks

def StartsBlank (text : List Char) : Prop := ∀ x ∈ text.head?, x ∈ blanks

theorem startsBlank_nil : StartsBlank [] := by
  intro x hx
  cases hx

/-- Blanks, a comment or nothing stand there. -/
def StartsGap (text : List Char) : Prop :=
  StartsBlank text ∨ ∃ sign ∈ [['/', '*'], ['/', '/'], ['#']], sign <+: text

def gapHeads : List Char := blanks ++ ['/', '#']

theorem StartsGap.head {text : List Char} (h : StartsGap text) :
    ∀ x ∈ text.head?, x ∈ gapHeads := by
  intro x hx
  obtain hblank | ⟨sign, hsign, rest, rfl⟩ := h
  · exact List.mem_append_left _ (hblank x hx)
  · refine List.mem_append_right _ ?_
    simp only [List.mem_cons, List.not_mem_nil, or_false] at hsign
    obtain rfl | rfl | rfl := hsign <;> cases hx <;> decide

/-- No blank stands in a text, and no comment starts in it or with its last character. -/
def isTight : List Char → Bool
  | [] => true
  | x :: xs => x ∉ blanks && x ≠ '#' && (x ≠ '/' || xs.head?.any (· ∉ ['/', '*'])) && isTight xs

theorem isTight_head {x : Char} {xs : List Char} (h : isTight (x :: xs) = true) : x ∉ blanks := by
  simp only [isTight, Bool.and_eq_true] at h
  exact of_decide_eq_true h.1.1.1

theorem isTight_tail {x : Char} {xs : List Char} (h : isTight (x :: xs) = true) :
    isTight xs = true := by
  simp only [isTight, Bool.and_eq_true] at h
  exact h.2

theorem StartsGap.not_prefix {text : List Char} {x : Char} {xs : List Char} (h : StartsGap text)
    (ht : isTight (x :: xs) = true) : ¬ x :: xs <+: text := by
  rintro ⟨rest, rfl⟩
  obtain hblank | ⟨sign, hsign, more, hmore⟩ := h
  · exact isTight_head ht (hblank x rfl)
  · simp only [isTight, Bool.and_eq_true] at ht
    obtain ⟨⟨⟨-, hhash⟩, hslash⟩, -⟩ := ht
    have hsecond (y : Char) (hy : y ∈ ['/', '*']) (hmore : '/' :: y :: more = x :: xs ++ rest) :
        False := by
      obtain ⟨rfl, htail⟩ := List.cons.inj hmore
      cases xs with
      | nil => simp at hslash
      | cons z zs =>
        obtain ⟨rfl, -⟩ := List.cons.inj htail
        simp at hslash hy
        tauto
    simp only [List.mem_cons, List.not_mem_nil, or_false] at hsign
    obtain rfl | rfl | rfl := hsign
    · exact hsecond '*' (by decide) hmore
    · exact hsecond '/' (by decide) hmore
    · obtain ⟨rfl, -⟩ := List.cons.inj hmore
      simp at hhash

def isUnmarked (K : CharClass) : Bool := (gapHeads ++ marks).all (!K.contains ·)

/-- Two texts start with one character, unless gaps stand there. -/
def SameHead (text text' : List Char) : Prop :=
  (∃ x xs xs', text = x :: xs ∧ text' = x :: xs') ∨ StartsGap text ∧ StartsGap text'

theorem SameHead.head_iff {text text' : List Char} {x : Char} (h : SameHead text text')
    (hx : x ∉ gapHeads) : text.head? = some x ↔ text'.head? = some x := by
  obtain ⟨y, xs, xs', rfl, rfl⟩ | ⟨hgap, hgap'⟩ := h
  · rfl
  · exact ⟨fun h ↦ absurd (hgap.head x h) hx, fun h ↦ absurd (hgap'.head x h) hx⟩

/-- Two places, each in a text of its own, between which only gaps make a difference. -/
structure Pairing where
  Near : Cursor → Cursor → Prop
  head {c c' : Cursor} : Near c c' → SameHead c.rest c'.rest
  next {x : Char} {xs xs' : List Char} {n n' : Nat} : Near ⟨x :: xs, n⟩ ⟨x :: xs', n'⟩ →
    x ∉ blanks → Near ⟨xs, n + x.utf8Size⟩ ⟨xs', n' + x.utf8Size⟩

def closerOf (x : Char) : Char := if x = '(' then ')' else ']'

/-- Places of two texts from which the grammar reads alike: which places those are, what is alike
about the trees that are read there, and the brackets around a place of the first text. -/
structure Frame extends Pairing, Likeness where
  position_near {c c' : Cursor} : Near c c' → position c.offset c'.offset
  text_taken {c c' next next' : Cursor} {w w' : String} : Near c c' → Near next next' →
    c.Takes w.toList next → c'.Takes w'.toList next' → (∀ x ∈ w.toList, x ∉ marks) → text w w'
  written_taken {c c' next next' : Cursor} {w w' : String} : Near c c' → Near next next' →
    c.Takes w.toList next → c'.Takes w'.toList next' → written w w'
  quotes_taken {c c' next : Cursor} {cs : List Char} : Near c c' → c.Takes cs next →
    quotes cs ⟨c.offset, next.offset⟩
  /-- The places of the first text behind which these brackets are to be closed, the innermost
  first. -/
  Inside : List Char → Cursor → Prop
  step {due : List Char} {x : Char} {xs : List Char} {n : Nat} : Inside due ⟨x :: xs, n⟩ →
    x ∉ marks → Inside due ⟨xs, n + x.utf8Size⟩
  opener {due : List Char} {x : Char} {xs : List Char} {n : Nat} : Inside due ⟨x :: xs, n⟩ →
    isOpener x = true → Inside (closerOf x :: due) ⟨xs, n + x.utf8Size⟩
  closer {due : List Char} {x : Char} {xs : List Char} {n : Nat} :
    Inside (x :: due) ⟨x :: xs, n⟩ → isCloser x = true → Inside due ⟨xs, n + x.utf8Size⟩
  slash {due : List Char} {xs : List Char} {n : Nat} : Inside due ⟨'/' :: xs, n⟩ →
    (∀ x ∈ xs.head?, x ∉ ['/', '*']) → Inside due ⟨xs, n + '/'.utf8Size⟩
  /-- What makes a comment of a slash stands behind it in both texts or in neither. -/
  division {due : List Char} {xs xs' : List Char} {n n' : Nat} :
    Near ⟨'/' :: xs, n⟩ ⟨'/' :: xs', n'⟩ → Inside due ⟨'/' :: xs, n⟩ →
    ∀ x ∈ ['/', '*'], xs.head? = some x ↔ xs'.head? = some x
  angle {due : List Char} {xs : List Char} {n : Nat} : Inside due ⟨'<' :: xs, n⟩ →
    ¬ ['<', '<'] <+: xs → Inside due ⟨xs, n + '<'.utf8Size⟩
  /-- Three angle brackets are the start of a heredoc, unless there are more of them. -/
  shift {due : List Char} {xs : List Char} {n : Nat} : Inside due ⟨'<' :: '<' :: '<' :: xs, n⟩ →
    Inside due ⟨'<' :: xs, n + byteLength ['<', '<']⟩ ∨ ¬ ['<', '<'] <+: xs
  string {due : List Char} {c c' : Cursor} : Near c c' → Inside due c →
    Agree stringLiteral stringLiteral c c' fun v v' next next' ↦
      (text v v' ∧ Near next next' ∧ Inside due next) ∧ Nearer c c' next next'
  skip {due : List Char} {c c' : Cursor} : Near c c' → Inside due c →
    Agree trivia trivia c c' fun _ _ next next' ↦
      Near next next' ∧ Inside due next

namespace Frame

variable {α β : Type} {F : Frame} {k : Nat} {d e e' : List Char} {p p' q q' : Parser α}
  {R : α → α → Prop} {S : β → β → Prop}

def At (F : Frame) (due : List Char) (c c' : Cursor) : Prop := F.Near c c' ∧ F.Inside due c

/-- From places inside `d`, less than `k` characters before the end of the first text, two parsers
agree, give what is related and get to places inside `e`. -/
def Steady (F : Frame) (k : Nat) (d e : List Char) (R : α → α → Prop) (p p' : Parser α) : Prop :=
  ∀ c c', F.At d c c' → c.rest.length < k → Agree p p' c c' fun a a' next next' ↦
    R a a' ∧ F.At e next next'

def Firm (F : Frame) (k : Nat) (d e : List Char) (R : α → α → Prop) (p p' : Parser α) : Prop :=
  ∀ c c', F.At d c c' → c.rest.length < k → Agree p p' c c' fun a a' next next' ↦
    (R a a' ∧ F.At e next next') ∧ Nearer c c' next next'

def Sees (F : Frame) (d : List Char) (p p' : Parser Unit) : Prop :=
  ∀ c c', F.At d c c' → Agree p p' c c' fun _ _ _ _ ↦ True

namespace Firm

theorem steady (h : F.Firm (k + 1) d e R p p') : F.Steady k d e R p p' := by
  intro c c' hc hk
  refine (h c c' hc (Nat.lt_succ_of_lt hk)).imp fun _ _ _ _ h ↦ ?_
  exact h.1

theorem steady_of_less (h : F.Firm k d e R p p') : F.Steady k d e R p p' := by
  intro c c' hc hk
  refine (h c c' hc hk).imp fun _ _ _ _ h ↦ ?_
  exact h.1

theorem less (h : F.Firm (k + 1) d e R p p') : F.Firm k d e R p p' := fun c c' hc hk ↦
  h c c' hc (Nat.lt_succ_of_lt hk)

theorem sees {p p' : Parser Unit} (h : ∀ k, F.Firm (k + 1) d e Eq p p') : F.Sees d p p' := by
  intro c c' hc
  refine (h c.rest.length c c' hc (Nat.lt_succ_self _)).imp fun _ _ _ _ _ ↦ ?_
  exact trivial

end Firm

namespace Steady

theorem pure {a a' : α} (h : R a a') : F.Steady k d d R (pure a) (pure a') := fun _ _ hc _ ↦
  .pure ⟨h, hc⟩

theorem position : F.Steady k d d F.position Parser.position Parser.position := fun _ _ hc _ ↦
  .position ⟨F.position_near hc.1, hc⟩

theorem failExpecting (label : String) :
    F.Steady k d e R (failExpecting label : Parser α) (Parser.failExpecting label) :=
  fun _ _ _ _ ↦ .failExpecting label

theorem bind {f f' : α → Parser β} (hp : F.Steady k d e R p p')
    (hf : ∀ a a', R a a' → F.Steady k e e' S (f a) (f' a')) :
    F.Steady k d e' S (p >>= f) (p' >>= f') := by
  intro c c' hc hk
  exact (hp c c' hc hk).bind fun a a' next next' hle h ↦
    hf a a' h.1 next next' h.2 (Nat.lt_of_le_of_lt hle.1.length_le hk)

theorem bind_eq {f f' : α → Parser β} (hp : F.Steady k d e Eq p p')
    (hf : ∀ a, F.Steady k e e' S (f a) (f' a)) : F.Steady k d e' S (p >>= f) (p' >>= f') :=
  hp.bind fun a _ h ↦ h ▸ hf a

theorem orElse (hp : F.Steady k d e R p p') (hq : F.Steady k d e R q q') :
    F.Steady k d e R (p <|> q) (p' <|> q') := fun c c' hc hk ↦
  (hp c c' hc hk).orElse (hq c c' hc hk)

theorem optional (h : F.Steady k d d R p p') :
    F.Steady k d d (Option.Rel R) (optional p) (Parser.optional p') := fun c c' hc hk ↦
  .optional ((h c c' hc hk).imp fun _ _ _ _ h ↦ ⟨.some h.1, h.2⟩) ⟨.none, hc⟩

theorem ahead {p p' : Parser Unit} (h : F.Sees d p p') :
    F.Steady k d d Eq (ahead p) (Parser.ahead p') := fun c c' hc _ ↦ (h c c' hc).ahead ⟨rfl, hc⟩

theorem notAhead {p p' : Parser Unit} (h : F.Sees d p p') :
    F.Steady k d d Eq (notAhead p) (Parser.notAhead p') := by
  intro c c' hc _
  refine (h c c' hc).notAhead fun _ ↦ ?_
  exact ⟨rfl, hc⟩

theorem ite {q q' : Parser α} {P : Prop} [Decidable P] (hp : F.Steady k d e R p p')
    (hq : F.Steady k d e R q q') :
    F.Steady k d e R (if P then p else q) (if P then p' else q') := by
  split <;> assumption

end Steady

namespace Firm

theorem fail : F.Firm k d e R (fail : Parser α) Parser.fail := fun _ _ _ _ ↦ .fail

theorem bind {f f' : α → Parser β} (hp : F.Firm (k + 1) d e R p p')
    (hf : ∀ a a', R a a' → F.Steady k e e' S (f a) (f' a')) :
    F.Firm (k + 1) d e' S (p >>= f) (p' >>= f') := by
  intro c c' hc hk
  refine (hp c c' hc hk).bind_nearer fun a a' mid mid' h hmid ↦ hf a a' h.1 mid mid' h.2 ?_
  have hlt := hmid.1
  omega

theorem after {f f' : α → Parser β} (hp : F.Steady k d e R p p')
    (hf : ∀ a a', R a a' → F.Firm k e e' S (f a) (f' a')) :
    F.Firm k d e' S (p >>= f) (p' >>= f') := by
  intro c c' hc hk
  refine (hp c c' hc hk).bind fun a a' mid mid' hle h ↦ ?_
  have hle₁ := hle.1.length_le
  have hle₂ := hle.2.length_le
  refine (hf a a' h.1 mid mid' h.2 (by omega)).imp fun b b' next next' h ↦ ⟨h.1, ?_⟩
  obtain ⟨hlt, hlt'⟩ := h.2
  exact ⟨by omega, by omega⟩

theorem bind_eq {f f' : α → Parser β} (hp : F.Firm (k + 1) d e Eq p p')
    (hf : ∀ a, F.Steady k e e' S (f a) (f' a)) : F.Firm (k + 1) d e' S (p >>= f) (p' >>= f') :=
  hp.bind fun a _ h ↦ h ▸ hf a

theorem after_eq {f f' : α → Parser β} (hp : F.Steady k d e Eq p p')
    (hf : ∀ a, F.Firm k e e' S (f a) (f' a)) : F.Firm k d e' S (p >>= f) (p' >>= f') :=
  after hp fun a _ h ↦ h ▸ hf a

theorem position_bind {f f' : Nat → Parser α}
    (h : ∀ n n', F.position n n' → F.Firm k d e R (f n) (f' n')) :
    F.Firm k d e R (position >>= f) (position >>= f') := after .position h

theorem orElse (hp : F.Firm k d e R p p') (hq : F.Firm k d e R q q') :
    F.Firm k d e R (p <|> q) (p' <|> q') := fun c c' hc hk ↦ (hp c c' hc hk).orElse (hq c c' hc hk)

theorem firstOf {ps ps' : List (Parser α)} (h : List.Forall₂ (F.Firm k d e R) ps ps') :
    F.Firm k d e R (firstOf ps) (Parser.firstOf ps') := by
  induction h with
  | nil => exact .fail
  | cons h _ ih => exact h.orElse ih

theorem firstOf_self {ps : List (Parser α)} (h : ∀ p ∈ ps, F.Firm k d e R p p) :
    F.Firm k d e R (Parser.firstOf ps) (Parser.firstOf ps) :=
  .firstOf (List.forall₂_same.mpr h)

theorem firstOf_map {ι : Type} {f f' : ι → Parser α} {is : List ι}
    (h : ∀ i ∈ is, F.Firm k d e R (f i) (f' i)) :
    F.Firm k d e R (Parser.firstOf (is.map f)) (Parser.firstOf (is.map f')) :=
  .firstOf (List.forall₂_map_left_iff.mpr (List.forall₂_map_right_iff.mpr
    (List.forall₂_same.mpr h)))

theorem textOf {p p' : Parser Unit} (h : F.Firm k d e Eq p p')
    (htext : Unmarked p) :
    F.Firm k d e F.text (textOf p) (Parser.textOf p') := by
  intro c c' hc hk
  have hread : Agree p p' c c' fun _ _ next next' ↦ F.At e next next' ∧ Nearer c c' next next' :=
    (h c c' hc hk).imp fun _ _ _ _ h ↦ ⟨h.1.2, h.2⟩
  refine hread.textOf.imp_matched fun _ _ _ _ _ _ hm _ ⟨htaken, h, hlt⟩ ↦ ?_
  exact ⟨⟨F.text_taken hc.1 h.1 htaken.1 htaken.2 (Consumes.textOf htext _ _ _ _ hm), h⟩, hlt⟩

end Firm

namespace Steady

theorem many (h : F.Firm k d d R p p') :
    F.Steady k d d (List.Forall₂ R) (many p) (Parser.many p') := by
  intro c c' hc hk
  have hstep (c c' : Cursor) (hc : F.At d c c' ∧ c.rest.length < k) :
      Agree p p' c c' fun a a' next next' ↦
        (R a a' ∧ F.At d next next' ∧ next.rest.length < k) ∧ Nearer c c' next next' :=
    (h c c' hc.1 hc.2).imp fun _ _ next next' h ↦
      ⟨⟨h.1.1, h.1.2, Nat.lt_trans h.2.1 hc.2⟩, h.2⟩
  exact (Agree.many hstep ⟨hc, hk⟩).imp fun _ _ _ _ h ↦ ⟨h.1, h.2.1⟩

theorem skipMany {p p' : Parser Unit} (h : F.Firm k d d Eq p p') :
    F.Steady k d d Eq (skipMany p) (Parser.skipMany p') := by
  intro c c' hc hk
  have hstep (c c' : Cursor) (hc : F.At d c c' ∧ c.rest.length < k) :
      Agree p p' c c' fun _ _ next next' ↦
        (F.At d next next' ∧ next.rest.length < k) ∧ Nearer c c' next next' :=
    (h c c' hc.1 hc.2).imp fun _ _ next next' h ↦
      ⟨⟨h.1.2, Nat.lt_trans h.2.1 hc.2⟩, h.2⟩
  exact (Agree.skipMany hstep ⟨hc, hk⟩).imp fun _ _ _ _ h ↦ ⟨rfl, h.1⟩

theorem foldMany {step step' : α → Parser α}
    (h : ∀ a a', R a a' → F.Firm k d d R (step a) (step' a')) {a a' : α} (ha : R a a') :
    F.Steady k d d R (foldMany step a) (Parser.foldMany step' a') := by
  intro c c' hc hk
  have hstep (a a' : α) (c c' : Cursor) (hc : (R a a' ∧ F.At d c c') ∧ c.rest.length < k) :
      Agree (step a) (step' a') c c' fun b b' next next' ↦
        ((R b b' ∧ F.At d next next') ∧ next.rest.length < k) ∧ Nearer c c' next next' :=
    (h a a' hc.1.1 c c' hc.1.2 hc.2).imp fun _ _ next next' h ↦
      ⟨⟨h.1, Nat.lt_trans h.2.1 hc.2⟩, h.2⟩
  exact (Agree.foldMany hstep ⟨⟨ha, hc⟩, hk⟩).imp fun _ _ _ _ h ↦ h.1

theorem sepBy1 {s s' : Parser Unit} (h : F.Steady k d d R p p')
    (hs : F.Firm (k + 1) d d Eq s s') :
    F.Steady k d d (List.Forall₂ R) (sepBy1 p s) (Parser.sepBy1 p' s') := by
  refine h.bind fun _ _ ha ↦ ?_
  refine .bind (.many (hs.bind_eq fun _ ↦ h).less) fun _ _ has ↦ ?_
  exact .pure (.cons ha has)

theorem sepBy {s s' : Parser Unit} (h : F.Steady k d d R p p')
    (hs : F.Firm (k + 1) d d Eq s s') :
    F.Steady k d d (List.Forall₂ R) (sepBy p s) (Parser.sepBy p' s') := by
  refine (h.sepBy1 hs).optional.bind fun _ _ hfound ↦ ?_
  cases hfound with
  | none => exact .pure .nil
  | some h => exact .pure h

end Steady

end Frame

end PhpInsight.Grammar

import PhpInsight.Proofs.Reading.Gives
import PhpInsight.Proofs.Span.Position

namespace PhpInsight.Peg

open Text

def Cursor.In (source : List Char) (c : Cursor) : Prop :=
  ∃ before, source = before ++ c.rest ∧ byteLength before = c.offset

theorem Cursor.In.boundary {source : List Char} {c : Cursor} (h : c.In source) :
    Boundary source c.offset := by
  obtain ⟨before, hs, hb⟩ := h
  exact ⟨before, c.rest, hs, hb⟩

/-- What comes next settles a position. -/
theorem Cursor.In.settled {source : List Char} {c : Cursor} (h : c.In source)
    (hrest : ∀ y ∈ c.rest.head?, y ∉ ['u', 'l']) : Settled source c.offset := by
  obtain ⟨before, rfl, hb⟩ := h
  exact hb ▸ settled_before hrest

theorem Cursor.In.next {source : List Char} {x : Char} {xs : List Char} {offset : Nat}
    (h : Cursor.In source ⟨x :: xs, offset⟩) : Cursor.In source ⟨xs, offset + x.utf8Size⟩ := by
  obtain ⟨before, rfl, rfl⟩ := h
  refine ⟨before ++ [x], by simp, ?_⟩
  simp [byteLength]

namespace Parser

variable {α β : Type} {source : List Char} {P : Nat → Prop}

/-- From a position with the one property a match leads to a position with the other. -/
def Leads (source : List Char) (P : Nat → Prop) (p : Parser α) (Q : α → Nat → Prop) : Prop :=
  ∀ c a next f, c.In source → P c.offset → p c = .matched a next f →
    next.In source ∧ Q a next.offset

namespace Leads

variable {p q : Parser α} {Q R : α → Nat → Prop}

theorem imp (h : Leads source P p Q) {P' : Nat → Prop} {Q' : α → Nat → Prop}
    (hp : ∀ n, P' n → P n) (hq : ∀ a n, Q a n → Q' a n) : Leads source P' p Q' := by
  intro c a next f hc hP hm
  obtain ⟨hnext, hQ⟩ := h c a next f hc (hp _ hP) hm
  exact ⟨hnext, hq _ _ hQ⟩

theorem pure (a : α) (h : ∀ n, Boundary source n → P n → Q a n) :
    Leads source P (pure a : Parser α) Q := by
  intro c b next f hc hP hm
  cases hm
  exact ⟨hc, h _ hc.boundary hP⟩

theorem bind_gives {f : α → Parser β} {Q : β → Nat → Prop} {K : α → Prop}
    (hp : Leads source P p R) (hgives : Gives p K)
    (hf : ∀ a, K a → Leads source (R a) (f a) Q) : Leads source P (p >>= f) Q := by
  intro c b next g hc hP hm
  obtain ⟨a, mid, g₁, g₂, hpa, hfa⟩ := bind_eq_matched hm
  obtain ⟨hmid, hR⟩ := hp c a mid g₁ hc hP hpa
  exact hf a (hgives c a mid g₁ hpa) mid b next g₂ hmid hR hfa

theorem bind {f : α → Parser β} {Q : β → Nat → Prop} (hp : Leads source P p R)
    (hf : ∀ a, Leads source (R a) (f a) Q) : Leads source P (p >>= f) Q :=
  hp.bind_gives (K := fun _ ↦ True) (fun _ _ _ _ _ ↦ trivial) fun a _ ↦ hf a

theorem orElse (hp : Leads source P p Q) (hq : Leads source P q Q) :
    Leads source P (p <|> q) Q := by
  intro c a next g hc hP hm
  obtain ⟨g', hm | hm⟩ := orElse_eq_matched hm
  · exact hp c a next g' hc hP hm
  · exact hq c a next g' hc hP hm

theorem fail : Leads source P (fail : Parser α) Q := by
  intro c a next f _ _ hm
  cases hm

theorem failExpecting (label : String) : Leads source P (failExpecting label : Parser α) Q := by
  intro c a next f _ _ hm
  cases hm

theorem firstOf {ps : List (Parser α)} (h : ∀ p ∈ ps, Leads source P p Q) :
    Leads source P (firstOf ps) Q := by
  induction ps with
  | nil => exact .fail
  | cons p ps ih =>
    exact .orElse (h p List.mem_cons_self) (ih fun p hp ↦ h p (List.mem_cons_of_mem _ hp))

theorem position {f : Nat → Parser α}
    (h : ∀ n, Boundary source n → P n → Leads source (· = n) (f n) Q) :
    Leads source P (position >>= f) Q := by
  have hpos : Leads source P Parser.position fun a n ↦ (Boundary source n ∧ P n) ∧ a = n := by
    intro c a next g hc hP hm
    cases hm
    exact ⟨hc, ⟨hc.boundary, hP⟩, rfl⟩
  refine hpos.bind fun a ↦ ?_
  intro c b next g hc ⟨⟨hb, hP⟩, ha⟩ hm
  subst ha
  exact h _ hb hP c b next g hc rfl hm

theorem stop {f : Nat → α} (h : ∀ n, Boundary source n → P n → Q (f n) n) :
    Leads source P (Parser.position >>= fun n ↦ Pure.pure (f n)) Q :=
  position fun n hb hP ↦ .pure _ fun m _ hm ↦ by
    subst hm
    exact h _ hb hP

theorem optional (h : Leads source P p Q) :
    Leads source P (optional p) fun o n ↦ match o with
      | some a => Q a n
      | none => P n := by
  intro c a next f hc hP hm
  unfold Parser.optional at hm
  cases hpc : p c with
  | matched b mid g =>
    simp only [hpc] at hm
    cases hm
    exact h c _ _ _ hc hP hpc
  | failed g =>
    simp only [hpc] at hm
    cases hm
    exact ⟨hc, hP⟩

theorem quiet (h : Leads source P p Q) : Leads source P (quiet p) Q := by
  intro c a next f hc hP hm
  unfold Parser.quiet at hm
  cases hpc : p c with
  | failed g => simp [hpc] at hm
  | matched b mid g =>
    simp only [hpc] at hm
    cases hm
    exact h c _ _ _ hc hP hpc

theorem ahead (p : Parser Unit) : Leads source P (ahead p) fun _ ↦ P := by
  intro c a next f hc hP hm
  unfold Parser.ahead at hm
  cases hpc : p c with
  | failed g => simp [hpc] at hm
  | matched b mid g =>
    simp only [hpc] at hm
    cases hm
    exact ⟨hc, hP⟩

theorem notAhead (p : Parser Unit) : Leads source P (notAhead p) fun _ ↦ P := by
  intro c a next f hc hP hm
  unfold Parser.notAhead at hm
  cases hpc : p c with
  | matched b mid g => simp [hpc] at hm
  | failed g =>
    simp only [hpc] at hm
    cases hm
    exact ⟨hc, hP⟩

theorem textOf {p : Parser Unit} {Q : Nat → Prop} (h : Leads source P p fun _ ↦ Q) :
    Leads source P (textOf p) fun _ ↦ Q := by
  intro c a next f hc hP hm
  unfold Parser.textOf at hm
  cases hpc : p c with
  | failed g => simp [hpc] at hm
  | matched b mid g =>
    simp only [hpc] at hm
    cases hm
    exact h c _ _ _ hc hP hpc

theorem foldMany {I : α → Nat → Prop} {step : α → Parser α}
    (h : ∀ a, Leads source (I a) (step a) I) (a : α) :
    Leads source (I a) (foldMany step a) I := by
  have hfrom : ∀ fuel a, Leads source (I a) (foldManyFrom step fuel a) I := by
    intro fuel
    induction fuel with
    | nil =>
      intro a c b next f hc hI hm
      unfold foldManyFrom at hm
      cases hs : step a c with
      | failed g =>
        simp only [hs] at hm
        cases hm
        exact ⟨hc, hI⟩
      | matched a' mid g =>
        simp only [hs] at hm
        cases hm
        exact h a c _ _ _ hc hI hs
    | cons x fuel ih =>
      intro a c b next f hc hI hm
      unfold foldManyFrom at hm
      cases hs : step a c with
      | failed g =>
        simp only [hs] at hm
        cases hm
        exact ⟨hc, hI⟩
      | matched a' mid g =>
        obtain ⟨hmid, hI'⟩ := h a c a' mid g hc hI hs
        cases hr : foldManyFrom step fuel a' mid with
        | failed g' => simp [hs, hr, Outcome.withFailures] at hm
        | matched b' next' g' =>
          simp only [hs, hr, Outcome.withFailures] at hm
          cases hm
          exact ih a' mid _ _ _ hmid hI' hr
  exact fun c b next f hc hI hm ↦ hfrom c.rest a c b next f hc hI hm

theorem skipMany {p : Parser Unit} (h : Leads source P p fun _ ↦ P) :
    Leads source P (skipMany p) fun _ ↦ P := by
  have hfrom : ∀ fuel f c, c.In source → P c.offset → ∀ a next g,
      skipManyFrom p fuel f c = .matched a next g → next.In source ∧ P next.offset := by
    intro fuel
    induction fuel with
    | nil =>
      intro f c hc hP a next g hm
      unfold skipManyFrom at hm
      cases hpc : p c with
      | failed g' =>
        simp only [hpc] at hm
        cases hm
        exact ⟨hc, hP⟩
      | matched a' mid g' =>
        simp only [hpc] at hm
        cases hm
        exact h c _ _ _ hc hP hpc
    | cons x fuel ih =>
      intro f c hc hP a next g hm
      unfold skipManyFrom at hm
      cases hpc : p c with
      | failed g' =>
        simp only [hpc] at hm
        cases hm
        exact ⟨hc, hP⟩
      | matched a' mid g' =>
        obtain ⟨hmid, hP'⟩ := h c a' mid g' hc hP hpc
        simp only [hpc] at hm
        exact ih _ mid hmid hP' a next g hm
  exact fun c a next f hc hP hm ↦ hfrom c.rest _ c hc hP a next f hm

end Leads

def Shrinks (p : Parser α) : Prop :=
  ∀ c a next f, p c = .matched a next f → next.rest.length < c.rest.length

theorem shrinks_oneOf (k : CharClass) : Shrinks (oneOf k) := by
  rintro ⟨rest, offset⟩ a next f hm
  unfold oneOf at hm
  cases rest with
  | nil => cases hm
  | cons x xs =>
    simp only at hm
    split at hm
    · cases hm
      simp
    · cases hm

theorem Shrinks.orElse {p q : Parser α} (hp : Shrinks p) (hq : Shrinks q) :
    Shrinks (p <|> q) := by
  intro c a next f hm
  change Parser.orElse p (fun _ ↦ q) c = _ at hm
  unfold Parser.orElse at hm
  cases hpc : p c with
  | matched a' next' g =>
    simp only [hpc] at hm
    cases hm
    exact hp c _ _ _ hpc
  | failed g =>
    cases hqc : q c with
    | failed g' => simp [hpc, hqc, Outcome.withFailures] at hm
    | matched a' next' g' =>
      simp only [hpc, hqc, Outcome.withFailures] at hm
      cases hm
      exact hq c _ _ _ hqc

theorem notAhead_bind (p : Parser Unit) (q : Parser α) (c : Cursor) :
    (notAhead p >>= fun _ ↦ q) c = match p c with
      | .matched _ _ _ => .failed .none
      | .failed _ => (q c).withFailures .none := by
  change Parser.bind (notAhead p) (fun _ ↦ q) c = _
  unfold Parser.bind notAhead
  cases p c <;> rfl

theorem Shrinks.unless {q : Parser α} (hq : Shrinks q) (p : Parser Unit) :
    Shrinks (notAhead p >>= fun _ ↦ q) := by
  intro c a next f hm
  rw [notAhead_bind] at hm
  split at hm
  · cases hm
  · cases hqc : q c with
    | failed g => simp [hqc, Outcome.withFailures] at hm
    | matched a' next' g =>
      simp only [hqc, Outcome.withFailures] at hm
      cases hm
      exact hq c _ _ _ hqc

theorem Shrinks.skipMany {p : Parser Unit} (hp : Shrinks p) {c next : Cursor} {a : Unit}
    {f : Failures} (hm : skipMany p c = .matched a next f) : ∃ g, p next = .failed g := by
  have hfrom : ∀ fuel f c, c.rest.length ≤ fuel.length → ∀ a next g,
      skipManyFrom p fuel f c = .matched a next g → ∃ g, p next = .failed g := by
    intro fuel
    induction fuel with
    | nil =>
      intro f c hlen a next g hm
      unfold skipManyFrom at hm
      cases hpc : p c with
      | failed g' =>
        simp only [hpc] at hm
        cases hm
        exact ⟨g', hpc⟩
      | matched a' mid g' =>
        have hlt := hp c a' mid g' hpc
        simp only [List.length_nil] at hlen
        omega
    | cons x fuel ih =>
      intro f c hlen a next g hm
      unfold skipManyFrom at hm
      cases hpc : p c with
      | failed g' =>
        simp only [hpc] at hm
        cases hm
        exact ⟨g', hpc⟩
      | matched a' mid g' =>
        have hlt := hp c a' mid g' hpc
        simp only [hpc] at hm
        simp only [List.length_cons] at hlen
        exact ih _ mid (by omega) a next g hm
  exact hfrom c.rest .none c (Nat.le_refl _) a next f hm

end Parser

end PhpInsight.Peg

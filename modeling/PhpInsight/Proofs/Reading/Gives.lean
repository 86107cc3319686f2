import PhpInsight.Peg.Basic

namespace PhpInsight.Peg.Parser

open Text

variable {α β : Type} {p q : Parser α} {Q : α → Prop}

theorem bind_eq_matched {f : α → Parser β} {c next : Cursor} {b : β} {g : Failures}
    (h : (p >>= f) c = .matched b next g) :
    ∃ a mid g₁ g₂, p c = .matched a mid g₁ ∧ f a mid = .matched b next g₂ := by
  change Parser.bind p f c = _ at h
  unfold Parser.bind at h
  cases hp : p c with
  | failed g₁ => simp [hp] at h
  | matched a mid g₁ =>
    cases hf : f a mid with
    | failed g₂ => simp [hp, hf, Outcome.withFailures] at h
    | matched b' next' g₂ =>
      simp only [hp, hf, Outcome.withFailures] at h
      cases h
      exact ⟨a, mid, g₁, g₂, rfl, hf⟩

theorem orElse_eq_matched {c next : Cursor} {a : α} {g : Failures}
    (h : (p <|> q) c = .matched a next g) :
    ∃ g', p c = .matched a next g' ∨ q c = .matched a next g' := by
  change Parser.orElse p (fun _ ↦ q) c = _ at h
  unfold Parser.orElse at h
  cases hp : p c with
  | matched a' next' g₁ =>
    simp only [hp] at h
    cases h
    exact ⟨g, .inl rfl⟩
  | failed g₁ =>
    cases hq : q c with
    | failed g₂ => simp [hp, hq, Outcome.withFailures] at h
    | matched a' next' g₂ =>
      simp only [hp, hq, Outcome.withFailures] at h
      cases h
      exact ⟨g₂, .inr rfl⟩

/-- Every value that a parser gives has a property. -/
def Gives (p : Parser α) (Q : α → Prop) : Prop := ∀ c a next f, p c = .matched a next f → Q a

namespace Gives

theorem imp {R : α → Prop} (h : Gives p Q) (hQ : ∀ a, Q a → R a) : Gives p R :=
  fun c a next f hm ↦ hQ a (h c a next f hm)

theorem pure {a : α} (h : Q a) : Gives (pure a : Parser α) Q := by
  intro c b next f hm
  cases hm
  exact h

theorem bind {f : α → Parser β} {R : β → Prop} (hp : Gives p Q)
    (hf : ∀ a, Q a → Gives (f a) R) : Gives (p >>= f) R := by
  intro c b next g hm
  obtain ⟨a, mid, g₁, g₂, hpa, hfa⟩ := bind_eq_matched hm
  exact hf a (hp c a mid g₁ hpa) mid b next g₂ hfa

theorem after {f : α → Parser β} {R : β → Prop} (hf : ∀ a, Gives (f a) R) : Gives (p >>= f) R :=
  bind (Q := fun _ ↦ True) (fun _ _ _ _ _ ↦ trivial) fun a _ ↦ hf a

theorem orElse (hp : Gives p Q) (hq : Gives q Q) : Gives (p <|> q) Q := by
  intro c a next g hm
  obtain ⟨g', hm | hm⟩ := orElse_eq_matched hm
  · exact hp c a next g' hm
  · exact hq c a next g' hm

theorem fail : Gives (fail : Parser α) Q := by
  intro c a next f hm
  cases hm

theorem optional (h : Gives p Q) : Gives (optional p) fun o ↦ ∀ a ∈ o, Q a := by
  intro c o next f hm a ha
  unfold Parser.optional at hm
  cases hp : p c with
  | failed g =>
    simp only [hp] at hm
    cases hm
    cases ha
  | matched b mid g =>
    simp only [hp] at hm
    cases hm
    cases ha
    exact h c a _ _ hp

theorem many (h : Gives p Q) : Gives (many p) fun as ↦ ∀ a ∈ as, Q a := by
  have hfrom : ∀ fuel, Gives (manyFrom p fuel) fun as ↦ ∀ a ∈ as, Q a := by
    intro fuel
    induction fuel with
    | nil =>
      intro c as next f hm
      unfold manyFrom at hm
      cases hp : p c with
      | failed g =>
        simp only [hp] at hm
        cases hm
        exact fun a ha ↦ by cases ha
      | matched b mid g =>
        simp only [hp] at hm
        cases hm
        intro a ha
        rw [List.mem_singleton.mp ha]
        exact h c b _ _ hp
    | cons x fuel ih =>
      intro c as next f hm
      unfold manyFrom at hm
      cases hp : p c with
      | failed g =>
        simp only [hp] at hm
        cases hm
        exact fun a ha ↦ by cases ha
      | matched b mid g =>
        cases hr : manyFrom p fuel mid with
        | failed g' => simp [hp, hr] at hm
        | matched bs last g' =>
          simp only [hp, hr] at hm
          cases hm
          exact List.forall_mem_cons.mpr ⟨h c b _ _ hp, ih mid bs _ _ hr⟩
  exact fun c as next f hm ↦ hfrom c.rest c as next f hm

theorem sepBy1 {separator : Parser Unit} (h : Gives p Q) :
    Gives (sepBy1 p separator) fun as ↦ ∀ a ∈ as, Q a :=
  .bind h fun _ ha ↦ .bind (.many (.after fun _ ↦ h)) fun _ has ↦
    .pure (List.forall_mem_cons.mpr ⟨ha, has⟩)

end Gives

/-- What a parser takes is a text with a property. -/
def Consumes (p : Parser α) (K : List Char → Prop) : Prop :=
  ∀ c a next f, p c = .matched a next f →
    ∃ cs, c.rest = cs ++ next.rest ∧ next.offset = c.offset + byteLength cs ∧ K cs

namespace Consumes

variable {K L : List Char → Prop}

theorem imp (h : Consumes p K) (hK : ∀ cs, K cs → L cs) : Consumes p L := by
  intro c a next f hm
  obtain ⟨cs, hrest, hoffset, hcs⟩ := h c a next f hm
  exact ⟨cs, hrest, hoffset, hK cs hcs⟩

theorem oneOf (k : CharClass) :
    Consumes (oneOf k) fun cs ↦ ∃ x, cs = [x] ∧ k.contains x = true := by
  rintro ⟨rest, offset⟩ a next f hm
  unfold Parser.oneOf at hm
  cases rest with
  | nil => cases hm
  | cons x xs =>
    simp only at hm
    split at hm
    · rename_i hx
      cases hm
      exact ⟨[x], rfl, by simp [byteLength], x, rfl, hx⟩
    · cases hm

theorem orElse (hp : Consumes p K) (hq : Consumes q K) : Consumes (p <|> q) K := by
  intro c a next g hm
  obtain ⟨g', hm | hm⟩ := orElse_eq_matched hm
  · exact hp c a next g' hm
  · exact hq c a next g' hm

theorem bind {f : α → Parser β} (hp : Consumes p K) (hf : ∀ a, Consumes (f a) L) :
    Consumes (p >>= f) fun cs ↦ ∃ ds es, cs = ds ++ es ∧ K ds ∧ L es := by
  intro c b next g hm
  obtain ⟨a, mid, g₁, g₂, hpa, hfa⟩ := bind_eq_matched hm
  obtain ⟨ds, hds, hmid, hK⟩ := hp c a mid g₁ hpa
  obtain ⟨es, hes, hnext, hL⟩ := hf a mid b next g₂ hfa
  refine ⟨ds ++ es, ?_, ?_, ds, es, rfl, hK, hL⟩
  · rw [hds, hes, List.append_assoc]
  · rw [hnext, hmid, byteLength_append, Nat.add_assoc]

theorem skipMany {p : Parser Unit} {k : Char → Prop} (h : Consumes p fun cs ↦ ∀ x ∈ cs, k x) :
    Consumes (skipMany p) fun cs ↦ ∀ x ∈ cs, k x := by
  have hnone (c : Cursor) : ∃ cs, c.rest = cs ++ c.rest ∧ c.offset = c.offset + byteLength cs ∧
      ∀ x ∈ cs, k x := ⟨[], rfl, rfl, fun _ hx ↦ by cases hx⟩
  have hfrom : ∀ fuel f c a next g, skipManyFrom p fuel f c = .matched a next g →
      ∃ cs, c.rest = cs ++ next.rest ∧ next.offset = c.offset + byteLength cs ∧ ∀ x ∈ cs, k x := by
    intro fuel
    induction fuel with
    | nil =>
      intro f c a next g hm
      unfold skipManyFrom at hm
      cases hp : p c with
      | failed g' =>
        simp only [hp] at hm
        cases hm
        exact hnone c
      | matched b mid g' =>
        simp only [hp] at hm
        cases hm
        exact h c b _ _ hp
    | cons y fuel ih =>
      intro f c a next g hm
      unfold skipManyFrom at hm
      cases hp : p c with
      | failed g' =>
        simp only [hp] at hm
        cases hm
        exact hnone c
      | matched b mid g' =>
        simp only [hp] at hm
        obtain ⟨ds, hds, hmid, hk⟩ := h c b _ _ hp
        obtain ⟨es, hes, hnext, hk'⟩ := ih _ mid a next g hm
        refine ⟨ds ++ es, ?_, ?_, ?_⟩
        · rw [hds, hes, List.append_assoc]
        · rw [hnext, hmid, byteLength_append, Nat.add_assoc]
        · exact List.forall_mem_append.mpr ⟨hk, hk'⟩
  exact fun c a next f hm ↦ hfrom c.rest .none c a next f hm

theorem takeBytes_byteLength (cs ds : List Char) : takeBytes (byteLength cs) (cs ++ ds) = cs :=
  List.append_cancel_right (takeBytes_of_dropBytes? (dropBytes?_append cs ds)).1

theorem textOf {p : Parser Unit} (h : Consumes p K) : Gives (textOf p) fun s ↦ K s.toList := by
  intro c s next f hm
  unfold Parser.textOf at hm
  cases hp : p c with
  | failed g => simp [hp] at hm
  | matched a mid g =>
    simp only [hp] at hm
    obtain ⟨cs, hrest, hoffset, hK⟩ := h c a mid g hp
    cases hm
    rw [hoffset, Nat.add_sub_cancel_left, hrest, takeBytes_byteLength, String.toList_ofList]
    exact hK

end Consumes

end PhpInsight.Peg.Parser

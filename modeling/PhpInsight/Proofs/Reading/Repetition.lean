import PhpInsight.Peg.Basic

namespace PhpInsight.Peg.Parser

variable {α : Type} {p : Parser α} {k : Nat}

/-- A parser takes characters of texts shorter than `k`. -/
def TakesBelow (k : Nat) (p : Parser α) : Prop := ∀ c a next f, c.rest.length < k →
  p c = .matched a next f → next.rest.length < c.rest.length

theorem many_stops (hp : TakesBelow k p) {c : Cursor} (hc : c.rest.length < k) :
    ∃ as next f g, many p c = .matched as next f ∧ p next = .failed g := by
  have hfrom (fuel : List Char) (c : Cursor) (hc : c.rest.length < k)
      (hle : c.rest.length ≤ fuel.length) :
      ∃ as next f g, manyFrom p fuel c = .matched as next f ∧ p next = .failed g := by
    induction fuel generalizing c with
    | nil =>
      unfold manyFrom
      cases hm : p c with
      | failed g => exact ⟨_, _, _, g, rfl, hm⟩
      | matched a next f =>
        have hlt := hp _ _ _ _ hc hm
        exact absurd (Nat.lt_of_lt_of_le hlt hle) (Nat.not_lt_zero _)
    | cons x fuel ih =>
      unfold manyFrom
      cases hm : p c with
      | failed g => exact ⟨_, _, _, g, rfl, hm⟩
      | matched a next f =>
        have hlt := hp _ _ _ _ hc hm
        obtain ⟨as, last, f', g, hr, hlast⟩ := ih next (Nat.lt_trans hlt hc)
          (Nat.le_of_lt_succ (Nat.lt_of_lt_of_le hlt hle))
        exact ⟨a :: as, last, f.merge f', g, by simp only [hr], hlast⟩
  exact hfrom c.rest c hc (Nat.le_refl _)

theorem manyFrom_eq (hp : TakesBelow k p) {fuel : List Char} {c : Cursor} (hc : c.rest.length < k)
    (hle : c.rest.length ≤ fuel.length) : manyFrom p fuel c = many p c := by
  have hfrom (fuel fuel' : List Char) (c : Cursor) (hc : c.rest.length < k)
      (hle : c.rest.length ≤ fuel.length) (hle' : c.rest.length ≤ fuel'.length) :
      manyFrom p fuel c = manyFrom p fuel' c := by
    induction fuel generalizing fuel' c with
    | nil =>
      unfold manyFrom
      cases hm : p c with
      | failed g => rfl
      | matched a next f =>
        have hlt := hp _ _ _ _ hc hm
        exact absurd (Nat.lt_of_lt_of_le hlt hle) (Nat.not_lt_zero _)
    | cons x fuel ih =>
      unfold manyFrom
      cases hm : p c with
      | failed g => rfl
      | matched a next f =>
        have hlt := hp _ _ _ _ hc hm
        cases fuel' with
        | nil => exact absurd (Nat.lt_of_lt_of_le hlt hle') (Nat.not_lt_zero _)
        | cons x' fuel' =>
          simp only
          rw [ih fuel' next (Nat.lt_trans hlt hc) (Nat.le_of_lt_succ (Nat.lt_of_lt_of_le hlt hle))
            (Nat.le_of_lt_succ (Nat.lt_of_lt_of_le hlt hle'))]
  exact hfrom fuel c.rest c hc hle (Nat.le_refl _)

theorem many_eq_cons (hp : TakesBelow k p) {c next : Cursor} (hc : c.rest.length < k) {a : α}
    {as : List α} {f : Failures} (h : many p c = .matched (a :: as) next f) :
    ∃ mid f₁ f₂, p c = .matched a mid f₁ ∧ many p mid = .matched as next f₂ := by
  rw [many] at h
  cases hm : p c with
  | failed g =>
    unfold manyFrom at h
    simp only [hm] at h
    cases h
  | matched b mid g =>
    have hlt := hp _ _ _ _ hc hm
    cases hrest : c.rest with
    | nil => exact absurd (hrest ▸ hlt) (Nat.not_lt_zero _)
    | cons x xs =>
      have hle : mid.rest.length ≤ xs.length := Nat.le_of_lt_succ (by simpa [hrest] using hlt)
      rw [hrest] at h
      unfold manyFrom at h
      simp only [hm, manyFrom_eq hp (Nat.lt_trans hlt hc) hle] at h
      cases hr : many p mid with
      | failed g' =>
        rw [hr] at h
        cases h
      | matched bs last g' =>
        rw [hr] at h
        cases h
        exact ⟨mid, g, g', rfl, hr⟩

/-- Where a repetition comes to one of its matches, what holds behind each of the matches before. -/
theorem many_split (hp : TakesBelow k p) {I : Cursor → Prop}
    (hI : ∀ c a next f, I c → p c = .matched a next f → I next) {c next : Cursor} (hc : I c)
    (hk : c.rest.length < k) {before after : List α} {a : α} {f : Failures}
    (h : many p c = .matched (before ++ a :: after) next f) :
    ∃ c₁ mid f₁ f₂, I c₁ ∧ c₁.rest.length ≤ c.rest.length ∧ p c₁ = .matched a mid f₁ ∧
      many p mid = .matched after next f₂ := by
  induction before generalizing c f with
  | nil =>
    obtain ⟨mid, f₁, f₂, hm, hmany⟩ := many_eq_cons hp hk h
    exact ⟨c, mid, f₁, f₂, hc, Nat.le_refl _, hm, hmany⟩
  | cons b before ih =>
    obtain ⟨c₂, g₁, g₂, hm, hmany⟩ := many_eq_cons hp hk h
    have hlt := hp _ _ _ _ hk hm
    obtain ⟨c₁, mid, f₁, f₂, hc₁, hle, hfound⟩ :=
      ih (hI _ _ _ _ hc hm) (Nat.lt_trans hlt hk) hmany
    exact ⟨c₁, mid, f₁, f₂, hc₁, Nat.le_trans hle (Nat.le_of_lt hlt), hfound⟩

end PhpInsight.Peg.Parser

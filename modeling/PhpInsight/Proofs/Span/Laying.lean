import PhpInsight.Proofs.Span.Layout
import PhpInsight.Proofs.Span.Reading

namespace PhpInsight.Peg.Parser

open Text

variable {α β : Type} {source : List Char}

def Moves (source : List Char) (p : Parser α) : Prop :=
  ∀ lo, Leads source (lo ≤ ·) p fun _ n ↦ lo ≤ n

/-- From a settled position to a settled one. -/
def Reads (source : List Char) (p : Parser α) : Prop :=
  ∀ lo, Leads source (fun n ↦ lo ≤ n ∧ Settled source n) p fun _ n ↦ lo ≤ n ∧ Settled source n

def Takes (source : List Char) (p : Parser α) : Prop :=
  ∀ lo, Leads source (lo ≤ ·) p fun _ n ↦ lo < n ∧ Settled source n

def Lays (source : List Char) (p : Parser α) (nodes : α → List Node) : Prop :=
  ∀ lo, Leads source (Laid source lo · []) p fun a n ↦ Laid source lo n (nodes a)

/-- Nodes with something else around them. -/
def Covers (source : List Char) (p : Parser α) (nodes : α → List Node) : Prop :=
  ∀ lo, Leads source (Laid source lo · []) p fun a n ↦ Within source lo n (nodes a)

variable {p q : Parser α} {nodes : α → List Node} {lo : Nat} {ns : List Node}

theorem Takes.reads (h : Takes source p) : Reads source p := by
  intro lo
  refine (h lo).imp (fun _ h ↦ h.1) fun _ _ h ↦ ?_
  exact ⟨Nat.le_of_lt h.1, h.2⟩

theorem Takes.moves (h : Takes source p) : Moves source p := by
  intro lo
  refine (h lo).imp (fun _ h ↦ h) fun _ _ h ↦ ?_
  exact Nat.le_of_lt h.1

theorem Lays.laid (h : Lays source p nodes) :
    Leads source (Laid source lo · ns) p fun a n ↦ Laid source lo n (ns ++ nodes a) := by
  intro c a next f hc hP hm
  obtain ⟨hnext, hlaid⟩ := h c.offset c a next f hc (.nil hc.boundary (Nat.le_refl _) hP.settled) hm
  exact ⟨hnext, hP.append hlaid⟩

theorem Lays.within (h : Lays source p nodes) :
    Leads source (Within source lo · ns) p fun a n ↦ Within source lo n (ns ++ nodes a) := by
  intro c a next f hc hP hm
  obtain ⟨hnext, hlaid⟩ := h c.offset c a next f hc (.nil hc.boundary (Nat.le_refl _) hP.settled) hm
  exact ⟨hnext, hP.append hlaid⟩

theorem Covers.lays (h : Covers source p nodes) : Lays source p nodes := by
  intro lo
  refine (h lo).imp (fun _ h ↦ h) fun _ _ h ↦ ?_
  exact h.toLaid

theorem Covers.within (h : Covers source p nodes) :
    Leads source (Laid source lo · ns) p fun a n ↦ Within source lo n (ns ++ nodes a) := by
  intro c a next f hc hP hm
  have hnil := Laid.nil hc.boundary (Nat.le_refl _) hP.settled
  obtain ⟨hnext, hwithin⟩ := h c.offset c a next f hc hnil hm
  exact ⟨hnext, hP.append_within hwithin⟩

theorem Lays.upTo {node : α → Node} (h : Lays source p fun a ↦ [node a]) :
    Leads source (Within source lo · ns) p fun a n ↦
      Within source lo (node a).span.stop (ns ++ [node a]) ∧ (node a).Formed source ∧
        (node a).span.stop ≤ n ∧ Settled source n := by
  intro c a next f hc hP hm
  obtain ⟨hnext, hlaid⟩ := h c.offset c a next f hc (.nil hc.boundary (Nat.le_refl _) hP.settled) hm
  exact ⟨hnext, hP.upTo hlaid, hlaid.head, (hlaid.mem List.mem_cons_self).2.2, hlaid.settled⟩

theorem Lays.reads (h : Lays source p nodes) : Reads source p := by
  intro lo c a next f hc hP hm
  obtain ⟨hnext, hlaid⟩ := h c.offset c a next f hc (.nil hc.boundary (Nat.le_refl _) hP.2) hm
  exact ⟨hnext, Nat.le_trans hP.1 hlaid.le, hlaid.settled⟩

theorem Reads.lays (h : Reads source p) : Lays source p fun _ ↦ [] := by
  intro lo c a next f hc hP hm
  obtain ⟨hnext, hle, hsettled⟩ := h lo c a next f hc ⟨hP.le, hP.settled⟩ hm
  exact ⟨hnext, .nil hP.start hle hsettled⟩

theorem Reads.laid (h : Reads source p) :
    Leads source (Laid source lo · ns) p fun _ n ↦ Laid source lo n ns :=
  h.lays.laid.imp (fun _ h ↦ h) fun _ _ h ↦ by simpa using h

theorem Reads.within (h : Reads source p) :
    Leads source (Within source lo · ns) p fun _ n ↦ Within source lo n ns :=
  h.lays.within.imp (fun _ h ↦ h) fun _ _ h ↦ by simpa using h

theorem Takes.within (h : Takes source p) :
    Leads source (Laid source lo · ns) p fun _ n ↦ Within source lo n ns := by
  intro c a next f hc hP hm
  obtain ⟨hnext, hlt, hsettled⟩ := h c.offset c a next f hc (Nat.le_refl _) hm
  exact ⟨hnext, hP.within hlt hsettled⟩

theorem Lays.congr {nodes' : α → List Node} (h : Lays source p nodes)
    (he : ∀ a, nodes a = nodes' a) : Lays source p nodes' := by
  rw [← funext he]
  exact h

theorem Lays.keepDollar (h : Lays source p nodes) :
    Leads source (fun n ↦ Within source lo n ns ∧ Dollar source ⟨lo, n⟩) p fun a n ↦
      Within source lo n (ns ++ nodes a) ∧ Dollar source ⟨lo, n⟩ := by
  intro c a next f hc ⟨hP, hd⟩ hm
  obtain ⟨hnext, hwithin⟩ := h.within c a next f hc hP hm
  obtain ⟨_, hle, _⟩ := h.reads c.offset c a next f hc ⟨Nat.le_refl _, hP.settled⟩ hm
  exact ⟨hnext, hwithin, hd.mono (Nat.le_refl _) hle⟩

theorem Lays.spanned {f : Nat → Parser α}
    (h : ∀ start, Leads source (Laid source start · []) (f start) fun a n ↦
      Laid source start n (nodes a)) : Lays source (position >>= f) nodes := by
  intro lo
  refine .position fun start hstart hlo ↦ ?_
  refine (h start).imp ?_ fun a n hn ↦ ?_
  · rintro n rfl
    exact .nil hstart (Nat.le_refl _) hlo.settled
  · have hlaid := hlo.append hn
    simpa using hlaid

theorem oneOf_leads (k : CharClass) (lo : Nat) :
    Leads source (lo ≤ ·) (oneOf k) fun _ n ↦ lo < n := by
  rintro ⟨rest, offset⟩ a next f hc hP hm
  unfold oneOf at hm
  cases rest with
  | nil => cases hm
  | cons x xs =>
    simp only at hm
    split at hm
    · cases hm
      have hpos := x.utf8Size_pos
      simp only at hP
      exact ⟨hc.next, by simp only; omega⟩
    · cases hm

theorem moves_oneOf (k : CharClass) : Moves source (oneOf k) := by
  intro lo
  refine (oneOf_leads k lo).imp (fun _ h ↦ h) fun _ _ h ↦ ?_
  exact Nat.le_of_lt h

theorem takes_oneOf {k : CharClass} (h : ['n', 'u', 'l'].any k.contains = false) :
    Takes source (oneOf k) := by
  rintro lo ⟨rest, offset⟩ a next f hc hP hm
  unfold oneOf at hm
  cases rest with
  | nil => cases hm
  | cons x xs =>
    simp only at hm
    split at hm
    · rename_i hx
      cases hm
      have hpos := x.utf8Size_pos
      simp only at hP
      refine ⟨hc.next, by simp only; omega, ?_⟩
      obtain ⟨before, rfl, rfl⟩ := hc
      exact settled_behind fun hmem ↦ List.any_eq_false.mp h x hmem hx
    · cases hm

theorem dropText?_eq_some {text : List Char} {c next : Cursor}
    (h : Cursor.dropText? text c = some next) :
    c.rest = text ++ next.rest ∧ next.offset = c.offset + byteLength text := by
  induction text generalizing c with
  | nil =>
    cases h
    exact ⟨rfl, rfl⟩
  | cons t ts ih =>
    obtain ⟨rest, offset⟩ := c
    unfold Cursor.dropText? at h
    cases rest with
    | nil => cases h
    | cons x xs =>
      simp only at h
      split at h
      · rename_i hx
        subst hx
        obtain ⟨hrest, hlen⟩ := ih h
        refine ⟨congrArg (x :: ·) hrest, ?_⟩
        simp only [byteLength] at hlen ⊢
        omega
      · cases h

theorem dropText?_eq_none {text : List Char} {c : Cursor} (h : ¬ text <+: c.rest) :
    Cursor.dropText? text c = none :=
  Option.eq_none_iff_forall_ne_some.mpr fun next hnext ↦
    h ⟨next.rest, (dropText?_eq_some hnext).1.symm⟩

theorem literal_eq_matched {text : String} {c next : Cursor} {a : Unit} {f : Failures}
    (h : literal text c = .matched a next f) : c.dropText? text.toList = some next := by
  unfold literal at h
  split at h
  · cases h
    assumption
  · cases h

theorem takes_literal {text : String} (h : isSign text = true) : Takes source (literal text) := by
  intro lo c a next f hc hP hm
  obtain ⟨hrest, hlen⟩ := dropText?_eq_some (literal_eq_matched hm)
  obtain ⟨before, rfl, hb⟩ := hc
  obtain ⟨x, hx, hlast⟩ := (Option.any_eq_true _ _).mp h
  obtain ⟨init, hinit⟩ := List.getLast?_eq_some_iff.mp hx
  rw [hinit, byteLength_append] at hlen
  rw [hrest, hinit]
  have hpos := x.utf8Size_pos
  simp only [byteLength] at hlen
  refine ⟨⟨before ++ (init ++ [x]), by simp, ?_⟩, by omega, ?_⟩
  · simp only [byteLength_append, byteLength]
    omega
  · have hsettled : Settled (before ++ init ++ x :: next.rest)
        (byteLength (before ++ init) + x.utf8Size) := settled_behind (by simpa using hlast)
    rw [byteLength_append, hb] at hsettled
    have hoffset : next.offset = c.offset + byteLength init + x.utf8Size := by omega
    simpa [hoffset] using hsettled

theorem reads_literal {text : String} (h : isSign text = true) : Reads source (literal text) :=
  (takes_literal h).reads

theorem skipMany_leads {p : Parser Unit} (hp : Moves source p) (hshrinks : Shrinks p)
    (h : ∀ x ∈ ['u', 'l'], ∀ xs n, ∃ a next f, p ⟨x :: xs, n⟩ = .matched a next f) (lo : Nat) :
    Leads source (lo ≤ ·) (skipMany p) fun _ n ↦ lo ≤ n ∧ Settled source n := by
  intro c a next f hc hP hm
  obtain ⟨hnext, hle⟩ := Leads.skipMany (hp lo) c a next f hc hP hm
  obtain ⟨g, hfailed⟩ := hshrinks.skipMany hm
  refine ⟨hnext, hle, hnext.settled fun y hy hmem ↦ ?_⟩
  obtain ⟨rest, offset⟩ := next
  cases rest with
  | nil => cases hy
  | cons x xs =>
    obtain rfl : x = y := by simpa using hy
    obtain ⟨a', next', f', hmatched⟩ := h x hmem xs offset
    rw [hfailed] at hmatched
    cases hmatched

namespace Moves

theorem bind {f : α → Parser β} (hp : Moves source p) (hf : ∀ a, Moves source (f a)) :
    Moves source (p >>= f) := by
  intro lo
  refine (hp lo).bind fun a ↦ ?_
  exact hf a lo

theorem orElse (hp : Moves source p) (hq : Moves source q) : Moves source (p <|> q) :=
  fun lo ↦ (hp lo).orElse (hq lo)

theorem optional (h : Moves source p) : Moves source (optional p) := fun lo ↦
  (h lo).optional.imp (fun _ h ↦ h) fun o n h ↦ by cases o <;> exact h

theorem notAhead (p : Parser Unit) : Moves source (notAhead p) := fun _ ↦ .notAhead p

theorem textOf {p : Parser Unit} (h : Moves source p) : Moves source (textOf p) :=
  fun lo ↦ (h lo).textOf

theorem skipMany {p : Parser Unit} (h : Moves source p) : Moves source (skipMany p) :=
  fun lo ↦ (h lo).skipMany

end Moves

namespace Reads

theorem pure (a : α) : Reads source (pure a : Parser α) := fun _ ↦ .pure a fun _ _ h ↦ h

theorem bind {f : α → Parser β} (hp : Reads source p) (hf : ∀ a, Reads source (f a)) :
    Reads source (p >>= f) := by
  intro lo
  refine (hp lo).bind fun a ↦ ?_
  exact hf a lo

theorem orElse (hp : Reads source p) (hq : Reads source q) : Reads source (p <|> q) :=
  fun lo ↦ (hp lo).orElse (hq lo)

theorem optional (h : Reads source p) : Reads source (optional p) := fun lo ↦
  (h lo).optional.imp (fun _ h ↦ h) fun o n h ↦ by cases o <;> exact h

theorem isPresent {p : Parser Unit} (h : Reads source p) : Reads source (isPresent p) :=
  h.optional.bind fun _ ↦ .pure _

theorem quiet (h : Reads source p) : Reads source (quiet p) := fun lo ↦ (h lo).quiet

theorem ahead (p : Parser Unit) : Reads source (ahead p) := fun _ ↦ .ahead p

theorem notAhead (p : Parser Unit) : Reads source (notAhead p) := fun _ ↦ .notAhead p

theorem textOf {p : Parser Unit} (h : Reads source p) : Reads source (textOf p) :=
  fun lo ↦ (h lo).textOf

theorem skipMany {p : Parser Unit} (h : Reads source p) : Reads source (skipMany p) :=
  fun lo ↦ (h lo).skipMany

theorem firstOf {ps : List (Parser α)} (h : ∀ p ∈ ps, Reads source p) :
    Reads source (firstOf ps) := by
  intro lo
  refine .firstOf fun p hp ↦ ?_
  exact h p hp lo

theorem failExpecting (label : String) : Reads source (failExpecting label : Parser α) :=
  fun _ ↦ .failExpecting label

end Reads

namespace Takes

theorem bind {f : α → Parser β} (hp : Takes source p) (hf : ∀ a, Reads source (f a)) :
    Takes source (p >>= f) := by
  intro lo
  refine (hp lo).bind fun a ↦ ?_
  exact (hf a (lo + 1)).imp (fun _ h ↦ h) fun _ _ h ↦ h

theorem after {f : α → Parser β} (hp : Moves source p) (hf : ∀ a, Takes source (f a)) :
    Takes source (p >>= f) := by
  intro lo
  refine (hp lo).bind fun a ↦ ?_
  exact hf a lo

theorem orElse (hp : Takes source p) (hq : Takes source q) : Takes source (p <|> q) :=
  fun lo ↦ (hp lo).orElse (hq lo)

theorem textOf {p : Parser Unit} (h : Takes source p) : Takes source (textOf p) :=
  fun lo ↦ (h lo).textOf

theorem position_bind {f : Nat → Parser α} (h : ∀ n, Takes source (f n)) :
    Takes source (position >>= f) := by
  intro lo
  refine .position fun m _ hlo ↦ ?_
  refine (h m lo).imp (fun _ hn ↦ hn ▸ hlo) fun _ _ hn ↦ ?_
  exact hn

theorem firstOf {ps : List (Parser α)} (h : ∀ p ∈ ps, Takes source p) :
    Takes source (firstOf ps) := by
  intro lo
  refine .firstOf fun p hp ↦ ?_
  exact h p hp lo

end Takes

theorem reads_position : Reads source position := by
  intro lo c a next f hc hP hm
  cases hm
  exact ⟨hc, hP⟩

namespace Lays

theorem orElse (hp : Lays source p nodes) (hq : Lays source q nodes) :
    Lays source (p <|> q) nodes := fun lo ↦ (hp lo).orElse (hq lo)

theorem optional (h : Lays source p nodes) :
    Lays source (optional p) fun o ↦ o.toList.flatMap nodes := fun lo ↦
  (h lo).optional.imp (fun _ h ↦ h) fun o n h ↦ by
    cases o with
    | none => exact h
    | some a => simpa using h

theorem many (h : Lays source p nodes) : Lays source (many p) fun as ↦ as.flatMap nodes := by
  have hfrom : ∀ fuel, Lays source (manyFrom p fuel) fun as ↦ as.flatMap nodes := by
    intro fuel
    induction fuel with
    | nil =>
      intro lo c as next f hc hP hm
      unfold manyFrom at hm
      cases hpc : p c with
      | failed g =>
        simp only [hpc] at hm
        cases hm
        exact ⟨hc, hP⟩
      | matched a mid g =>
        simp only [hpc] at hm
        cases hm
        obtain ⟨hmid, hlaid⟩ := h lo c _ _ _ hc hP hpc
        exact ⟨hmid, by simpa using hlaid⟩
    | cons x fuel ih =>
      intro lo c as next f hc hP hm
      unfold manyFrom at hm
      cases hpc : p c with
      | failed g =>
        simp only [hpc] at hm
        cases hm
        exact ⟨hc, hP⟩
      | matched a mid g =>
        obtain ⟨hmid, hlaid⟩ := h lo c _ _ _ hc hP hpc
        cases hr : manyFrom p fuel mid with
        | failed g' => simp [hpc, hr] at hm
        | matched as' last g' =>
          simp only [hpc, hr] at hm
          cases hm
          exact ih.laid mid _ _ _ hmid hlaid hr
  exact fun lo c as next f hc hP hm ↦ hfrom c.rest lo c as next f hc hP hm

theorem sepBy1 (h : Lays source p nodes) {separator : Parser Unit}
    (hs : Reads source separator) :
    Lays source (sepBy1 p separator) fun as ↦ as.flatMap nodes := by
  intro lo
  have hmore : Lays source (do separator; p) nodes := by
    intro lo
    refine hs.laid.bind fun _ ↦ ?_
    exact h lo
  refine (h lo).bind fun a ↦ ?_
  refine hmore.many.laid.bind fun as ↦ ?_
  exact .pure _ fun n _ hn ↦ hn

theorem sepBy (h : Lays source p nodes) {separator : Parser Unit} (hs : Reads source separator) :
    Lays source (sepBy p separator) fun as ↦ as.flatMap nodes := by
  intro lo
  refine ((h.sepBy1 hs).optional lo).bind fun o ↦ .pure _ fun n _ hn ↦ ?_
  cases o with
  | none => exact hn
  | some as => simpa using hn

end Lays

theorem Covers.orElse (hp : Covers source p nodes) (hq : Covers source q nodes) :
    Covers source (p <|> q) nodes := fun lo ↦ (hp lo).orElse (hq lo)

theorem Lays.map {nodes' : β → List Node} (h : Lays source p nodes) {f : α → β}
    (hf : ∀ a, nodes' (f a) = nodes a) : Lays source (do return f (← p)) nodes' := by
  intro lo
  refine (h lo).bind fun a ↦ .pure _ fun n _ hn ↦ ?_
  rw [hf a]
  exact hn

theorem Covers.map {nodes' : β → List Node} (h : Covers source p nodes) {f : α → β}
    (hf : ∀ a, nodes' (f a) = nodes a) : Covers source (do return f (← p)) nodes' := by
  intro lo
  refine (h lo).bind fun a ↦ .pure _ fun n _ hn ↦ ?_
  rw [hf a]
  exact hn

theorem Reads.many (h : Reads source p) : Reads source (many p) := h.lays.many.reads

theorem Reads.sepBy1 (h : Reads source p) {separator : Parser Unit}
    (hs : Reads source separator) : Reads source (sepBy1 p separator) := (h.lays.sepBy1 hs).reads

theorem Reads.sepBy (h : Reads source p) {separator : Parser Unit}
    (hs : Reads source separator) : Reads source (sepBy p separator) := (h.lays.sepBy hs).reads

end PhpInsight.Peg.Parser

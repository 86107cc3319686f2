import PhpInsight.Grammar.File
import PhpInsight.Proofs.Reading.Names

namespace PhpInsight.Peg.Parser

open Text

variable {α β : Type} {p q : Parser α} {Q R : α → Prop} {text more rest : List Char}

/-- Wherever `text` stands before `rest`, the parser takes it and gives a value with a property. -/
def Yields (p : Parser α) (text rest : List Char) (Q : α → Prop) : Prop :=
  ∀ n, ∃ a f, p ⟨text ++ rest, n⟩ = .matched a ⟨rest, n + byteLength text⟩ f ∧ Q a

/-- The parser fails wherever `text` stands. -/
def Rejects (p : Parser α) (text : List Char) : Prop := ∀ n, ∃ f, p ⟨text, n⟩ = .failed f

abbrev Accepts (p : Parser α) (text rest : List Char) : Prop := Yields p text rest fun _ ↦ True

namespace Yields

theorem imp (h : Yields p text rest Q) (hQ : ∀ a, Q a → R a) : Yields p text rest R := by
  intro n
  obtain ⟨a, f, hm, ha⟩ := h n
  exact ⟨a, f, hm, hQ a ha⟩

theorem not_rejects (h : Yields p text rest Q) : ¬ Rejects p (text ++ rest) := by
  intro hp
  obtain ⟨a, f, hm, -⟩ := h 0
  obtain ⟨g, hg⟩ := hp 0
  rw [hm] at hg
  cases hg

theorem pure {a : α} (h : Q a) : Yields (pure a : Parser α) [] rest Q := fun _ ↦ ⟨a, _, rfl, h⟩

theorem bind {f : α → Parser β} {S : β → Prop} (hp : Yields p text (more ++ rest) Q)
    (hf : ∀ a, Q a → Yields (f a) more rest S) : Yields (p >>= f) (text ++ more) rest S := by
  intro n
  obtain ⟨a, g, hm, ha⟩ := hp n
  obtain ⟨b, g', hm', hb⟩ := hf a ha (n + byteLength text)
  refine ⟨b, g.merge g', ?_, hb⟩
  change Parser.bind p f _ = _
  rw [Parser.bind, List.append_assoc, hm, byteLength_append, ← Nat.add_assoc]
  simp only [hm', Outcome.withFailures]

theorem bind_nil {f : α → Parser β} {S : β → Prop} (hp : Yields p [] (text ++ rest) Q)
    (hf : ∀ a, Q a → Yields (f a) text rest S) : Yields (p >>= f) text rest S :=
  @bind _ _ _ _ [] _ _ _ _ hp hf

theorem bind_head {x : Char} {f : α → Parser β} {S : β → Prop}
    (hp : Yields p [x] (text ++ rest) Q) (hf : ∀ a, Q a → Yields (f a) text rest S) :
    Yields (p >>= f) (x :: text) rest S := bind hp hf

theorem map {f : α → Parser β} {S : β → Prop} (hp : Yields p text rest Q)
    (hf : ∀ a, Q a → Yields (f a) [] rest S) : Yields (p >>= f) text rest S := by
  rw [← List.append_nil text]
  exact bind hp hf

theorem orElse (h : Yields p text rest Q) : Yields (p <|> q) text rest Q := by
  intro n
  obtain ⟨a, f, hm, ha⟩ := h n
  refine ⟨a, f, ?_, ha⟩
  change Parser.orElse p (fun _ ↦ q) _ = _
  rw [Parser.orElse, hm]

theorem orElse_of_rejects (hp : Rejects p (text ++ rest)) (hq : Yields q text rest Q) :
    Yields (p <|> q) text rest Q := by
  intro n
  obtain ⟨g, hp⟩ := hp n
  obtain ⟨a, f, hm, ha⟩ := hq n
  refine ⟨a, g.merge f, ?_, ha⟩
  change Parser.orElse p (fun _ ↦ q) _ = _
  rw [Parser.orElse, hp]
  simp only [hm, Outcome.withFailures]

theorem position : Accepts position [] rest := fun _ ↦ ⟨_, _, rfl, trivial⟩

theorem optional (h : Yields p text rest Q) :
    Yields (optional p) text rest fun o ↦ ∃ a, o = some a ∧ Q a := by
  intro n
  obtain ⟨a, f, hm, ha⟩ := h n
  exact ⟨some a, f, by rw [Parser.optional, hm], a, rfl, ha⟩

theorem optional_none (h : Rejects p rest) : Yields (Parser.optional p) [] rest (· = none) := by
  intro n
  obtain ⟨f, hm⟩ := h n
  exact ⟨none, f, by rw [Parser.optional, List.nil_append, hm]; rfl, rfl⟩

theorem notAhead {p : Parser Unit} (h : Rejects p rest) : Accepts (notAhead p) [] rest := by
  intro n
  obtain ⟨f, hm⟩ := h n
  exact ⟨(), .none, by rw [Parser.notAhead, List.nil_append, hm]; rfl, trivial⟩

theorem quiet (h : Yields p text rest Q) : Yields (quiet p) text rest Q := by
  intro n
  obtain ⟨a, f, hm, ha⟩ := h n
  exact ⟨a, .none, by rw [Parser.quiet, hm], ha⟩

theorem textOf {p : Parser Unit} (h : Accepts p text rest) :
    Yields (textOf p) text rest (·.toList = text) := by
  intro n
  obtain ⟨a, f, hm, _⟩ := h n
  refine ⟨String.ofList text, f, ?_, String.toList_ofList⟩
  rw [Parser.textOf, hm]
  simp only [Nat.add_sub_cancel_left, Consumes.takeBytes_byteLength]

theorem oneOf {k : CharClass} {x : Char} (h : k.contains x = true) :
    Accepts (oneOf k) [x] rest := by
  intro n
  refine ⟨(), .none, ?_, trivial⟩
  simp [Parser.oneOf, h, byteLength]

theorem dropText?_append (text rest : List Char) (n : Nat) :
    Cursor.dropText? text ⟨text ++ rest, n⟩ = some ⟨rest, n + byteLength text⟩ := by
  induction text generalizing n with
  | nil => rfl
  | cons x xs ih =>
    simp only [List.cons_append, Cursor.dropText?, if_true, ih, byteLength, Nat.add_assoc]

theorem literal (s : String) : Accepts (literal s) s.toList rest :=
  fun n ↦ ⟨(), .none, by rw [Parser.literal, dropText?_append], trivial⟩

theorem skipMany {p : Parser Unit} {cs : List Char}
    (hcs : ∀ x xs ys, cs = xs ++ x :: ys → Accepts p [x] (ys ++ rest)) (hrest : Rejects p rest) :
    Accepts (skipMany p) cs rest := by
  have hfrom : ∀ (cs fuel : List Char) (f : Failures) (n : Nat), cs.length ≤ fuel.length →
      (∀ x xs ys, cs = xs ++ x :: ys → Accepts p [x] (ys ++ rest)) →
        ∃ g, skipManyFrom p fuel f ⟨cs ++ rest, n⟩ =
          .matched () ⟨rest, n + byteLength cs⟩ g := by
    intro cs
    induction cs with
    | nil =>
      intro fuel f n _ _
      obtain ⟨g, hm⟩ := hrest n
      refine ⟨f.merge g, ?_⟩
      unfold skipManyFrom
      rw [List.nil_append, hm]
      rfl
    | cons x cs ih =>
      intro fuel f n hlength hcs
      obtain ⟨_, g, hm, _⟩ := hcs x [] cs rfl n
      cases fuel with
      | nil => simp at hlength
      | cons y fuel =>
        obtain ⟨g', hm'⟩ := ih fuel (f.merge g) (n + x.utf8Size)
          (by simpa using hlength) fun x' xs ys he ↦ hcs x' (x :: xs) ys (by rw [he]; rfl)
        refine ⟨g', ?_⟩
        unfold skipManyFrom
        have hone : n + byteLength [x] = n + x.utf8Size := rfl
        rw [List.cons_append, ← List.singleton_append, hm, hone]
        simp only [hm', byteLength, Nat.add_assoc]
  intro n
  obtain ⟨g, hm⟩ := hfrom cs (cs ++ rest) .none n (by simp) hcs
  exact ⟨(), g, by rw [Parser.skipMany]; exact hm, trivial⟩

end Yields

namespace Rejects

theorem bind {f : α → Parser β} (h : Rejects p text) : Rejects (p >>= f) text := by
  intro n
  obtain ⟨g, hm⟩ := h n
  refine ⟨g, ?_⟩
  change Parser.bind p f _ = _
  rw [Parser.bind, hm]

theorem bind_of_yields {f : α → Parser β} (hp : Yields p text rest Q)
    (hf : ∀ a, Q a → Rejects (f a) rest) : Rejects (p >>= f) (text ++ rest) := by
  intro n
  obtain ⟨a, g, hm, ha⟩ := hp n
  obtain ⟨g', hm'⟩ := hf a ha (n + byteLength text)
  refine ⟨g.merge g', ?_⟩
  change Parser.bind p f _ = _
  rw [Parser.bind, hm]
  simp only [hm', Outcome.withFailures]

theorem bind_nil {f : α → Parser β} (hp : Yields p [] text Q)
    (hf : ∀ a, Q a → Rejects (f a) text) : Rejects (p >>= f) text :=
  @bind_of_yields _ _ _ _ [] _ _ hp hf

theorem bind_head {x : Char} {f : α → Parser β} (hp : Yields p [x] text Q)
    (hf : ∀ a, Q a → Rejects (f a) text) : Rejects (p >>= f) (x :: text) := bind_of_yields hp hf

theorem orElse (hp : Rejects p text) (hq : Rejects q text) : Rejects (p <|> q) text := by
  intro n
  obtain ⟨g, hp⟩ := hp n
  obtain ⟨g', hq⟩ := hq n
  refine ⟨g.merge g', ?_⟩
  change Parser.orElse p (fun _ ↦ q) _ = _
  rw [Parser.orElse, hp]
  simp only [hq, Outcome.withFailures]

theorem fail : Rejects (fail : Parser α) text := fun _ ↦ ⟨_, rfl⟩

theorem failExpecting {label : String} : Rejects (failExpecting label : Parser α) text :=
  fun _ ↦ ⟨_, rfl⟩

theorem firstOf {ps : List (Parser α)} (h : ∀ p ∈ ps, Rejects p text) :
    Rejects (firstOf ps) text := by
  induction ps with
  | nil => exact .fail
  | cons p ps ih =>
    exact .orElse (h p List.mem_cons_self) (ih fun q hq ↦ h q (List.mem_cons_of_mem _ hq))

theorem notAhead {p : Parser Unit} (h : Accepts p text rest) :
    Rejects (notAhead p) (text ++ rest) := by
  intro n
  obtain ⟨a, f, hm, _⟩ := h n
  exact ⟨.none, by rw [Parser.notAhead, hm]⟩

theorem notAhead_head {p : Parser Unit} {x : Char} (h : Accepts p [x] text) :
    Rejects (Parser.notAhead p) (x :: text) := notAhead h

theorem textOf {p : Parser Unit} (h : Rejects p text) : Rejects (textOf p) text := by
  intro n
  obtain ⟨f, hm⟩ := h n
  exact ⟨f, by rw [Parser.textOf, hm]⟩

theorem oneOf {k : CharClass} (h : ∀ x ∈ text.head?, k.contains x = false) :
    Rejects (oneOf k) text := by
  intro n
  cases text with
  | nil => exact ⟨_, rfl⟩
  | cons x xs =>
    refine ⟨.single n (.oneOf k), ?_⟩
    simp [Parser.oneOf, h x rfl]

end Rejects

theorem Yields.firstOf {ps : List (Parser α)} (before after : List (Parser α))
    (hps : ps = before ++ p :: after)
    (hbefore : ∀ q ∈ before, Rejects q (text ++ rest)) (h : Yields p text rest Q) :
    Yields (firstOf ps) text rest Q := by
  subst hps
  induction before with
  | nil => exact h.orElse
  | cons q before ih =>
    exact .orElse_of_rejects (hbefore q List.mem_cons_self)
      (ih fun r hr ↦ hbefore r (List.mem_cons_of_mem _ hr))

def Differ : List Char → List Char → Bool
  | x :: xs, y :: ys => x ≠ y || Differ xs ys
  | _, _ => false

theorem dropText?_of_differ {s text : List Char} (h : Differ s text = true) (rest : List Char)
    (n : Nat) : Cursor.dropText? s ⟨text ++ rest, n⟩ = none := by
  induction s generalizing text n with
  | nil => cases h
  | cons x xs ih =>
    cases text with
    | nil => cases h
    | cons y ys =>
      by_cases hxy : y = x
      · subst hxy
        have hdiffer : Differ xs ys = true := by simpa [Differ] using h
        simpa [Cursor.dropText?] using ih hdiffer (n + y.utf8Size)
      · simp [Cursor.dropText?, hxy]

theorem Rejects.literal {s : String} (h : Differ s.toList text = true) :
    Rejects (literal s) (text ++ rest) :=
  fun n ↦ ⟨_, by rw [Parser.literal, dropText?_of_differ h]⟩

theorem Rejects.literal_head {s : String} {c : Char} {cs : List Char} (hs : s.toList = c :: cs)
    (h : ∀ x ∈ text.head?, x ≠ c) : Rejects (Parser.literal s) text := by
  intro n
  refine ⟨.single n (.literal s), ?_⟩
  cases text with
  | nil => rw [Parser.literal, hs]; rfl
  | cons x xs =>
    have hx : x ≠ c := h x rfl
    rw [Parser.literal, hs]
    simp only [Cursor.dropText?, hx, if_false]

/-- Repeated steps from a value of one kind take a text and end with a value of another kind. The
text bounds how many steps there can be. -/
def Extends (step : α → Parser α) (Q : α → Prop) (text rest : List Char) (R : α → Prop) : Prop :=
  ∀ a, Q a → ∀ (fuel : List Char) (n : Nat), text.length ≤ fuel.length →
    ∃ b f, foldManyFrom step fuel a ⟨text ++ rest, n⟩ =
      .matched b ⟨rest, n + byteLength text⟩ f ∧ R b

namespace Extends

variable {step : α → Parser α} {S : α → Prop}

theorem stop (h : ∀ a, Q a → Rejects (step a) rest ∧ R a) : Extends step Q [] rest R := by
  intro a ha fuel n _
  obtain ⟨hstep, hR⟩ := h a ha
  obtain ⟨f, hm⟩ := hstep n
  refine ⟨a, f, ?_, hR⟩
  unfold foldManyFrom
  rw [List.nil_append, hm]
  rfl

theorem next (hne : text ≠ []) (hstep : ∀ a, Q a → Yields (step a) text (more ++ rest) S)
    (h : Extends step S more rest R) : Extends step Q (text ++ more) rest R := by
  intro a ha fuel n hlength
  obtain ⟨b, f, hm, hb⟩ := hstep a ha n
  have hpos : 0 < text.length := List.length_pos_iff.mpr hne
  rw [List.length_append] at hlength
  cases fuel with
  | nil =>
    rw [List.length_nil] at hlength
    omega
  | cons x fuel =>
    rw [List.length_cons] at hlength
    obtain ⟨c, g, hm', hc⟩ := h b hb fuel (n + byteLength text) (by omega)
    refine ⟨c, f.merge g, ?_, hc⟩
    unfold foldManyFrom
    rw [List.append_assoc, hm, byteLength_append, ← Nat.add_assoc]
    simp only [hm', Outcome.withFailures]

theorem foldMany (h : Extends step Q text rest R) {a : α} (ha : Q a) :
    Yields (foldMany step a) text rest R := by
  intro n
  exact h a ha (text ++ rest) n (by simp)

end Extends

/-- Repeated matches take a text and give a list of a kind. -/
def Repeats (p : Parser α) (text rest : List Char) (Q : List α → Prop) : Prop :=
  ∀ (fuel : List Char) (n : Nat), text.length ≤ fuel.length →
    ∃ as f, manyFrom p fuel ⟨text ++ rest, n⟩ =
      .matched as ⟨rest, n + byteLength text⟩ f ∧ Q as

namespace Repeats

variable {Q : List α → Prop}

theorem stop (h : Rejects p rest) (hQ : Q []) : Repeats p [] rest Q := by
  intro fuel n _
  obtain ⟨f, hm⟩ := h n
  refine ⟨[], f, ?_, hQ⟩
  unfold manyFrom
  rw [List.nil_append, hm]
  rfl

theorem next (hne : text ≠ []) (hp : Yields p text (more ++ rest) R)
    (h : ∀ a, R a → Repeats p more rest fun as ↦ Q (a :: as)) :
    Repeats p (text ++ more) rest Q := by
  intro fuel n hlength
  obtain ⟨a, f, hm, ha⟩ := hp n
  have hpos := List.length_pos_iff.mpr hne
  rw [List.length_append] at hlength
  cases fuel with
  | nil =>
    rw [List.length_nil] at hlength
    omega
  | cons x fuel =>
    rw [List.length_cons] at hlength
    obtain ⟨as, g, hm', has⟩ := h a ha fuel (n + byteLength text) (by omega)
    refine ⟨a :: as, f.merge g, ?_, has⟩
    unfold manyFrom
    rw [List.append_assoc, hm, byteLength_append, ← Nat.add_assoc]
    simp only [hm']

theorem many (h : Repeats p text rest Q) : Yields (many p) text rest Q :=
  fun n ↦ h (text ++ rest) n (by simp)

end Repeats

end PhpInsight.Peg.Parser

import Mathlib.Data.List.Infix
import PhpInsight.Proofs.Types.Members

namespace PhpInsight.TypeText

open Text

variable {d : Nat} {c : Char} {cs : List Char}

theorem piecesFrom_eq_singleton_iff : piecesFrom d cs = [cs] ↔
    ∀ before after, cs = before ++ '|' :: after → 0 < depthBehind d before := by
  induction cs generalizing d with
  | nil => exact iff_of_true rfl fun before after h ↦ by simp at h
  | cons c cs ih =>
    rw [piecesFrom_cons_eq_singleton_iff, ih]
    constructor
    · rintro ⟨hbar, hrest⟩ before after h
      cases before with
      | nil =>
        obtain ⟨rfl, -⟩ := List.cons.inj h
        exact Nat.pos_of_ne_zero fun hd ↦ hbar ⟨rfl, hd⟩
      | cons x before =>
        obtain ⟨rfl, rfl⟩ := List.cons.inj h
        exact hrest before after rfl
    · intro h
      refine ⟨?_, fun before after hcs ↦ ?_⟩
      · rintro ⟨rfl, rfl⟩
        exact absurd (h [] cs rfl) (Nat.lt_irrefl 0)
      · exact h (c :: before) after (by rw [hcs, List.cons_append])

/-- A text that can be a member: it is not blank, has no blanks around it, and every bar in it is
inside brackets. -/
structure IsPiece (cs : List Char) : Prop where
  visible : ∃ c ∈ cs, isBlank c = false
  trimmed : Trimmed cs
  bars (before after : List Char) : cs = before ++ '|' :: after → 0 < depthBehind 0 before

theorem isPiece_iff : IsPiece cs ↔ cs ≠ [] ∧ Trimmed cs ∧ piecesFrom 0 cs = [cs] := by
  rw [piecesFrom_eq_singleton_iff]
  constructor
  · rintro ⟨⟨c, hc, -⟩, htrimmed, hbars⟩
    exact ⟨List.ne_nil_of_mem hc, htrimmed, hbars⟩
  · rintro ⟨hne, htrimmed, hbars⟩
    obtain ⟨c, cs, rfl⟩ := List.exists_cons_of_ne_nil hne
    exact ⟨⟨c, List.mem_cons_self, htrimmed.first c rfl⟩, htrimmed, hbars⟩

instance : DecidablePred IsPiece := fun _ ↦ decidable_of_iff _ isPiece_iff.symm

/-- A list is read back from its join just when it is of pieces that, up to the last one, close what
they open. -/
theorem splitUnion_join_iff {ts : List String} : splitUnion ("|".intercalate ts) = ts ↔
    (∀ t ∈ ts, IsPiece t.toList) ∧ ∀ t ∈ ts.dropLast, depthBehind 0 t.toList = 0 := by
  constructor
  · intro h
    refine ⟨fun t ht ↦ isPiece_iff.mpr ?_, fun t ht ↦ ?_⟩
    · rw [← h] at ht
      exact of_mem_unionMembers (toList_mem_of_splitUnion ht)
    · rw [← h] at ht
      exact depthBehind_of_mem_unionMembers (toList_mem_dropLast_of_splitUnion ht)
  · rintro ⟨hpieces, hclosed⟩
    have hts t (ht : t ∈ ts) := isPiece_iff.mp (hpieces t ht)
    exact splitUnion_intercalate (fun t ht ↦ ⟨(hts t ht).1, (hts t ht).2.1⟩)
      (fun t ht ↦ (hts t ht).2.2) hclosed

theorem isPiece_of_mem_splitUnion {text t : String} (h : t ∈ splitUnion text) :
    IsPiece t.toList :=
  isPiece_iff.mpr (of_mem_unionMembers (toList_mem_of_splitUnion h))

/-- Brackets of which none closes before it is opened, and all are closed at the end. -/
structure Balanced (cs : List Char) : Prop where
  opened (before : List Char) : before <+: cs →
    before.countP isClosingBracket ≤ before.countP isOpeningBracket
  closed : cs.countP isClosingBracket = cs.countP isOpeningBracket

instance : DecidablePred Balanced := fun cs ↦
  decidable_of_iff ((∀ before ∈ cs.inits,
      before.countP isClosingBracket ≤ before.countP isOpeningBracket) ∧
    cs.countP isClosingBracket = cs.countP isOpeningBracket) <| by
    simp only [List.mem_inits]
    exact ⟨fun h ↦ ⟨h.1, h.2⟩, fun h ↦ ⟨h.opened, h.closed⟩⟩

theorem isClosingBracket_of_isOpeningBracket (h : isOpeningBracket c = true) :
    isClosingBracket c = false := by
  simp only [isOpeningBracket, Bool.or_eq_true, decide_eq_true_eq] at h
  rcases h with ((rfl | rfl) | rfl) | rfl <;> rfl

theorem depthAfter_add_closing (h : [c].countP isClosingBracket ≤ d + [c].countP isOpeningBracket) :
    depthAfter d c + [c].countP isClosingBracket = d + [c].countP isOpeningBracket := by
  cases hopen : isOpeningBracket c with
  | true =>
    have hclose := isClosingBracket_of_isOpeningBracket hopen
    simp [depthAfter, hopen, hclose]
  | false =>
    cases hclose : isClosingBracket c with
    | true =>
      have hpos : 1 ≤ d := by simpa [hopen, hclose] using h
      simpa [depthAfter, hopen, hclose] using Nat.sub_add_cancel hpos
    | false => simp [depthAfter, hopen, hclose]

theorem depthBehind_add_closing (h : ∀ before, before <+: cs →
      before.countP isClosingBracket ≤ d + before.countP isOpeningBracket) :
    depthBehind d cs + cs.countP isClosingBracket = d + cs.countP isOpeningBracket := by
  induction cs generalizing d with
  | nil => rfl
  | cons c cs ih =>
    have hsplit (p : Char → Bool) (cs : List Char) :
        (c :: cs).countP p = [c].countP p + cs.countP p := by
      rw [← List.countP_append, List.singleton_append]
    have hone := depthAfter_add_closing (h [c] ⟨cs, rfl⟩)
    have hrest := ih (d := depthAfter d c) fun before hbefore ↦ by
      have hlonger := h (c :: before) (List.cons_prefix_cons.mpr ⟨rfl, hbefore⟩)
      rw [hsplit _ before, hsplit _ before] at hlonger
      omega
    rw [depthBehind, List.foldl_cons, ← depthBehind, hsplit _ cs, hsplit _ cs]
    omega

theorem Balanced.depthBehind_eq_zero (h : Balanced cs) : depthBehind 0 cs = 0 := by
  have hsum := depthBehind_add_closing (d := 0) fun before hbefore ↦
    (Nat.zero_add _).symm ▸ h.opened before hbefore
  have hclosed := h.closed
  omega

/-- The members of a text are pieces and are told from each other again where they are joined, and
so are any pieces with brackets in pairs. -/
theorem splitUnion_stable (text : String) :
    (∀ t ∈ splitUnion text, IsPiece t.toList) ∧
      splitUnion ("|".intercalate (splitUnion text)) = splitUnion text ∧
      ∀ ts : List String, (∀ t ∈ ts, IsPiece t.toList ∧ Balanced t.toList) →
        splitUnion ("|".intercalate ts) = ts := by
  refine ⟨fun t ht ↦ isPiece_of_mem_splitUnion ht, ?_, fun ts hts ↦ ?_⟩
  · refine splitUnion_join_iff.mpr ⟨fun t ht ↦ isPiece_of_mem_splitUnion ht, fun t ht ↦ ?_⟩
    exact depthBehind_of_mem_unionMembers (toList_mem_dropLast_of_splitUnion ht)
  · refine splitUnion_join_iff.mpr ⟨fun t ht ↦ (hts t ht).1, fun t ht ↦ ?_⟩
    exact (hts t (List.mem_of_mem_dropLast ht)).2.depthBehind_eq_zero

theorem splitUnion_stable_nested :
    (∀ t ∈ ["array<int|string, A[]>", "callable(A|B): C"], IsPiece t.toList ∧ Balanced t.toList) ∧
      splitUnion "array<int|string, A[]>|callable(A|B): C" =
        ["array<int|string, A[]>", "callable(A|B): C"] ∧
      splitUnion "A>| |B)]|C<D|E" = ["A>", "B)]", "C<D|E"] ∧
      splitUnion "A>|B)]|C<D|E" = ["A>", "B)]", "C<D|E"] := by
  have hpieces : ∀ t ∈ ["array<int|string, A[]>", "callable(A|B): C"],
      IsPiece t.toList ∧ Balanced t.toList := by decide +kernel
  have hsplit : splitUnion "A>| |B)]|C<D|E" = ["A>", "B)]", "C<D|E"] := by decide +kernel
  obtain ⟨-, hagain, hjoin⟩ := splitUnion_stable "A>| |B)]|C<D|E"
  rw [hsplit] at hagain
  exact ⟨hpieces, hjoin _ hpieces, hsplit, hagain⟩

end PhpInsight.TypeText

import PhpInsight.Text.AsciiCase
import PhpInsight.Text.Blank

namespace PhpInsight

namespace Text

variable {cs ds : List Char}

theorem splitBy_eq_splitOn (x : Char) (cs : List Char) : splitBy (· == x) cs = cs.splitOn x := by
  rw [List.splitOn_eq_splitOnP]
  induction cs with
  | nil => rfl
  | cons c cs ih =>
    rw [splitBy, List.splitOnP_cons_eq_if_modifyHead, ih]
    cases h : List.splitOnP (· == x) cs with
    | nil => exact absurd h (List.splitOnP_ne_nil _ _)
    | cons w ws => rfl

theorem mem_of_mem_intercalate {x c : Char} {l : List (List Char)} (h : c ∈ [x].intercalate l) :
    c = x ∨ ∃ cs ∈ l, c ∈ cs := by
  induction l with
  | nil => simp at h
  | cons cs l ih =>
    cases l with
    | nil => exact .inr ⟨cs, List.mem_cons_self, by simpa using h⟩
    | cons ds l =>
      rw [List.intercalate_cons_of_ne_nil (by simp), List.append_assoc] at h
      rcases List.mem_append.mp h with h | h
      · exact .inr ⟨cs, List.mem_cons_self, h⟩
      · rcases List.mem_cons.mp h with h | h
        · exact .inl h
        · exact (ih h).imp_right fun ⟨es, hes, hc⟩ ↦ ⟨es, List.mem_cons_of_mem _ hes, hc⟩

theorem length_intercalate_filter_le (x : Char) (p : List Char → Bool) (l : List (List Char)) :
    ([x].intercalate (l.filter p)).length ≤ ([x].intercalate l).length := by
  induction l with
  | nil => exact Nat.le_refl _
  | cons cs l ih =>
    cases l with
    | nil => cases hp : p cs <;> simp [hp]
    | cons ds l =>
      rw [List.intercalate_cons_of_ne_nil (List.cons_ne_nil ds l), List.filter_cons]
      simp only [List.length_append, List.length_singleton]
      split
      · by_cases hrest : (ds :: l).filter p = []
        · simp [hrest]
          omega
        · rw [List.intercalate_cons_of_ne_nil hrest]
          simp only [List.length_append, List.length_singleton]
          omega
      · omega

def IsSmall (c : Char) : Prop := 'a'.val.toNat ≤ c.val.toNat ∧ c.val.toNat ≤ 'z'.val.toNat

theorem toLower_eq_or_isSmall (c : Char) : c.toLower = c ∨ IsSmall c.toLower := by
  have hbounds : 'A'.val.toNat = 65 ∧ 'Z'.val.toNat = 90 ∧ 'a'.val.toNat = 97 ∧
      'z'.val.toNat = 122 := ⟨rfl, rfl, rfl, rfl⟩
  unfold Char.toLower
  split
  · rename_i hrange
    have hlo := UInt32.le_iff_toNat_le.mp hrange.1
    have hhi := UInt32.le_iff_toNat_le.mp hrange.2
    have hadd : (c.val + ('a'.val - 'A'.val)).toNat = c.val.toNat + 32 := by
      rw [UInt32.toNat_add, show ('a'.val - 'A'.val).toNat = 32 from rfl]
      omega
    right
    simp only [IsSmall, hadd]
    omega
  · exact .inl rfl

theorem toLower_of_isSmall {c : Char} (h : IsSmall c) : c.toLower = c := by
  have hbounds : 'Z'.val.toNat = 90 ∧ 'a'.val.toNat = 97 := ⟨rfl, rfl⟩
  unfold Char.toLower
  split
  · rename_i hrange
    have hlo := h.1
    have hhi := UInt32.le_iff_toNat_le.mp hrange.2
    omega
  · rfl

theorem lower_lower (s : String) : lower (lower s) = lower s := by
  have hchar : Char.toLower ∘ Char.toLower = Char.toLower := by
    funext c
    rcases toLower_eq_or_isSmall c with h | h
    · rw [Function.comp_apply, h, h]
    · exact toLower_of_isSmall h
  simp [lower, lowerChars, hchar]

theorem mem_of_mem_lower {s : String} {c : Char} (h : c ∈ (lower s).toList) (hc : ¬ IsSmall c) :
    c ∈ s.toList := by
  rw [lower, String.toList_ofList, lowerChars] at h
  obtain ⟨ch, hch, rfl⟩ := List.mem_map.mp h
  rw [(toLower_eq_or_isSmall ch).resolve_right hc]
  exact hch

theorem dropBlanksEnd_cons {c : Char} (hc : isBlank c = false) (cs : List Char) :
    dropBlanksEnd (c :: cs) = c :: dropBlanksEnd cs := by
  unfold dropBlanksEnd dropEnd
  rw [List.reverse_cons, List.dropWhile_append]
  split
  · rename_i h
    rw [List.isEmpty_iff.mp h]
    simp [hc]
  · simp

theorem dropBlanksEnd_append_blanks (cs : List Char) {blanks : List Char}
    (h : ∀ x ∈ blanks, isBlank x = true) : dropBlanksEnd (cs ++ blanks) = dropBlanksEnd cs := by
  rw [dropBlanksEnd, dropEnd, List.reverse_append,
    List.dropWhile_append_of_pos fun x hx ↦ h x (List.mem_reverse.mp hx)]
  rfl

theorem dropBlanksEnd_eq_self (h : ∀ c ∈ cs.getLast?, isBlank c = false) :
    dropBlanksEnd cs = cs := by
  unfold dropBlanksEnd dropEnd
  rw [← List.head?_reverse] at h
  cases hr : cs.reverse with
  | nil => simpa using hr.symm
  | cons c rest =>
    rw [hr] at h
    rw [List.dropWhile_cons_of_neg (by simp [h c rfl]), ← hr, List.reverse_reverse]

theorem length_dropBlanksEnd_lt {c : Char} (hlast : c ∈ cs.getLast?) (hc : isBlank c = true) :
    (dropBlanksEnd cs).length < cs.length := by
  unfold dropBlanksEnd dropEnd
  rw [← List.head?_reverse] at hlast
  have hlength : cs.length = cs.reverse.length := List.length_reverse.symm
  rw [List.length_reverse, hlength]
  cases hr : cs.reverse with
  | nil =>
    rw [hr] at hlast
    cases hlast
  | cons c' rest =>
    rw [hr] at hlast
    cases hlast
    rw [List.dropWhile_cons_of_pos hc]
    exact Nat.lt_succ_of_le (List.dropWhile_sublist _).length_le

theorem mem_of_mem_dropBlanksEnd {c : Char} (h : c ∈ dropBlanksEnd cs) : c ∈ cs := by
  rw [dropBlanksEnd, dropEnd, List.mem_reverse] at h
  exact List.mem_reverse.mp ((List.dropWhile_sublist _).subset h)

theorem not_isBlank_of_mem_getLast? {c : Char} (h : c ∈ (dropBlanksEnd cs).getLast?) :
    isBlank c = false := by
  rw [dropBlanksEnd, dropEnd, List.getLast?_reverse] at h
  have hhead := List.head?_dropWhile_not isBlank cs.reverse
  rw [Option.mem_def.mp h] at hhead
  simpa using hhead

theorem trimChars_cons {c : Char} (hc : isBlank c = false) (cs : List Char) :
    trimChars (c :: cs) = c :: dropBlanksEnd cs := by
  rw [trimChars, dropBlanks, List.dropWhile_cons_of_neg (by simp [hc]), dropBlanksEnd_cons hc]

structure Trimmed (cs : List Char) : Prop where
  first : ∀ c ∈ cs.head?, isBlank c = false
  last : ∀ c ∈ cs.getLast?, isBlank c = false

theorem Trimmed.trimChars (h : Trimmed cs) : trimChars cs = cs := by
  cases cs with
  | nil => rfl
  | cons c cs =>
    rw [trimChars_cons (h.first c rfl), ← dropBlanksEnd_cons (h.first c rfl),
      dropBlanksEnd_eq_self h.last]

theorem trimmed_trimChars (cs : List Char) : Trimmed (Text.trimChars cs) where
  first := by
    intro c hc
    have hhead := List.head?_dropWhile_not isBlank cs
    rw [← dropBlanks] at hhead
    cases hdrop : dropBlanks cs with
    | nil =>
      rw [Text.trimChars, hdrop] at hc
      cases hc
    | cons c' rest =>
      rw [hdrop, List.head?_cons] at hhead
      have hc' : isBlank c' = false := by simpa using hhead
      rw [Text.trimChars, hdrop, dropBlanksEnd_cons hc'] at hc
      cases hc
      exact hc'
  last := fun _ hc ↦ not_isBlank_of_mem_getLast? hc

theorem trimChars_sublist (cs : List Char) : (Text.trimChars cs).Sublist cs := by
  have hend : (dropBlanksEnd (dropBlanks cs)).Sublist (dropBlanks cs) := by
    rw [← List.reverse_sublist, dropBlanksEnd, dropEnd, List.reverse_reverse]
    exact List.dropWhile_sublist _
  exact hend.trans (List.dropWhile_sublist _)

theorem exists_trimChars (cs : List Char) :
    ∃ left right, cs = left ++ (Text.trimChars cs ++ right) ∧
      (∀ c ∈ left, isBlank c = true) ∧ ∀ c ∈ right, isBlank c = true := by
  refine ⟨cs.takeWhile isBlank, ((dropBlanks cs).reverse.takeWhile isBlank).reverse, ?_, ?_, ?_⟩
  · have hend : Text.trimChars cs ++ ((dropBlanks cs).reverse.takeWhile isBlank).reverse =
        dropBlanks cs := by
      rw [Text.trimChars, dropBlanksEnd, dropEnd, ← List.reverse_append,
        List.takeWhile_append_dropWhile, List.reverse_reverse]
    rw [hend, dropBlanks, List.takeWhile_append_dropWhile]
  · exact List.all_eq_true.mp List.all_takeWhile
  · exact fun c hc ↦ List.all_eq_true.mp List.all_takeWhile c (List.mem_reverse.mp hc)

theorem mem_trimChars {c : Char} (h : c ∈ cs) (hc : isBlank c = false) : c ∈ Text.trimChars cs := by
  obtain ⟨left, right, hsplit, hleft, hright⟩ := exists_trimChars cs
  rw [hsplit, List.mem_append, List.mem_append] at h
  rcases h with h | h | h
  · exact absurd (hleft c h) (by simp [hc])
  · exact h
  · exact absurd (hright c h) (by simp [hc])

theorem trimChars_append_of_blank (hcs : ∀ c ∈ cs, isBlank c = true) (ds : List Char) :
    Text.trimChars (cs ++ ds) = Text.trimChars ds := by
  rw [Text.trimChars, dropBlanks, List.dropWhile_append_of_pos hcs]
  rfl

theorem Trimmed.trimChars_append (h : Trimmed cs) (hds : ∀ c ∈ ds, isBlank c = true) :
    Text.trimChars (cs ++ ds) = cs := by
  have hend : dropBlanksEnd (cs ++ ds) = cs :=
    (dropBlanksEnd_append_blanks cs hds).trans (dropBlanksEnd_eq_self h.last)
  cases cs with
  | nil =>
    rw [← List.append_nil ([] ++ ds), List.nil_append, trimChars_append_of_blank hds]
    rfl
  | cons c cs =>
    rw [List.cons_append, trimChars_cons (h.first c rfl), ← dropBlanksEnd_cons (h.first c rfl)]
    exact hend

theorem trimChars_eq_self_iff : Text.trimChars cs = cs ↔ Trimmed cs :=
  ⟨fun h ↦ h ▸ trimmed_trimChars cs, Trimmed.trimChars⟩

instance : DecidablePred Trimmed := fun _ ↦ decidable_of_iff _ trimChars_eq_self_iff

/-- A text that neither a blank nor a question mark starts, and that no blank ends. -/
structure Tight (cs : List Char) : Prop where
  ne_nil : cs ≠ []
  first : ∀ c ∈ cs.head?, isBlank c = false ∧ c ≠ '?'
  last : ∀ c ∈ cs.getLast?, isBlank c = false

theorem Tight.trimmed (h : Tight cs) : Trimmed cs := ⟨fun c hc ↦ (h.first c hc).1, h.last⟩

theorem Tight.trimChars (h : Tight cs) : Text.trimChars cs = cs := h.trimmed.trimChars

theorem Tight.append (h : Tight cs) {x : Char} (hx : isBlank x = false)
    (hds : ∀ c ∈ ds.getLast?, isBlank c = false) : Tight (cs ++ x :: ds) where
  ne_nil := by simp
  first := by
    cases cs with
    | nil => exact absurd rfl h.ne_nil
    | cons c cs => exact h.first
  last := by
    intro c hc
    rw [List.getLast?_append, List.getLast?_eq_some_getLast (List.cons_ne_nil x ds),
      Option.some_or, ← List.getLast?_eq_some_getLast] at hc
    cases ds with
    | nil =>
      cases hc
      exact hx
    | cons d ds =>
      rw [List.getLast?_cons_cons] at hc
      exact hds c hc

end Text

end PhpInsight

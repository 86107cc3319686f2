import PhpInsight.Proofs.UsageCache.Lookup

namespace PhpInsight.UsageCache

variable {κ υ : Type} {P : κ → υ → Prop} {c : UsageCache κ υ}

/-- A property of all keys with their values. -/
def Every (P : κ → υ → Prop) (c : UsageCache κ υ) : Prop := ∀ e ∈ c.entries, P e.key e.value

theorem every_of_entries_eq_nil (h : c.entries = []) : Every P c := by
  intro e he
  rw [h] at he
  cases he

theorem every_empty : Every P ({} : UsageCache κ υ) := every_of_entries_eq_nil rfl

theorem Every.imp {Q : κ → υ → Prop} (h : Every P c) (hpq : ∀ k v, P k v → Q k v) : Every Q c :=
  fun e he ↦ hpq _ _ (h e he)

theorem Every.of_subset {c' : UsageCache κ υ} (h : Every P c) (hs : c'.entries ⊆ c.entries) :
    Every P c' := fun e he ↦ h e (hs he)

variable [DecidableEq κ]

theorem Every.peek? (h : Every P c) {key : κ} {value : υ} (hk : c.peek? key = some value) :
    P key value := by
  obtain ⟨e, he, rfl⟩ := Option.map_eq_some_iff.mp hk
  have hkey : e.key = key := by simpa using List.find?_some he
  exact hkey ▸ h e (List.mem_of_find?_eq_some he)

theorem Every.set (h : Every P c) {key : κ} {value : υ} (hv : P key value) :
    Every P (c.set key value) := by
  intro e he
  rcases List.mem_cons.mp he with rfl | he
  · exact hv
  · exact h e (List.mem_filter.mp he).1

theorem Every.touch (h : Every P c) (key : κ) : Every P (c.touch key) := by
  intro e he
  obtain ⟨e', he', rfl⟩ := List.mem_map.mp he
  split <;> exact h e' he'

def Used (c c' : UsageCache κ υ) : Prop := ∃ keys : List κ, c' = keys.foldl touch c

namespace Used

variable {c' : UsageCache κ υ}

theorem refl (c : UsageCache κ υ) : c.Used c := ⟨[], rfl⟩

theorem touch (h : c.Used c') (key : κ) : c.Used (c'.touch key) := by
  obtain ⟨keys, rfl⟩ := h
  exact ⟨keys ++ [key], by rw [List.foldl_append, List.foldl_cons, List.foldl_nil]⟩

theorem peek? (h : c.Used c') (key : κ) : c'.peek? key = c.peek? key := by
  obtain ⟨keys, rfl⟩ := h
  induction keys generalizing c with
  | nil => rfl
  | cons k keys ih => rw [List.foldl_cons, ih, peek?_touch]

end Used

theorem Every.used {c' : UsageCache κ υ} (h : Every P c) (hused : c.Used c') : Every P c' := by
  obtain ⟨keys, rfl⟩ := hused
  induction keys generalizing c with
  | nil => exact h
  | cons key keys ih => exact ih (h.touch key)

end PhpInsight.UsageCache

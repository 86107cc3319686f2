import Mathlib.Data.List.Induction
import Mathlib.Data.List.Nodup
import PhpInsight.UsageCache

namespace PhpInsight

namespace UsageCache

variable {κ υ : Type}

def Distinct (c : UsageCache κ υ) : Prop := (c.entries.map Entry.key).Nodup

variable {c : UsageCache κ υ}

theorem distinct_of_entries_eq_nil (h : c.entries = []) : c.Distinct := by
  rw [Distinct, h]
  exact List.nodup_nil

theorem Distinct.clean (h : c.Distinct) : c.clean.2.Distinct :=
  h.sublist (List.filter_sublist.map _)

variable [DecidableEq κ] {key : κ}

theorem find?_eq_some_iff (h : c.Distinct) {e : Entry κ υ} :
    c.find? key = some e ↔ e ∈ c.entries ∧ e.key = key := by
  constructor
  · intro he
    exact ⟨List.mem_of_find?_eq_some he, by simpa using List.find?_some he⟩
  · rintro ⟨he, rfl⟩
    cases hf : c.find? e.key with
    | none => exact absurd (by simp) (List.find?_eq_none.mp hf e he)
    | some e' =>
      have hkey : e'.key = e.key := by simpa using List.find?_some hf
      rw [List.inj_on_of_nodup_map h (List.mem_of_find?_eq_some hf) he hkey]

theorem contains_iff : c.contains key = true ↔ ∃ e ∈ c.entries, e.key = key := by
  simp [contains, find?]

theorem contains_eq_false_iff : c.contains key = false ↔ ∀ e ∈ c.entries, e.key ≠ key := by
  rw [← Bool.not_eq_true, contains_iff]
  simp

theorem find?_erase (c : UsageCache κ υ) (k key : κ) :
    (c.erase k).find? key = if k = key then none else c.find? key := by
  rw [find?, erase, List.find?_filter, find?]
  split
  case isTrue h =>
    subst h
    simp
  case isFalse h =>
    congr 1
    funext e
    by_cases he : e.key = key
    · simp [he, Ne.symm h]
    · simp [he]

theorem find?_set (c : UsageCache κ υ) (k key : κ) (value : υ) :
    (c.set k value).find? key = if k = key then some ⟨key, value, c.deadline⟩ else c.find? key := by
  rw [find?, set, List.find?_cons, ← find?, find?_erase]
  by_cases h : k = key
  · simp [h]
  · simp [h]

theorem find?_touch (c : UsageCache κ υ) (k key : κ) :
    (c.touch k).find? key =
      if k = key then (c.find? key).map fun e ↦ { e with expiry := c.deadline }
      else c.find? key := by
  have hkey (e : Entry κ υ) :
      (if e.key = k then { e with expiry := c.deadline } else e).key = e.key := by
    split <;> rfl
  have hp : ((fun e : Entry κ υ ↦ decide (e.key = key)) ∘
      fun e ↦ if e.key = k then { e with expiry := c.deadline } else e) =
        fun e ↦ decide (e.key = key) := by
    funext e
    rw [Function.comp_apply, hkey]
  rw [find?, touch, List.find?_map, hp, ← find?]
  cases hf : c.find? key with
  | none => simp
  | some e =>
    have he : e.key = key := by simpa using List.find?_some hf
    simp only [Option.map_some, he]
    by_cases h : k = key
    · simp [h]
    · simp [h, Ne.symm h]

theorem Distinct.erase (h : c.Distinct) (k : κ) : (c.erase k).Distinct :=
  h.sublist (List.filter_sublist.map _)

theorem Distinct.set (h : c.Distinct) (k : κ) (value : υ) : (c.set k value).Distinct := by
  refine List.nodup_cons.mpr ⟨?_, h.erase k⟩
  simp [UsageCache.erase]

theorem Distinct.touch (h : c.Distinct) (k : κ) : (c.touch k).Distinct := by
  have hkeys : (c.touch k).entries.map Entry.key = c.entries.map Entry.key := by
    rw [UsageCache.touch, List.map_map]
    refine List.map_congr_left fun e _ ↦ ?_
    rw [Function.comp_apply]
    split <;> rfl
  rw [Distinct, hkeys]
  exact h

theorem find?_clean (h : c.Distinct) (key : κ) :
    c.clean.2.find? key = (c.find? key).filter fun e ↦ !c.isExpired e := by
  ext e
  rw [find?_eq_some_iff h.clean, Option.filter_eq_some_iff, find?_eq_some_iff h, UsageCache.clean,
    List.mem_filter]
  tauto

theorem peek?_touch (c : UsageCache κ υ) (k key : κ) : (c.touch k).peek? key = c.peek? key := by
  rw [peek?, find?_touch, peek?]
  split
  · rw [Option.map_map]
    rfl
  · rfl

theorem touch_of_contains_eq_false {k : κ} (h : c.contains k = false) : c.touch k = c := by
  have hsame : ∀ e ∈ c.entries,
      (if e.key = k then { e with expiry := c.deadline } else e) = e := by
    intro e he
    rw [if_neg (contains_eq_false_iff.mp h e he)]
  rw [UsageCache.touch, List.map_congr_left hsame, List.map_id']

theorem deadline_setAll (c : UsageCache κ υ) (values : List (κ × υ)) :
    (c.setAll values).deadline = c.deadline := by
  induction values generalizing c with
  | nil => rfl
  | cons kv values ih => exact ih (c.set kv.1 kv.2)

theorem find?_setAll (c : UsageCache κ υ) (values : List (κ × υ)) (key : κ) :
    (c.setAll values).find? key =
      ((values.reverse.lookup key).map fun value ↦ ⟨key, value, c.deadline⟩).or (c.find? key) := by
  induction values using List.reverseRecOn with
  | nil => rfl
  | append_singleton values kv ih =>
    have hlast : c.setAll (values ++ [kv]) = (c.setAll values).set kv.1 kv.2 := by
      simp [setAll]
    rw [hlast, find?_set, ih, deadline_setAll, List.reverse_concat, List.lookup_cons]
    by_cases h : kv.1 = key
    · simp [h]
    · have hb : (key == kv.1) = false := beq_false_of_ne (Ne.symm h)
      simp [h, hb]

theorem getAll_eq (c : UsageCache κ υ) (keys : List κ) :
    c.getAll keys = (keys.map c.peek?, keys.foldl touch c) := by
  induction keys generalizing c with
  | nil => rfl
  | cons k keys ih =>
    have hpeek : (c.touch k).peek? = c.peek? := funext (peek?_touch c k)
    simp only [getAll, get, ih, hpeek, List.map_cons, List.foldl_cons]

theorem find?_foldl_touch (c : UsageCache κ υ) (keys : List κ) (key : κ) :
    (keys.foldl touch c).find? key =
      if key ∈ keys then (c.find? key).map fun e ↦ { e with expiry := c.deadline }
      else c.find? key := by
  induction keys generalizing c with
  | nil => rfl
  | cons k keys ih =>
    have hdeadline : (c.touch k).deadline = c.deadline := rfl
    rw [List.foldl_cons, ih, find?_touch, hdeadline]
    by_cases h : k = key
    · simp [h, Function.comp_def]
    · simp [h, Ne.symm h]

theorem find?_eraseAll (c : UsageCache κ υ) (keys : List κ) (key : κ) :
    (c.eraseAll keys).find? key = if key ∈ keys then none else c.find? key := by
  induction keys generalizing c with
  | nil => rfl
  | cons k keys ih =>
    have hcons : c.eraseAll (k :: keys) = (c.erase k).eraseAll keys := rfl
    rw [hcons, ih, find?_erase]
    by_cases h : k = key
    · simp [h]
    · simp [h, Ne.symm h]

end UsageCache

end PhpInsight

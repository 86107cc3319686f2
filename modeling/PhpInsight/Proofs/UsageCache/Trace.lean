import PhpInsight.Proofs.UsageCache.Lookup

namespace PhpInsight

namespace UsageCache

def Throughout {α : Type} (P : List α → α → Prop) (l : List α) : Prop :=
  ∀ before x later, l = before ++ x :: later → P before x

section Throughout

variable {α : Type} {P : List α → α → Prop} {l : List α} {x : α}

theorem throughout_nil : Throughout P [] := by
  intro before x later h
  simp at h

theorem throughout_concat : Throughout P (l ++ [x]) ↔ Throughout P l ∧ P l x := by
  constructor
  · intro h
    exact ⟨fun before y later hs ↦ h before y (later ++ [x]) (by simp [hs]), h l x [] rfl⟩
  · rintro ⟨h, hx⟩ before y later hs
    rcases List.eq_nil_or_concat later with rfl | ⟨later, z, rfl⟩
    · obtain ⟨rfl, hy⟩ := List.append_inj' hs rfl
      rw [List.singleton_inj.mp hy] at hx
      exact hx
    · rw [List.concat_eq_append, ← List.cons_append, ← List.append_assoc] at hs
      exact h before y later (List.append_inj' hs rfl).1

end Throughout

variable {κ υ : Type} [DecidableEq κ]

inductive Operation (κ υ : Type)
  | set (key : κ) (value : υ)
  | setAll (values : List (κ × υ))
  | get (key : κ)
  | getOr (key : κ) (default : υ)
  | getAll (keys : List κ)
  | contains (key : κ)
  | erase (key : κ)
  | eraseAll (keys : List κ)
  | clean
  | clear
  | expiry (key : κ)
  | size
  | advance (seconds : Nat)
  | setClock (now : Nat)

inductive Answer (υ : Type)
  | done
  | value (value : Option υ)
  | values (values : List (Option υ))
  | flag (flag : Bool)
  | count (count : Nat)
  | expiry (expiry : Option Nat)

def run (c : UsageCache κ υ) : Operation κ υ → Answer υ × UsageCache κ υ
  | .set key value => (.done, c.set key value)
  | .setAll values => (.done, c.setAll values)
  | .get key => ((c.get key).map .value id)
  | .getOr key default => (c.get key).map (fun value ↦ .value (some (value.getD default))) id
  | .getAll keys => (c.getAll keys).map .values id
  | .contains key => (.flag (c.contains key), c)
  | .erase key => (.flag (c.contains key), c.erase key)
  | .eraseAll keys => (.done, c.eraseAll keys)
  | .clean => c.clean.map .count id
  | .clear => (.flag true, c.clear)
  | .expiry key => (.expiry (c.expiry? key), c)
  | .size => (.count c.size, c)
  | .advance seconds => (.done, c.advance seconds)
  | .setClock now => (.done, c.setClock now)

def after (c : UsageCache κ υ) (op : Operation κ υ) : UsageCache κ υ := (c.run op).2

def afterAll (c : UsageCache κ υ) (ops : List (Operation κ υ)) : UsageCache κ υ := ops.foldl after c

inductive Effect (υ : Type)
  | store (value : υ)
  | use
  | remove
  | sweep
  | nothing

def Operation.effect (key : κ) : Operation κ υ → Effect υ
  | .set k value => if k = key then .store value else .nothing
  | .setAll values =>
    match values.reverse.lookup key with
    | some value => .store value
    | none => .nothing
  | .get k | .getOr k _ => if k = key then .use else .nothing
  | .getAll keys => if key ∈ keys then .use else .nothing
  | .erase k => if k = key then .remove else .nothing
  | .eraseAll keys => if key ∈ keys then .remove else .nothing
  | .clear => .remove
  | .clean => .sweep
  | .contains _ | .expiry _ | .size | .advance _ | .setClock _ => .nothing

def Operation.keys : Operation κ υ → List κ
  | .set k _ | .get k | .getOr k _ | .contains k | .erase k | .expiry k => [k]
  | .setAll values => values.map Prod.fst
  | .getAll keys | .eraseAll keys => keys
  | .clean | .clear | .size | .advance _ | .setClock _ => []

/-- The operation only asks, and does not count as a use of a key in the cache. -/
def Operation.IsIdle (c : UsageCache κ υ) : Operation κ υ → Prop
  | .contains _ | .expiry _ | .size => True
  | .get k | .getOr k _ => c.contains k = false
  | .getAll keys => ∀ k ∈ keys, c.contains k = false
  | _ => False

def Effect.apply (c : UsageCache κ υ) (key : κ) (e : Option (Entry κ υ)) :
    Effect υ → Option (Entry κ υ)
  | .store value => some ⟨key, value, c.deadline⟩
  | .use => e.map fun e ↦ { e with expiry := c.deadline }
  | .remove => none
  | .sweep => e.filter fun e ↦ !c.isExpired e
  | .nothing => e

variable {c start : UsageCache κ υ} {ops before later : List (Operation κ υ)}
  {op last : Operation κ υ} {key : κ} {value : υ} {t : Nat}

theorem find?_after (h : c.Distinct) (op : Operation κ υ) (key : κ) :
    (c.after op).find? key = (op.effect key).apply c key (c.find? key) := by
  cases op with
  | set k value =>
    rw [Operation.effect]
    refine (find?_set c k key value).trans ?_
    split <;> rfl
  | setAll values =>
    rw [Operation.effect]
    refine (find?_setAll c values key).trans ?_
    cases values.reverse.lookup key <;> rfl
  | get k | getOr k =>
    rw [Operation.effect]
    refine (find?_touch c k key).trans ?_
    split <;> rfl
  | getAll keys =>
    rw [Operation.effect, after, run, getAll_eq]
    refine (find?_foldl_touch c keys key).trans ?_
    split <;> rfl
  | erase k =>
    rw [Operation.effect]
    refine (find?_erase c k key).trans ?_
    split <;> rfl
  | eraseAll keys =>
    rw [Operation.effect]
    refine (find?_eraseAll c keys key).trans ?_
    split <;> rfl
  | clean => exact find?_clean h key
  | _ => rfl

theorem Distinct.after (h : c.Distinct) (op : Operation κ υ) : (c.after op).Distinct := by
  cases op with
  | set k value => exact h.set k value
  | setAll values =>
    exact List.foldlRecOn (motive := Distinct) values _ h fun c hc kv _ ↦ hc.set kv.1 kv.2
  | get k | getOr k => exact h.touch k
  | getAll keys =>
    rw [UsageCache.after, run, getAll_eq]
    exact List.foldlRecOn (motive := Distinct) keys UsageCache.touch h fun c hc k _ ↦ hc.touch k
  | erase k => exact h.erase k
  | eraseAll keys =>
    exact List.foldlRecOn (motive := Distinct) keys _ h fun c hc k _ ↦ hc.erase k
  | clean => exact h.clean
  | clear => exact List.nodup_nil
  | _ => exact h

theorem timeToLive_after (c : UsageCache κ υ) (op : Operation κ υ) :
    (c.after op).timeToLive = c.timeToLive := by
  let Same (d : UsageCache κ υ) : Prop := d.timeToLive = c.timeToLive
  cases op with
  | setAll values => exact List.foldlRecOn (motive := Same) values _ rfl fun _ hd _ _ ↦ hd
  | getAll keys =>
    rw [after, run, getAll_eq]
    exact List.foldlRecOn (motive := Same) keys touch rfl fun _ hd _ _ ↦ hd
  | eraseAll keys => exact List.foldlRecOn (motive := Same) keys _ rfl fun _ hd _ _ ↦ hd
  | _ => rfl

theorem afterAll_concat (c : UsageCache κ υ) (ops : List (Operation κ υ)) (op : Operation κ υ) :
    c.afterAll (ops ++ [op]) = (c.afterAll ops).after op := by
  rw [afterAll, List.foldl_append]
  rfl

theorem Distinct.afterAll (h : c.Distinct) (ops : List (Operation κ υ)) :
    (c.afterAll ops).Distinct :=
  List.foldlRecOn (motive := Distinct) ops _ h fun _ hd op _ ↦ hd.after op

theorem timeToLive_afterAll (c : UsageCache κ υ) (ops : List (Operation κ υ)) :
    (c.afterAll ops).timeToLive = c.timeToLive := by
  induction ops using List.reverseRecOn with
  | nil => rfl
  | append_singleton ops op ih => rw [afterAll_concat, timeToLive_after, ih]

/-- `op` is the last operation with the property at the cache it meets. -/
structure IsLast (P : UsageCache κ υ → Operation κ υ → Prop) (start : UsageCache κ υ)
    (ops before : List (Operation κ υ)) (op : Operation κ υ) (later : List (Operation κ υ)) :
    Prop where
  split : ops = before ++ op :: later
  holds : P (start.afterAll before) op
  after : Throughout (fun mid next ↦ ¬P (start.afterAll (before ++ op :: mid)) next) later

def Touches (key : κ) (c : UsageCache κ υ) (op : Operation κ υ) : Prop :=
  (∃ value, op.effect key = .store value) ∨ op.effect key = .use ∧ c.contains key = true

def LastTouched (start : UsageCache κ υ) (ops : List (Operation κ υ)) (key : κ) (t : Nat) : Prop :=
  ∃ before op later, IsLast (Touches key) start ops before op later ∧
    (start.afterAll before).now = t

/-- The expiry that the last use gave the key has not passed. -/
def InTime (start : UsageCache κ υ) (ops : List (Operation κ υ)) (key : κ) : Prop :=
  ∃ t, LastTouched start ops key t ∧
    (start.afterAll ops).now ≤ min (t + start.timeToLive) (timeLimit - 1)

def LastSet (start : UsageCache κ υ) (key : κ) (value : υ) (ops before : List (Operation κ υ))
    (op : Operation κ υ) (later : List (Operation κ υ)) : Prop :=
  IsLast (fun _ op ↦ ∃ value, op.effect key = .store value) start ops before op later ∧
    op.effect key = .store value

/-- The key was set to the value, nothing removed it since, and each `clean` since came in time. -/
def Kept (start : UsageCache κ υ) (ops : List (Operation κ υ)) (key : κ) (value : υ) : Prop :=
  ∃ before op later, LastSet start key value ops before op later ∧
    (∀ next ∈ later, next.effect key ≠ .remove) ∧
    Throughout (fun mid next ↦ next = .clean → InTime start (before ++ op :: mid) key) later

theorem isLast_concat {P : UsageCache κ υ → Operation κ υ → Prop} :
    IsLast P start (ops ++ [last]) before op later ↔
      P (start.afterAll ops) last ∧ before = ops ∧ op = last ∧ later = [] ∨
        ¬P (start.afterAll ops) last ∧
          ∃ mid, later = mid ++ [last] ∧ IsLast P start ops before op mid := by
  constructor
  · rintro ⟨hs, hp, hlater⟩
    rcases List.eq_nil_or_concat later with rfl | ⟨mid, op', rfl⟩
    · obtain ⟨rfl, hop⟩ := List.append_inj' hs rfl
      obtain rfl := List.singleton_inj.mp hop
      exact .inl ⟨hp, rfl, rfl, rfl⟩
    · rw [List.concat_eq_append] at hs hlater ⊢
      rw [← List.cons_append, ← List.append_assoc] at hs
      obtain ⟨rfl, hop⟩ := List.append_inj' hs rfl
      obtain rfl := List.singleton_inj.mp hop
      obtain ⟨hmid, hlast⟩ := throughout_concat.mp hlater
      exact .inr ⟨hlast, mid, rfl, rfl, hp, hmid⟩
  · rintro (⟨hp, rfl, rfl, rfl⟩ | ⟨hlast, mid, rfl, rfl, hp, hmid⟩)
    · exact ⟨rfl, hp, throughout_nil⟩
    · exact ⟨by simp, hp, throughout_concat.mpr ⟨hmid, hlast⟩⟩

theorem lastTouched_concat :
    LastTouched start (ops ++ [last]) key t ↔
      Touches key (start.afterAll ops) last ∧ (start.afterAll ops).now = t ∨
        ¬Touches key (start.afterAll ops) last ∧ LastTouched start ops key t := by
  constructor
  · rintro ⟨before, op, later, h, ht⟩
    rcases isLast_concat.mp h with ⟨hp, rfl, rfl, rfl⟩ | ⟨hp, mid, rfl, hl⟩
    · exact .inl ⟨hp, ht⟩
    · exact .inr ⟨hp, before, op, mid, hl, ht⟩
  · rintro (⟨hp, ht⟩ | ⟨hp, before, op, mid, h, ht⟩)
    · exact ⟨ops, last, [], isLast_concat.mpr (.inl ⟨hp, rfl, rfl, rfl⟩), ht⟩
    · exact ⟨before, op, mid ++ [last], isLast_concat.mpr (.inr ⟨hp, mid, rfl, h⟩), ht⟩

theorem kept_concat :
    Kept start (ops ++ [last]) key value ↔
      last.effect key = .store value ∨
        (∀ v, last.effect key ≠ .store v) ∧ last.effect key ≠ .remove ∧
          Kept start ops key value ∧ (last = .clean → InTime start ops key) := by
  constructor
  · rintro ⟨before, op, later, ⟨h, hv⟩, hstay, hclean⟩
    rcases isLast_concat.mp h with ⟨-, rfl, rfl, rfl⟩ | ⟨hlast, mid, rfl, hl⟩
    · exact .inl hv
    · obtain ⟨hclean, hnow⟩ := throughout_concat.mp hclean
      rw [← hl.split] at hnow
      have hkept : Kept start ops key value :=
        ⟨before, op, mid, ⟨hl, hv⟩, fun next hn ↦ hstay next (by simp [hn]), hclean⟩
      exact .inr ⟨not_exists.mp hlast, hstay last (by simp), hkept, hnow⟩
  · rintro (hv | ⟨hlast, hstay, ⟨before, op, mid, ⟨h, hv⟩, hmid, hclean⟩, hnow⟩)
    · exact ⟨ops, last, [], ⟨isLast_concat.mpr (.inl ⟨⟨value, hv⟩, rfl, rfl, rfl⟩), hv⟩,
        fun _ hn ↦ absurd hn List.not_mem_nil, throughout_nil⟩
    · refine ⟨before, op, mid ++ [last],
        ⟨isLast_concat.mpr (.inr ⟨not_exists.mpr hlast, mid, rfl, h⟩), hv⟩, ?_, ?_⟩
      · intro next hn
        rcases List.mem_append.mp hn with hn | hn
        · exact hmid next hn
        · rwa [List.mem_singleton.mp hn]
      · rw [h.split] at hnow
        exact throughout_concat.mpr ⟨hclean, hnow⟩

theorem not_kept_nil : ¬Kept start [] key value := by
  rintro ⟨before, op, later, ⟨h, -⟩, -⟩
  simpa using h.split

theorem Kept.lastTouched (h : Kept start ops key value) : ∃ t, LastTouched start ops key t := by
  induction ops using List.reverseRecOn with
  | nil => exact absurd h not_kept_nil
  | append_singleton ops last ih =>
    by_cases htouch : Touches key (start.afterAll ops) last
    · exact ⟨_, lastTouched_concat.mpr (.inl ⟨htouch, rfl⟩)⟩
    · rcases kept_concat.mp h with hset | ⟨-, -, hk, -⟩
      · exact absurd (.inl ⟨value, hset⟩) htouch
      · obtain ⟨t, ht⟩ := ih hk
        exact ⟨t, lastTouched_concat.mpr (.inr ⟨htouch, ht⟩)⟩

theorem effect_eq_sweep_iff (key : κ) : op.effect key = .sweep ↔ op = .clean := by
  constructor
  · intro h
    cases op with
    | clean => rfl
    | _ =>
      simp only [Operation.effect] at h
      try split at h
      all_goals cases h
  · rintro rfl
    rfl

/-- The entry of a key that is there, by its history. -/
theorem find?_afterAll (hstart : start.entries = []) (ops : List (Operation κ υ)) (key : κ)
    (e : Entry κ υ) :
    (start.afterAll ops).find? key = some e ↔
      ∃ value t, Kept start ops key value ∧ LastTouched start ops key t ∧
        e = ⟨key, value, min (t + start.timeToLive) (timeLimit - 1)⟩ := by
  have hdistinct := distinct_of_entries_eq_nil hstart
  induction ops using List.reverseRecOn generalizing e with
  | nil =>
    have hnone : (start.afterAll []).find? key = none := by
      simp [afterAll, find?, hstart]
    simp [hnone, not_kept_nil]
  | append_singleton ops last ih =>
    have hdeadline : (start.afterAll ops).deadline =
        min ((start.afterAll ops).now + start.timeToLive) (timeLimit - 1) := by
      rw [deadline, timeToLive_afterAll]
    rw [afterAll_concat, find?_after (hdistinct.afterAll ops)]
    simp only [kept_concat, lastTouched_concat, Touches, ← effect_eq_sweep_iff key]
    cases heff : last.effect key with
    | store v =>
      simp only [Effect.apply, hdeadline, Option.some.injEq, Effect.store.injEq, ne_eq, forall_eq',
        reduceCtorEq, not_false_eq_true, IsEmpty.forall_iff, and_true, true_and, false_and,
        or_false, exists_eq', not_true_eq_false, exists_and_left, ↓existsAndEq, exists_eq_left']
      exact eq_comm
    | use =>
      simp only [Effect.apply, hdeadline, Option.map_eq_some_iff, reduceCtorEq, ne_eq,
        not_false_eq_true, implies_true, IsEmpty.forall_iff, and_true, true_and, false_or,
        exists_false, Bool.not_eq_true, exists_and_left]
      constructor
      · rintro ⟨e', he', rfl⟩
        obtain ⟨value, t, hk, -, rfl⟩ := (ih e').mp he'
        exact ⟨value, hk, _, .inl ⟨Option.isSome_of_eq_some he', rfl⟩, rfl⟩
      · rintro ⟨value, hk, t, ht, rfl⟩
        obtain ⟨t', ht'⟩ := hk.lastTouched
        have he' := (ih _).mpr ⟨value, t', hk, ht', rfl⟩
        rcases ht with ⟨-, rfl⟩ | ⟨hno, -⟩
        · exact ⟨_, he', rfl⟩
        · exact absurd (Option.isSome_of_eq_some he') (by simpa [contains] using hno)
    | remove => simp [Effect.apply]
    | sweep =>
      simp only [Effect.apply, Option.filter_eq_some_iff, Bool.not_eq_eq_eq_not, Bool.not_true,
        reduceCtorEq, ne_eq, not_false_eq_true, implies_true, forall_const, true_and, false_or,
        exists_false, false_and, or_self, exists_and_left]
      constructor
      · rintro ⟨he, hlive⟩
        obtain ⟨value, t, hk, ht, rfl⟩ := (ih e).mp he
        exact ⟨value, ⟨hk, t, ht, by simpa [isExpired] using hlive⟩, t, ht, rfl⟩
      · rintro ⟨value, ⟨hk, t, ht, hnow⟩, t', ht', rfl⟩
        have he := (ih _).mpr ⟨value, t, hk, ht, rfl⟩
        have he' := (ih _).mpr ⟨value, t', hk, ht', rfl⟩
        rw [← Option.some.inj (he.symm.trans he')]
        exact ⟨he, by simpa [isExpired] using hnow⟩
    | nothing => simp [Effect.apply, ih]

theorem after_of_isIdle (h : op.IsIdle c) : c.after op = c := by
  cases op with
  | get k | getOr k => exact touch_of_contains_eq_false h
  | getAll keys =>
    rw [after, run, getAll_eq]
    refine List.foldlRecOn (motive := fun d ↦ d = c) keys touch rfl fun d hd k hk ↦ ?_
    rw [hd, touch_of_contains_eq_false (h k hk)]
  | contains | expiry | size => rfl
  | _ => exact h.elim

theorem effect_eq_nothing (h : key ∉ op.keys) (hclean : op ≠ .clean) (hclear : op ≠ .clear) :
    op.effect key = .nothing := by
  cases op with
  | setAll values =>
    have hnone : values.reverse.lookup key = none := by
      rw [List.lookup_eq_none_iff]
      intro kv hkv
      have hne : key ≠ kv.1 := fun he ↦ h (he ▸ List.mem_map_of_mem (List.mem_reverse.mp hkv))
      exact bne_iff_ne.mpr hne
    rw [Operation.effect, hnone]
  | set | get | getOr | erase => exact if_neg fun he ↦ h (List.mem_singleton.mpr he.symm)
  | getAll | eraseAll => exact if_neg h
  | clean => exact absurd rfl hclean
  | clear => exact absurd rfl hclear
  | _ => rfl

theorem find?_after_of_notMem (hc : c.Distinct) (h : key ∉ op.keys) :
    (c.after op).find? key = c.find? key ∨
      (op = .clean ∨ op = .clear) ∧ (c.after op).find? key = none := by
  rw [find?_after hc]
  by_cases hclean : op = .clean
  · subst hclean
    rw [Operation.effect, Effect.apply]
    cases c.find? key with
    | none => exact .inl rfl
    | some e =>
      rw [Option.filter_some]
      split
      · exact .inl rfl
      · exact .inr ⟨.inl rfl, rfl⟩
  · by_cases hclear : op = .clear
    · subst hclear
      exact .inr ⟨.inr rfl, rfl⟩
    · rw [effect_eq_nothing h hclean hclear]
      exact .inl rfl

theorem clean_removes (h : c.Distinct) :
    ∃ removed : List κ, removed.Nodup ∧ c.clean.1 = removed.length ∧
      ∀ key, key ∈ removed ↔ c.contains key = true ∧ c.clean.2.contains key = false := by
  refine ⟨(c.entries.filter c.isExpired).map Entry.key, h.sublist (List.filter_sublist.map _), ?_,
    fun key ↦ ?_⟩
  · rw [UsageCache.clean, List.length_map, List.countP_eq_length_filter]
  · rw [contains_iff, contains_eq_false_iff, List.mem_map]
    constructor
    · rintro ⟨e, he, rfl⟩
      obtain ⟨he, hexpired⟩ := List.mem_filter.mp he
      refine ⟨⟨e, he, rfl⟩, fun e' he' hkey ↦ ?_⟩
      obtain ⟨he', hlive⟩ := List.mem_filter.mp he'
      rw [List.inj_on_of_nodup_map h he' he hkey, hexpired] at hlive
      cases hlive
    · rintro ⟨⟨e, he, rfl⟩, hgone⟩
      have hexpired : c.isExpired e = true := by
        by_contra hlive
        exact hgone e (List.mem_filter.mpr ⟨he, by simpa using hlive⟩) rfl
      exact ⟨e, List.mem_filter.mpr ⟨he, hexpired⟩, rfl⟩

/-- A cache is as the history of its operations tells. -/
structure Follows (c start : UsageCache κ υ) (ops : List (Operation κ υ)) : Prop where
  contains (key : κ) :
    (c.run (.contains key)).1 = .flag true ↔ ∃ value, Kept start ops key value
  get {key : κ} {value : υ} (h : Kept start ops key value) :
    (c.run (.get key)).1 = .value (some value)
  getOr {key : κ} {value : υ} (h : Kept start ops key value) (default : υ) :
    (c.run (.getOr key default)).1 = .value (some value)
  getAll (keys : List κ) :
    (c.run (.getAll keys)).1 = .values (keys.map fun key ↦ (c.get key).1)
  touched {key : κ} {value : υ} (h : Kept start ops key value) : ∃ t, LastTouched start ops key t
  expiry {key : κ} {value : υ} {t : Nat} (h : Kept start ops key value)
    (ht : LastTouched start ops key t) :
    (c.run (.expiry key)).1 = .expiry (some (min (t + start.timeToLive) (timeLimit - 1)))
  clean : ∃ removed : List κ, removed.Nodup ∧
    (c.run .clean).1 = .count removed.length ∧
    ∀ key, key ∈ removed ↔ c.contains key = true ∧ (c.after .clean).contains key = false
  idle {op : Operation κ υ} (h : op.IsIdle c) : c.after op = c
  others {op : Operation κ υ} {key : κ} (h : key ∉ op.keys) :
    (c.after op).find? key = c.find? key ∨
      (op = .clean ∨ op = .clear) ∧ (c.after op).find? key = none

/-- Whether a key is there can be told from the history alone: nothing removed it since its last
`set`, and every `clean` since came no later than the expiry that the last use before it gave the
key. -/
theorem follows_afterAll (timeToLive now : Nat) (ops : List (Operation κ υ)) :
    Follows (afterAll { timeToLive, now } ops) { timeToLive, now } ops := by
  set start : UsageCache κ υ := { timeToLive, now }
  have hdistinct : (start.afterAll ops).Distinct := (distinct_of_entries_eq_nil rfl).afterAll ops
  have hfind {key : κ} {value : υ} {t : Nat} (h : Kept start ops key value)
      (ht : LastTouched start ops key t) :
      (start.afterAll ops).find? key =
        some ⟨key, value, min (t + start.timeToLive) (timeLimit - 1)⟩ :=
    (find?_afterAll rfl ops key _).mpr ⟨value, t, h, ht, rfl⟩
  have hpeek {key : κ} {value : υ} (h : Kept start ops key value) :
      (start.afterAll ops).peek? key = some value := by
    obtain ⟨t, ht⟩ := h.lastTouched
    rw [peek?, hfind h ht]
    rfl
  constructor
  case contains =>
    intro key
    have hflag : ((start.afterAll ops).run (.contains key)).1 = .flag true ↔
        ∃ e, (start.afterAll ops).find? key = some e := by
      rw [run, Answer.flag.injEq, UsageCache.contains, Option.isSome_iff_exists]
    rw [hflag]
    constructor
    · rintro ⟨e, he⟩
      obtain ⟨value, -, h, -⟩ := (find?_afterAll rfl ops key e).mp he
      exact ⟨value, h⟩
    · rintro ⟨value, h⟩
      obtain ⟨t, ht⟩ := h.lastTouched
      exact ⟨_, hfind h ht⟩
  case get =>
    intro key value h
    exact congrArg Answer.value (hpeek h)
  case getOr =>
    intro key value h default
    exact congrArg (fun v : Option υ ↦ Answer.value (some (v.getD default))) (hpeek h)
  case getAll =>
    intro keys
    rw [run, getAll_eq]
    rfl
  case touched => exact Kept.lastTouched
  case expiry =>
    intro key value t h ht
    rw [run, expiry?, hfind h ht]
    rfl
  case clean =>
    obtain ⟨removed, hnodup, hcount, hmem⟩ := clean_removes hdistinct
    exact ⟨removed, hnodup, congrArg Answer.count hcount, hmem⟩
  case idle => exact after_of_isIdle
  case others => exact find?_after_of_notMem hdistinct

example : (afterAll { timeToLive := 180, now := 0 }
    [.set 1 'a', .set 2 'b', .advance 200, .get 1, .clean]).entries = [⟨1, 'a', 380⟩] := rfl

end UsageCache

end PhpInsight

import PhpInsight.Proofs.Inheritance.Override

namespace PhpInsight

open Relation

namespace Workspace

variable {w : Workspace} {cache : ClassCache} {path : List String} {a b c x : ClassInfo}
  {name : String}

/-- A class is met on a way up from another one that enters no class of a path. -/
inductive Reaches (w : Workspace) (path : List String) : ClassInfo → ClassInfo → Prop
  | refl (c : ClassInfo) : Reaches w path c c
  | up {a b c : ClassInfo} {name : String} (hn : classKey name ∈ c.superKeys)
      (hout : classKey name ∉ path) (ha : w.locate? name = some a) (h : Reaches w path a b) :
      Reaches w path c b

/-- A way up either never enters a class, or leaves it for the last time. -/
theorem Reaches.leaves (hc : w.locate? name = some c) (h : w.Reaches path x b) :
    w.Reaches (classKey name :: path) x b ∨ w.Reaches (classKey name :: path) c b := by
  induction h with
  | refl x => exact .inl (.refl x)
  | @up a b x name' hn hout ha _ ih =>
    rcases ih with h | h
    · by_cases hkey : classKey name' = classKey name
      · have hsame : a = c := Option.some.inj (ha.symm.trans (w.locate?_congr hkey ▸ hc))
        exact .inr (hsame ▸ h)
      · exact .inl (.up hn (by simp [hkey, hout]) ha h)
    · exact .inr h

theorem Reaches.leave (hc : w.locate? name = some c) (h : w.Reaches path c b) :
    w.Reaches (classKey name :: path) c b := (h.leaves hc).elim id id

theorem Lineage.up (hn : classKey name ∈ c.superKeys) (ha : w.locate? name = some a)
    (h : w.Lineage a b) : w.Lineage c b := by
  rcases h with rfl | ⟨name', habove, hb⟩
  · exact .inr ⟨name, above_of_mem hn, ha⟩
  · exact .inr ⟨name', habove.up ha hn, hb⟩

theorem Reaches.lineage (h : w.Reaches path c b) : w.Lineage c b := by
  induction h with
  | refl c => exact .inl rfl
  | up hn _ ha _ ih => exact ih.up hn ha

theorem Lineage.reaches (h : w.Lineage c b) : w.Reaches [] c b := by
  rcases h with rfl | ⟨name, ⟨key, hkey, hup⟩, hb⟩
  · exact .refl b
  · induction hup using ReflTransGen.head_induction_on generalizing c with
    | refl => exact .up hkey List.not_mem_nil hb (.refl b)
    | head hext _ ih =>
      obtain ⟨name', a, rfl, ha, hnext⟩ := hext
      exact .up hkey List.not_mem_nil ha (ih hnext)

end Workspace

namespace MemberTable

open Workspace

variable {α : Type} {T : MemberTable α} {w : Workspace} {cache : ClassCache} {path : List String}
  {a c flat : ClassInfo} {name : String}

theorem prefix_inherit (c a : ClassInfo) (withPrivate : Bool) :
    T.of c <+: T.of (c.inherit a withPrivate) := by
  rw [T.of_inherit]
  exact ClassInfo.prefix_inheritMembers _ _

theorem prefix_foldl (c : ClassInfo) (sources : List (Bool × ClassInfo)) :
    T.of c <+: T.of (sources.foldl (fun c s ↦ c.inherit s.2 s.1) c) := by
  induction sources generalizing c with
  | nil => exact List.prefix_refl _
  | cons s ss ih => exact (T.prefix_inherit c s.2 s.1).trans (ih _)

theorem mem_foldl {c : ClassInfo} {sources : List (Bool × ClassInfo)} {m : α}
    (h : m ∈ T.of (sources.foldl (fun c s ↦ c.inherit s.2 s.1) c)) :
    m ∈ T.of c ∨ ∃ s ∈ sources, m ∈ T.given s := by
  induction sources generalizing c with
  | nil => exact .inl h
  | cons s ss ih =>
    rcases ih h with h | ⟨s', hs', hm⟩
    · rw [T.of_inherit] at h
      rcases ClassInfo.mem_of_mem_inheritMembers h with h | h
      · exact .inl h
      · exact .inr ⟨s, List.mem_cons_self, h⟩
    · exact .inr ⟨s', List.mem_cons_of_mem _ hs', hm⟩

theorem exists_key_foldl {c : ClassInfo} {sources : List (Bool × ClassInfo)}
    {s : Bool × ClassInfo} (hs : s ∈ sources) {m : α} (hm : m ∈ T.given s) :
    ∃ n ∈ T.of (sources.foldl (fun c s ↦ c.inherit s.2 s.1) c), T.key n = T.key m := by
  induction sources generalizing c with
  | nil => cases hs
  | cons s' ss ih =>
    rcases List.mem_cons.mp hs with rfl | hs
    · obtain ⟨hm, hv⟩ := List.mem_filter.mp hm
      obtain ⟨n, hn, hkey⟩ : ∃ n ∈ T.of (c.inherit s.2 s.1),
          n = m ∨ decide (T.key n = T.key m) = true := by
        rw [T.of_inherit]
        exact ClassInfo.exists_of_mem_inherited hm hv
      refine ⟨n, (T.prefix_foldl _ ss).subset hn, ?_⟩
      rcases hkey with rfl | hkey
      · rfl
      · exact of_decide_eq_true hkey
    · exact ih hs

def Open (T : MemberTable α) (w : Workspace) (c : ClassInfo) (key : String) : Prop :=
  ∀ a, w.Lineage c a → ∀ m ∈ T.of a, T.key m = key → (T.modifiers m).visibility ≠ .private

/-- What is true of a flattened class whatever is remembered. It has the members of the classes in
`met`, up to those that share a key. -/
structure Gathers (T : MemberTable α) (w : Workspace) (c flat : ClassInfo)
    (met : ClassInfo → Prop) : Prop where
  own : T.of c <+: T.of flat
  declared : ∀ m ∈ T.of flat, ∃ a, w.Lineage c a ∧ m ∈ T.of a
  complete : ∀ a, met a → ∀ m ∈ T.of a, T.Open w c (T.key m) → ∃ n ∈ T.of flat, T.key n = T.key m

theorem Gathers.mono {met met' : ClassInfo → Prop} (h : T.Gathers w c flat met)
    (hmet : ∀ a, met' a → met a) : T.Gathers w c flat met' :=
  ⟨h.own, h.declared, fun a ha ↦ h.complete a (hmet a ha)⟩

theorem Open.up {key : String} (h : T.Open w c key) (hn : classKey name ∈ c.superKeys)
    (ha : w.locate? name = some a) : T.Open w a key :=
  fun b hb ↦ h b (hb.up hn ha)

/-- One step up: the sources stand for the supertypes that are off the path, and each of them has
what is met from there. -/
theorem gathers_foldl {sources : List (Bool × ClassInfo)} (hc : w.locate? name = some c)
    (hfrom : ∀ s ∈ sources, ∃ name' a, classKey name' ∈ c.superKeys ∧ w.locate? name' = some a ∧
      T.Gathers w a s.2 (w.Reaches (classKey name :: path) a))
    (hall : ∀ name' a, classKey name' ∈ c.superKeys → classKey name' ∉ classKey name :: path →
      w.locate? name' = some a →
        ∃ s ∈ sources, T.Gathers w a s.2 (w.Reaches (classKey name :: path) a)) :
    T.Gathers w c (sources.foldl (fun c s ↦ c.inherit s.2 s.1) c) (w.Reaches path c) where
  own := T.prefix_foldl c sources
  declared := by
    intro m hm
    rcases T.mem_foldl hm with hm | ⟨s, hs, hm⟩
    · exact ⟨c, .inl rfl, hm⟩
    · obtain ⟨name', a, hn, ha, hgathers⟩ := hfrom s hs
      obtain ⟨b, hb, hmb⟩ := hgathers.declared m (List.mem_filter.mp hm).1
      exact ⟨b, hb.up hn ha, hmb⟩
  complete := by
    intro b hb m hm hopen
    cases hb.leave hc with
    | refl => exact ⟨m, (T.prefix_foldl c sources).subset hm, rfl⟩
    | up hn hout ha hup =>
      obtain ⟨s, hs, hgathers⟩ := hall _ _ hn hout ha
      obtain ⟨n, hmem, hkey⟩ := hgathers.complete b hup m hm (hopen.up hn ha)
      have hvisible : T.visible s.1 n = true := by
        obtain ⟨b', hb', hnb⟩ := hgathers.declared n hmem
        simp [visible, hopen b' (hb'.up hn ha) n hnb hkey]
      obtain ⟨n', hn', hkey'⟩ := T.exists_key_foldl (c := c) hs
        (List.mem_filter.mpr ⟨hmem, hvisible⟩)
      exact ⟨n', hn', hkey'.trans hkey⟩

end MemberTable

namespace Workspace

variable {w : Workspace} {cache : ClassCache} {path : List String} {a c flat : ClassInfo}
  {name : String}

/-- What reflection can give for a class, whatever is remembered. -/
structure Form (w : Workspace) (c flat : ClassInfo) : Prop where
  gathers {α : Type} (T : MemberTable α) : T.Gathers w c flat (w.Lineage c)
  eq_of_grounded : w.Grounded c → flat = w.flattened {} c

/-- A cache of the present and earlier generations, which under the present one holds forms of
classes of the workspace. -/
def Kept (w : Workspace) : ClassCache → Prop := w.Caches w.Form

theorem Kept.faithful (hs : w.Kept cache) : w.Faithful cache :=
  hs.imp fun _ _ hform ↦ hform.eq_of_grounded

theorem ancestor?_isSome (hout : classKey name ∉ path) (ha : w.locate? name = some a)
    (cache : ClassCache) (fuel : Nat) : (w.ancestor? cache fuel path name).isSome = true := by
  rw [ancestor?, if_neg (by simpa using hout), ha]
  cases w.remembered? cache name <;> rfl

theorem ancestor?_gathers {α : Type} {T : MemberTable α} (hs : w.Kept cache) {fuel : Nat}
    (hflat : ∀ a, classKey name ∉ path → w.locate? name = some a →
      T.Gathers w a (w.flatten cache fuel path a) (w.Reaches path a))
    (h : w.ancestor? cache fuel path name = some flat) :
    ∃ a, w.locate? name = some a ∧ T.Gathers w a flat (w.Reaches path a) := by
  by_cases hout : classKey name ∈ path
  · rw [ancestor?, if_pos (by simpa using hout)] at h
    cases h
  · rw [ancestor?, if_neg (by simpa using hout)] at h
    cases hr : w.remembered? cache name with
    | some known =>
      obtain ⟨a, ha, hform⟩ := Caches.remembered? hs hr
      rw [hr] at h
      cases h
      exact ⟨a, ha, (hform.gathers T).mono fun b hb ↦ hb.lineage⟩
    | none =>
      rw [hr] at h
      obtain ⟨a, ha, rfl⟩ := Option.map_eq_some_iff.mp h
      exact ⟨a, ha, hflat a hout ha⟩

/-- The path has no class twice, so that the fuel lasts until it cannot grow. -/
theorem flatten_gathers {α : Type} {T : MemberTable α} (hs : w.Kept cache) {fuel : Nat}
    (hc : w.locate? name = some c) (hp : (classKey name :: path).Nodup) (hk : path ⊆ w.keys)
    (hn : w.keys.length < fuel + path.length) :
    T.Gathers w c (w.flatten cache fuel path c) (w.Reaches path c) := by
  -- The path has no key twice, so that it cannot grow longer than the fuel lasts.
  have hk' : classKey name :: path ⊆ w.keys := List.cons_subset.mpr ⟨mem_keys hc, hk⟩
  induction fuel generalizing path name c with
  | zero =>
    have hle := (hp.subperm hk').length_le
    rw [List.length_cons] at hle
    omega
  | succ fuel ih =>
    have hflat (name' : String) (a : ClassInfo) (hout : classKey name' ∉ classKey name :: path)
        (ha : w.locate? name' = some a) :
        T.Gathers w a (w.flatten cache fuel (classKey name :: path) a)
          (w.Reaches (classKey name :: path) a) := by
      refine ih ha (List.nodup_cons.mpr ⟨hout, hp⟩) hk' ?_
        (List.cons_subset.mpr ⟨mem_keys ha, hk'⟩)
      rw [List.length_cons]
      omega
    rw [flatten_succ, lower_name hc]
    refine T.gathers_foldl hc ?_ ?_
    · intro s hs'
      obtain ⟨b, hb, hs'⟩ := List.mem_filterMap.mp hs'
      obtain ⟨flat, hflat', rfl⟩ := Option.map_eq_some_iff.mp hs'
      obtain ⟨a, ha, hgathers⟩ := ancestor?_gathers hs (hflat b.2) hflat'
      exact ⟨b.2, a, List.mem_map_of_mem hb, ha, hgathers⟩
    · intro name' a hn' hout ha
      obtain ⟨b, hb, hkey⟩ := List.mem_map.mp hn'
      have ha' : w.locate? b.2 = some a := (w.locate?_congr hkey).trans ha
      have hout' : classKey b.2 ∉ classKey name :: path := by
        rw [hkey]
        exact hout
      obtain ⟨flat, hflat'⟩ := Option.isSome_iff_exists.mp
        (ancestor?_isSome (w := w) hout' ha' cache fuel)
      obtain ⟨a', ha'', hgathers⟩ := ancestor?_gathers hs (hflat b.2) hflat'
      obtain rfl : a' = a := Option.some.inj (ha''.symm.trans ha')
      refine ⟨(b.1, flat), List.mem_filterMap.mpr ⟨b, hb, ?_⟩, hgathers⟩
      rw [hflat', Option.map_some]

theorem Grounded.clear_self (hg : w.Grounded c) (hc : w.locate? name = some c) : w.Clear [] c := by
  intro u hu hup
  rw [List.mem_singleton.mp hu, lower_name hc] at hup
  exact hg _ hup (transGen_of_above hc hup)

theorem flattened_form (hs : w.Kept cache) (hc : w.locate? name = some c) :
    w.Form c (w.flattened cache c) where
  gathers T := by
    have hgathers : T.Gathers w c (w.flattened cache c) (w.Reaches [] c) := by
      refine flatten_gathers hs hc (List.nodup_singleton _) (List.nil_subset _) ?_
      simp [length_keys]
    exact hgathers.mono fun a ha ↦ ha.reaches
  eq_of_grounded hg :=
    flatten_eq hg hs.faithful hg.fits (hg.clear_self hc) caches_empty hg.fits
      (hg.clear_self hc)

theorem reflect?_form (hs : w.Kept cache) (name : String) :
    ∃ answer cache', (w.reflect? name).run cache = (answer, cache') ∧ w.Kept cache' ∧
      answer.isSome = (w.locate? name).isSome ∧
      ∀ flat, answer = some flat → ∃ c, w.locate? name = some c ∧ w.Form c flat :=
  Caches.reflect? hs name fun _ hc ↦ flattened_form hs hc

theorem Left.kept (h : w.Left cache) : w.Kept cache :=
  h.caches fun _ _ hs _ _ hc ↦ flattened_form hs hc

end Workspace

structure MemberTable.Agree {α : Type} (T : MemberTable α) (w : Workspace)
    (c flat fresh : ClassInfo) : Prop where
  gathers : T.Gathers w c flat (w.Lineage c)
  sameKeys (key : String) : T.Open w c key →
    (key ∈ (T.of flat).map T.key ↔ key ∈ (T.of fresh).map T.key)

theorem MemberTable.Gathers.mem_keys_iff {α : Type} {T : MemberTable α} {w : Workspace}
    {c flat : ClassInfo} (h : T.Gathers w c flat (w.Lineage c)) {key : String}
    (hopen : T.Open w c key) :
    key ∈ (T.of flat).map T.key ↔ ∃ a, w.Lineage c a ∧ key ∈ (T.of a).map T.key := by
  constructor
  · intro hkey
    obtain ⟨m, hm, rfl⟩ := List.mem_map.mp hkey
    obtain ⟨a, ha, hma⟩ := h.declared m hm
    exact ⟨a, ha, List.mem_map_of_mem hma⟩
  · rintro ⟨a, ha, hkey⟩
    obtain ⟨m, hm, rfl⟩ := List.mem_map.mp hkey
    obtain ⟨n, hn, hkey⟩ := h.complete a ha m hm hopen
    exact List.mem_map.mpr ⟨n, hn, hkey⟩

namespace Workspace

variable {w : Workspace} {cache : ClassCache} {c flat fresh : ClassInfo}

structure Agree (w : Workspace) (c flat fresh : ClassInfo) : Prop where
  eq_of_grounded : w.Grounded c → flat = fresh
  methods : MemberTable.methods.Agree w c flat fresh
  properties : MemberTable.properties.Agree w c flat fresh
  constants : MemberTable.constants.Agree w c flat fresh

theorem Form.agree (h : w.Form c flat) (h' : w.Form c fresh) : w.Agree c flat fresh := by
  have hkeys {α : Type} (T : MemberTable α) : T.Agree w c flat fresh :=
    ⟨h.gathers T, fun key hopen ↦
      ((h.gathers T).mem_keys_iff hopen).trans ((h'.gathers T).mem_keys_iff hopen).symm⟩
  refine ⟨fun hg ↦ ?_, hkeys _, hkeys _, hkeys _⟩
  rw [h.eq_of_grounded hg, h'.eq_of_grounded hg]

/-- Earlier reflection decides neither whether a class is found, nor, where no class above it is on
a cycle, what it is found to be. On cycles it does not decide which keys the class has. -/
theorem reflected_agree (hcache : w.Left cache) (name : String) :
    Option.Rel (fun flat fresh ↦ ∃ c, w.locate? name = some c ∧ w.Agree c flat fresh)
      ((w.reflect? name).run cache).1 ((w.reflect? name).run {}).1 := by
  have hstart : w.Left {} := .start (by simp)
  obtain ⟨answer, _, hrun, _, hsome, hform⟩ := reflect?_form hcache.kept name
  obtain ⟨answer', _, hrun', _, hsome', hform'⟩ := reflect?_form hstart.kept name
  rw [hrun, hrun']
  cases answer with
  | none =>
    cases answer' with
    | none => exact .none
    | some fresh =>
      rw [← hsome] at hsome'
      cases hsome'
  | some flat =>
    cases answer' with
    | none =>
      rw [← hsome] at hsome'
      cases hsome'
    | some fresh =>
      obtain ⟨c, hc, hflat⟩ := hform flat rfl
      obtain ⟨c', hc', hfresh⟩ := hform' fresh rfl
      obtain rfl : c' = c := Option.some.inj (hc'.symm.trans hc)
      exact .some ⟨c', hc, hflat.agree hfresh⟩

/-- Two classes that extend each other, each with an interface that has the same method. -/
def looped : Workspace where
  registry :=
    let source := "<?php class A extends P implements Q{} class P extends A implements R{}" ++
      "interface Q{function m();} interface R{function m();}"
    ((Document.parse 0 "loop.php" source.toList 0).toOption.map ({} : Registry).add).getD {}

/-- The class that is asked for first decides where a method comes from. -/
theorem declaringClass_looped :
    (((looped.reflect? "A").run {}).1.map fun c ↦ c.methods.map MethodInfo.declaringClass) =
        some ["R"] ∧
      (((looped.reflect? "A").run ((looped.reflect? "P").run {}).2).1.map fun c ↦
        c.methods.map MethodInfo.declaringClass) = some ["Q"] := by
  decide +kernel

theorem reflected_agree_looped :
    looped.Left ((looped.reflect? "P").run {}).2 ∧
      ((looped.reflect? "A").run ((looped.reflect? "P").run {}).2).1.isSome = true ∧
      Option.Rel (fun flat fresh ↦ ∃ c, looped.locate? "A" = some c ∧ looped.Agree c flat fresh)
        ((looped.reflect? "A").run ((looped.reflect? "P").run {}).2).1
        ((looped.reflect? "A").run {}).1 := by
  have hleft : looped.Left ((looped.reflect? "P").run {}).2 := .reflect (.start (by simp)) "P"
  have hfound : ((looped.reflect? "A").run ((looped.reflect? "P").run {}).2).1.isSome = true := by
    decide +kernel
  exact ⟨hleft, hfound, reflected_agree hleft "A"⟩

end Workspace

end PhpInsight

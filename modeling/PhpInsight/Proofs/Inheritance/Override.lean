import PhpInsight.Proofs.Inheritance.Members
import PhpInsight.Proofs.Inheritance.Remembered

namespace PhpInsight

namespace Workspace

variable {w : Workspace} {cache : ClassCache}

def supers (w : Workspace) (c : ClassInfo) : List (Bool × ClassInfo) :=
  c.bases.filterMap fun b ↦ (w.locate? b.2).map fun a ↦ (b.1, w.flattened {} a)

theorem mem_supers {c : ClassInfo} {s : Bool × ClassInfo} (h : s ∈ w.supers c) :
    ∃ name a, classKey name ∈ c.superKeys ∧ w.locate? name = some a ∧ s.2 = w.flattened {} a := by
  obtain ⟨b, hb, hs⟩ := List.mem_filterMap.mp h
  obtain ⟨a, ha, rfl⟩ := Option.map_eq_some_iff.mp hs
  exact ⟨b.2, a, List.mem_map_of_mem hb, ha, rfl⟩

theorem flattened_eq_foldl (hw : w.Acyclic) {c : ClassInfo} (hc : w.Clear [] c) :
    w.flattened {} c = (w.supers c).foldl (fun c s ↦ c.inherit s.2 s.1) c := by
  have hg := hw.grounded c
  have hsame : ∀ b ∈ c.bases,
      (w.ancestor? {} w.classCount [Text.lower c.name] b.2).map (b.1, ·) =
        (w.locate? b.2).map fun a ↦ (b.1, w.flattened {} a) := by
    intro b hb
    have hkey : classKey b.2 ∈ c.superKeys := List.mem_map_of_mem hb
    have hflat (a : ClassInfo) (ha : w.locate? b.2 = some a) :
        w.flatten {} w.classCount [Text.lower c.name] a = w.flattened {} a :=
      flatten_eq (hg.up hkey ha) caches_empty (hw.fits c b.2 a hkey ha)
        (hc.up hg hkey ha) caches_empty (hw.fits a) (hw.clear ha)
    rw [ancestor?_eq hg caches_empty hc hkey hflat, Option.map_map]
    rfl
  rw [flattened, flatten_succ, supers, List.filterMap_congr hsame]

theorem Acyclic.induction (hw : w.Acyclic) {P : ClassInfo → Prop}
    (step : ∀ c, (∀ name a, classKey name ∈ c.superKeys → w.locate? name = some a → P a) → P c)
    (c : ClassInfo) : P c := by
  have hfits : ∀ n c, w.Fits n c → P c := by
    intro n
    induction n with
    | zero => exact fun c h ↦ h.elim
    | succ n ih => exact fun c h ↦ step c fun name a hname ha ↦ ih a (h name a hname ha)
  exact hfits _ c (hw.fits c)

def Lineage (w : Workspace) (c a : ClassInfo) : Prop :=
  a = c ∨ ∃ name, w.Above c (classKey name) ∧ w.locate? name = some a

end Workspace

namespace MemberTable

variable {α : Type} {T : MemberTable α} {w : Workspace}

theorem distinct_flattened (hw : w.Acyclic)
    (hown : ∀ name a, w.locate? name = some a → T.Distinct (T.of a)) {c : ClassInfo}
    (hc : w.Clear [] c) (hd : T.Distinct (T.of c)) : T.Distinct (T.of (w.flattened {} c)) := by
  revert hc hd
  refine hw.induction (P := fun c ↦ w.Clear [] c → T.Distinct (T.of c) →
    T.Distinct (T.of (w.flattened {} c))) (fun c ih hc hd ↦ ?_) c
  have hs : ∀ s ∈ w.supers c, T.Distinct (T.of s.2) := by
    intro s hs
    obtain ⟨name, a, hname, ha, heq⟩ := Workspace.mem_supers hs
    rw [heq]
    exact ih name a hname ha (hw.clear ha) (hown name a ha)
  rw [Workspace.flattened_eq_foldl hw hc, T.of_foldl_inherit c _ hs]
  exact hd.resolve hs

theorem of_flattened (hw : w.Acyclic)
    (hown : ∀ name a, w.locate? name = some a → T.Distinct (T.of a)) {c : ClassInfo}
    (hc : w.Clear [] c) : T.of (w.flattened {} c) = T.resolve (T.of c) (w.supers c) := by
  rw [Workspace.flattened_eq_foldl hw hc]
  apply T.of_foldl_inherit
  intro s hs
  obtain ⟨name, a, _, ha, heq⟩ := Workspace.mem_supers hs
  rw [heq]
  exact distinct_flattened hw hown (hw.clear ha) (hown name a ha)

theorem lineage_of_mem_flattened (hw : w.Acyclic)
    (hown : ∀ name a, w.locate? name = some a → T.Distinct (T.of a)) {c : ClassInfo}
    (hc : w.Clear [] c) {m : α} (hm : m ∈ T.of (w.flattened {} c)) :
    ∃ a, w.Lineage c a ∧ m ∈ T.of a := by
  revert hc hm
  refine hw.induction (P := fun c ↦ w.Clear [] c → m ∈ T.of (w.flattened {} c) →
    ∃ a, w.Lineage c a ∧ m ∈ T.of a) (fun c ih hc hm ↦ ?_) c
  rw [of_flattened hw hown hc] at hm
  rcases T.mem_resolve hm with hm | ⟨s, hs, hm⟩
  · exact ⟨c, .inl rfl, hm⟩
  · obtain ⟨name, a, hname, ha, heq⟩ := Workspace.mem_supers hs
    obtain ⟨b, hb, hmb⟩ := ih name a hname ha (hw.clear ha) (heq ▸ hm)
    refine ⟨b, .inr ?_, hmb⟩
    rcases hb with rfl | ⟨name', habove, hb⟩
    · exact ⟨name, Workspace.above_of_mem hname, ha⟩
    · exact ⟨name', habove.up ha hname, hb⟩

/-- What the members of one kind are in a flattened class. -/
structure Overrides (T : MemberTable α) (w : Workspace) (c flat : ClassInfo) : Prop where
  inOrder : T.of flat = T.resolve (T.of c) (w.supers c)
  distinct : T.Distinct (T.of flat)
  firstWins (key : String) : (T.of flat).find? (T.key · = key) =
    (T.of c ++ (w.supers c).flatMap T.given).find? (T.key · = key)
  nothingLost : ∀ s ∈ w.supers c, ∀ m ∈ T.given s, ∃ n ∈ T.of flat, T.key n = T.key m
  declared : ∀ m ∈ T.of flat, ∃ a, w.Lineage c a ∧ m ∈ T.of a ∧ T.declaringClass m = a.name

theorem overrides_flattened (hw : w.Acyclic)
    (hown : ∀ name a, w.locate? name = some a → T.Distinct (T.of a)) {name : String}
    {c : ClassInfo} (hc : w.locate? name = some c) : T.Overrides w c (w.flattened {} c) := by
  have hclear := hw.clear hc
  have horder := of_flattened hw hown hclear
  have hfirst (key : String) := T.find?_resolve (T.of c) (w.supers c) key
  refine ⟨horder, distinct_flattened hw hown hclear (hown name c hc), ?_, ?_, ?_⟩
  · intro key
    rw [horder, hfirst]
  · intro s hs m hm
    have hmem : m ∈ T.of c ++ (w.supers c).flatMap T.given :=
      List.mem_append_right _ (List.mem_flatMap.mpr ⟨s, hs, hm⟩)
    have hfound := hfirst (T.key m)
    rw [← horder] at hfound
    cases hn : (T.of (w.flattened {} c)).find? (T.key · = T.key m) with
    | some n => exact ⟨n, List.mem_of_find?_eq_some hn, by simpa using List.find?_some hn⟩
    | none =>
      have hnone := List.find?_eq_none.mp (hfound.symm.trans hn) m hmem
      simp at hnone
  · intro m hm
    obtain ⟨a, ha, hma⟩ := lineage_of_mem_flattened hw hown hclear hm
    refine ⟨a, ha, hma, ?_⟩
    have hdeclared : ∃ name, w.locate? name = some a := by
      rcases ha with rfl | ⟨name', _, ha⟩
      · exact ⟨name, hc⟩
      · exact ⟨name', ha⟩
    obtain ⟨name', ha'⟩ := hdeclared
    obtain ⟨d, _, k, _, _, rfl⟩ := Workspace.locate?_eq_some ha'
    exact T.declaringClass_of d k m hma

end MemberTable

def ClassInfo.Distinct (c : ClassInfo) : Prop :=
  MemberTable.methods.Distinct c.methods ∧ MemberTable.properties.Distinct c.properties ∧
    MemberTable.constants.Distinct c.constants

instance (c : ClassInfo) : Decidable c.Distinct :=
  inferInstanceAs (Decidable (_ ∧ _ ∧ _))

/-- Flattening is override resolution, whatever earlier reflection left in the cache. -/
theorem Workspace.flattened_overrides {w : Workspace} {cache : ClassCache} (hw : w.Acyclic)
    (hown : ∀ name a, w.locate? name = some a → a.Distinct) (hcache : w.Left cache)
    {name : String} {c : ClassInfo} (hc : w.locate? name = some c) :
    MemberTable.methods.Overrides w c (w.flattened cache c) ∧
      MemberTable.properties.Overrides w c (w.flattened cache c) ∧
      MemberTable.constants.Overrides w c (w.flattened cache c) := by
  rw [flattened_eq hw (hcache.sound hw) (hw.clear hc)]
  refine ⟨?_, ?_, ?_⟩
  · exact MemberTable.overrides_flattened hw (fun name a ha ↦ (hown name a ha).1) hc
  · exact MemberTable.overrides_flattened hw (fun name a ha ↦ (hown name a ha).2.1) hc
  · exact MemberTable.overrides_flattened hw (fun name a ha ↦ (hown name a ha).2.2) hc

namespace Workspace

/-- A class whose trait comes before its parent, and spells a method of the parent differently. -/
def logged : Workspace where
  libraries := (Document.parse 0 "logged.php"
    "<?php trait T{function S(){}} class A{function s(){}} class B extends A{use T;}".toList
    0).toOption.toList

theorem flattened_overrides_logged :
    ∃ c, logged.locate? "B" = some c ∧
      (let flat := logged.flattened ((logged.reflect? "A").run {}).2 c
      (flat.methods.map fun m ↦ (m.name, m.declaringClass)) = [("S", "T")] ∧
        MemberTable.methods.Overrides logged c flat ∧
        MemberTable.properties.Overrides logged c flat ∧
        MemberTable.constants.Overrides logged c flat) := by
  have hmethods : ((logged.locate? "B").map fun c ↦
      (logged.flattened ((logged.reflect? "A").run {}).2 c).methods.map fun m ↦
        (m.name, m.declaringClass)) = some [("S", "T")] := by decide +kernel
  have hrank : ∀ d ∈ logged.documents, ∀ k ∈ d.classes,
      ∀ b ∈ (ClassInfo.ofDeclaration d k).superKeys,
        (if b = "b" then 1 else 0) < if Text.lower k.name = "b" then 1 else 0 := by
    decide +kernel
  have hown : ∀ d ∈ logged.documents, ∀ k ∈ d.classes,
      (ClassInfo.ofDeclaration d k).Distinct := by decide +kernel
  have hleft : logged.Left ((logged.reflect? "A").run {}).2 := .reflect (.start (by simp)) "A"
  obtain ⟨c, hc, hflat⟩ := Option.map_eq_some_iff.mp hmethods
  have hacyclic : logged.Acyclic :=
    acyclic_of_among (acyclicAmong_of_rank (fun k ↦ if k = "b" then 1 else 0) hrank)
      (List.Subset.refl _)
  exact ⟨c, hc, hflat, flattened_overrides hacyclic (forall_located hown) hleft hc⟩

end Workspace

end PhpInsight

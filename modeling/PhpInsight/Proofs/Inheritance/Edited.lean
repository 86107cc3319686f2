import PhpInsight.Proofs.Inheritance.Override

namespace PhpInsight

open Relation

namespace ClassInfo

def unplaced (c : ClassInfo) : ClassInfo := { c with origin := ⟨0, "", [], 0, []⟩ }

variable {a b c : ClassInfo}

theorem eq_of_unplaced (h : a.unplaced = b.unplaced) (ho : a.origin = b.origin) : a = b := by
  cases a
  cases b
  cases ho
  simpa [unplaced] using h

theorem name_of_unplaced (h : a.unplaced = b.unplaced) : a.name = b.name :=
  (congrArg name h : a.unplaced.name = b.unplaced.name)

theorem bases_of_unplaced (h : a.unplaced = b.unplaced) : a.bases = b.bases :=
  (congrArg bases h : a.unplaced.bases = b.unplaced.bases)

theorem superKeys_of_unplaced (h : a.unplaced = b.unplaced) : a.superKeys = b.superKeys :=
  (congrArg superKeys h : a.unplaced.superKeys = b.unplaced.superKeys)

theorem unplaced_foldl (c : ClassInfo) (sources : List (Bool × ClassInfo)) :
    (sources.foldl (fun c s ↦ c.inherit s.2 s.1) c).unplaced =
      (sources.map fun s ↦ (s.1, s.2.unplaced)).foldl (fun c s ↦ c.inherit s.2 s.1) c.unplaced := by
  induction sources generalizing c with
  | nil => rfl
  | cons s ss ih => exact ih (c.inherit s.2 s.1)

end ClassInfo

namespace Workspace

variable {w w' : Workspace} {c c' a : ClassInfo} {name : String}

/-- A workspace has, up to their documents, the classes of another one that are above a class
there. -/
def Shares (w w' : Workspace) (c : ClassInfo) : Prop :=
  ∀ name, w'.Above c (classKey name) →
    (w.locate? name).map ClassInfo.unplaced = (w'.locate? name).map ClassInfo.unplaced

theorem Shares.up (h : w.Shares w' c) (hn : classKey name ∈ c.superKeys)
    (ha : w'.locate? name = some a) : w.Shares w' a :=
  fun name' hup ↦ h name' (hup.up ha hn)

theorem Shares.above (h : w.Shares w' c) (hc : c'.superKeys = c.superKeys) {key : String}
    (hup : w.Above c' key) : w'.Above c key := by
  obtain ⟨first, hfirst, hup⟩ := hup
  rw [hc] at hfirst
  induction hup with
  | refl => exact above_of_mem hfirst
  | tail _ hext ih =>
    obtain ⟨name, b, rfl, hb, hkey⟩ := hext
    have hsame := h name ih
    rw [hb] at hsame
    obtain ⟨b', hb', heq⟩ := Option.map_eq_some_iff.mp hsame.symm
    obtain ⟨first', hfirst', hup'⟩ := ih
    refine ⟨first', hfirst', hup'.tail ⟨name, b', rfl, hb', ?_⟩⟩
    rw [ClassInfo.superKeys_of_unplaced heq]
    exact hkey

theorem Shares.clear (h : w.Shares w' c) (hc : c'.unplaced = c.unplaced) (hclear : w'.Clear [] c) :
    w.Clear [] c' := by
  intro u hu hup
  rw [ClassInfo.name_of_unplaced hc] at hu
  exact hclear u hu (h.above (ClassInfo.superKeys_of_unplaced hc) hup)

theorem unplaced_flattened (hw : w.Acyclic) (hw' : w'.Acyclic) (hc : c'.unplaced = c.unplaced)
    (hclear : w'.Clear [] c) (hshares : w.Shares w' c) :
    (w.flattened {} c').unplaced = (w'.flattened {} c).unplaced := by
  -- Upwards from the class as it is once the document is added.
  revert c' hc hclear hshares
  refine hw'.induction (P := fun c ↦ ∀ {c'}, c'.unplaced = c.unplaced → w'.Clear [] c →
    w.Shares w' c → (w.flattened {} c').unplaced = (w'.flattened {} c).unplaced)
    (fun c ih c' hc hclear hshares ↦ ?_) c
  have hsupers : (w.supers c').map (fun s ↦ (s.1, s.2.unplaced)) =
      (w'.supers c).map fun s ↦ (s.1, s.2.unplaced) := by
    rw [supers, supers, ClassInfo.bases_of_unplaced hc, List.map_filterMap, List.map_filterMap]
    apply List.filterMap_congr
    intro b hb
    have hkey : classKey b.2 ∈ c.superKeys := List.mem_map_of_mem hb
    have hsame := hshares b.2 (above_of_mem hkey)
    cases ha' : w'.locate? b.2 with
    | none =>
      rw [ha', Option.map_none, Option.map_eq_none_iff] at hsame
      simp only [hsame, Option.map_none]
    | some a =>
      rw [ha'] at hsame
      obtain ⟨a', ha, heq⟩ := Option.map_eq_some_iff.mp hsame
      have hflat := ih b.2 a hkey ha' heq (hw'.clear ha') (hshares.up hkey ha')
      simp only [ha, Option.map_some, hflat]
  rw [flattened_eq_foldl hw (hshares.clear hc hclear), flattened_eq_foldl hw' hclear,
    ClassInfo.unplaced_foldl, ClassInfo.unplaced_foldl, hsupers, hc]

def add (w : Workspace) (d : Document) : Workspace := { w with registry := w.registry.add d }

def versions (w : Workspace) (d : Document) : List Document :=
  d :: w.registry.documents.filter fun old ↦ old.uri = d.uri

variable {d : Document} {cache cache' : ClassCache}

theorem findSome?_filter {α β : Type} {f : α → Option β} {p : α → Bool} {xs : List α}
    (h : ∀ x ∈ xs, p x = false → f x = none) : (xs.filter p).findSome? f = xs.findSome? f := by
  induction xs with
  | nil => rfl
  | cons x xs ih =>
    have hxs := ih fun y hy ↦ h y (List.mem_cons_of_mem _ hy)
    cases hp : p x with
    | true => rw [List.filter_cons_of_pos hp, List.findSome?_cons, List.findSome?_cons, hxs]
    | false =>
      rw [List.filter_cons_of_neg (by simp [hp]), hxs, List.findSome?_cons,
        h x List.mem_cons_self hp]

theorem locate?_add_of_locate? (h : d.locate? name = some c) : (w.add d).locate? name = some c := by
  have hdocs : (w.add d).documents = d :: (w.registry.remove d.uri ++ w.libraries) := rfl
  rw [locate?, hdocs, List.findSome?_cons, h]

theorem locate?_add_of_versions (h : ∀ old ∈ w.versions d, old.locate? name = none) :
    (w.add d).locate? name = w.locate? name := by
  have hdocs : (w.add d).documents = d :: (w.registry.remove d.uri ++ w.libraries) := rfl
  have hremove : (w.registry.remove d.uri).findSome? (·.locate? name) =
      w.registry.documents.findSome? (·.locate? name) := by
    refine findSome?_filter fun old hold huri ↦ h old (List.mem_cons_of_mem _ ?_)
    exact List.mem_filter.mpr ⟨hold, by simpa using huri⟩
  rw [locate?, hdocs, List.findSome?_cons, h d List.mem_cons_self, List.findSome?_append, hremove,
    locate?, documents, List.findSome?_append]

/-- The classes above a class that a document or the one it would replace declares are the same
before and after it is added. -/
def Settled (w : Workspace) (d : Document) (c : ClassInfo) : Prop :=
  ∀ name, (w.add d).Above c (classKey name) →
    (∃ old ∈ w.versions d, (old.locate? name).isSome = true) →
      (w.locate? name).map ClassInfo.unplaced = ((w.add d).locate? name).map ClassInfo.unplaced

theorem Settled.shares (h : w.Settled d c) : w.Shares (w.add d) c := by
  intro name hup
  by_cases hold : ∃ old ∈ w.versions d, (old.locate? name).isSome = true
  · exact h name hup hold
  · have hnone : ∀ old ∈ w.versions d, old.locate? name = none := by
      intro old hmem
      rw [← Option.not_isSome_iff_eq_none]
      exact fun hsome ↦ hold ⟨old, hmem, hsome⟩
    rw [locate?_add_of_versions hnone]

/-- A class of a document that is being edited is what it is once the document is added, unless
adding it changes a class above. -/
theorem edited_eq_added (hw : w.Acyclic) (hd : (w.add d).Acyclic) (hcache : w.Left cache)
    (hcache' : (w.add d).Left cache') (hc : d.locate? name = some c) (hsettled : w.Settled d c) :
    ∃ a, ((w.reflectFrom? d name).run cache).1 = some a ∧
      (((w.add d).reflect? name).run cache').1 = some a := by
  have hlocated : (w.add d).locate? name = some c := locate?_add_of_locate? hc
  have hclear : (w.add d).Clear [] c := hd.clear hlocated
  have hclear' : w.Clear [] c := hsettled.shares.clear rfl hclear
  have hflat : w.flattened {} c = (w.add d).flattened {} c := by
    refine ClassInfo.eq_of_unplaced (unplaced_flattened hw hd rfl hclear hsettled.shares) ?_
    rw [origin_flattened, origin_flattened]
  have hseen : w.seen? d name = some c := by rw [seen?, hc, Option.some_or]
  obtain ⟨_, hrun, _⟩ := reflectFrom?_run hw (hcache.sound hw) d name fun c' hc' ↦
    Option.some.inj (hc.symm.trans hc') ▸ hclear'
  obtain ⟨_, hrun', _⟩ := reflect?_run hd (hcache'.sound hd) name
  refine ⟨w.flattened {} c, ?_, ?_⟩
  · rw [hrun, hseen]
    rfl
  · rw [hrun', hlocated, hflat]
    rfl

theorem mem_of_above {keys : List String} (hc : ∀ k ∈ c.superKeys, k ∈ keys)
    (hup : ∀ d ∈ w.documents, ∀ k ∈ d.classes, Text.lower k.name ∈ keys →
      ∀ b ∈ (ClassInfo.ofDeclaration d k).superKeys, b ∈ keys) {key : String}
    (h : w.Above c key) : key ∈ keys := by
  obtain ⟨first, hfirst, h⟩ := h
  induction h with
  | refl => exact hc first hfirst
  | tail _ hext ih =>
    obtain ⟨name, a, rfl, ha, hb⟩ := hext
    obtain ⟨d, hd, k, hk, hkey, rfl⟩ := locate?_eq_some ha
    exact hup d hd k hk (hkey ▸ ih) _ hb

theorem settled_of_keys {keys : List String} (hup : ∀ key, (w.add d).Above c key → key ∈ keys)
    (h : ∀ old ∈ w.versions d, ∀ k ∈ old.classes, Text.lower k.name ∉ keys) : w.Settled d c := by
  rintro name habove ⟨old, hold, hsome⟩
  obtain ⟨a, ha⟩ := Option.isSome_iff_exists.mp hsome
  obtain ⟨k, hk, hkey, _⟩ := Document.locate?_eq_some ha
  exact absurd (hkey ▸ hup _ habove) (h old hold k hk)

def buffer (uri source : String) : List Document :=
  (Document.parse 0 uri source.toList 0).toOption.toList

def split : Workspace where
  registry := (buffer "b.php" "<?php class B{function b(){}}" ++
    buffer "a.php" "<?php class A extends B{}").foldl Registry.add {}

def grown : List Document := buffer "a.php" "<?php class A extends B{function a(){}}"

theorem edited_eq_added_split :
    ∃ d ∈ grown, ∃ c, d.locate? "A" = some c ∧ split.Acyclic ∧ (split.add d).Acyclic ∧
      split.Settled d c ∧ ∃ a, ((split.reflectFrom? d "A").run {}).1 = some a ∧
        (((split.add d).reflect? "A").run {}).1 = some a := by
  have hfound : (grown.map fun d ↦ (d.locate? "A").map ClassInfo.superKeys) = [some ["b"]] := by
    decide +kernel
  have hrank : ∀ d ∈ grown, ∀ e ∈ split.documents ++ (split.add d).documents, ∀ k ∈ e.classes,
      ∀ b ∈ (ClassInfo.ofDeclaration e k).superKeys,
        (if b = "b" then 0 else 1) < if Text.lower k.name = "b" then 0 else 1 := by
    decide +kernel
  have hbase : ∀ d ∈ grown, ∀ e ∈ (split.add d).documents, ∀ k ∈ e.classes,
      Text.lower k.name ∈ ["b"] → ∀ b ∈ (ClassInfo.ofDeclaration e k).superKeys, b ∈ ["b"] := by
    decide +kernel
  have hversions : ∀ d ∈ grown, ∀ old ∈ split.versions d, ∀ k ∈ old.classes,
      Text.lower k.name ∉ ["b"] := by decide +kernel
  have hlocated : ∃ d ∈ grown, ∃ c, d.locate? "A" = some c ∧ c.superKeys = ["b"] := by
    have hmem : some ["b"] ∈ grown.map fun d ↦ (d.locate? "A").map ClassInfo.superKeys := by
      rw [hfound]
      exact List.mem_singleton.mpr rfl
    obtain ⟨d, hd, hsome⟩ := List.mem_map.mp hmem
    exact ⟨d, hd, Option.map_eq_some_iff.mp hsome⟩
  obtain ⟨d, hd, c, hc, hsupers⟩ := hlocated
  have hamong := acyclicAmong_of_rank _ (hrank d hd)
  have hw : split.Acyclic := acyclic_of_among hamong (List.subset_append_left _ _)
  have hw' : (split.add d).Acyclic := acyclic_of_among hamong (List.subset_append_right _ _)
  have hsettled : split.Settled d c := by
    refine settled_of_keys (fun key h ↦ mem_of_above ?_ (hbase d hd) h) (hversions d hd)
    rw [hsupers]
    exact fun _ h ↦ h
  exact ⟨d, hd, c, hc, hw, hw', hsettled,
    edited_eq_added hw hw' (.start (by simp)) (.start (by simp)) hc hsettled⟩

/-- The parent that a class is edited together with is seen as it was before. -/
theorem edited_parent_missed :
    (buffer "a.php" "<?php class B{function b(){}} class A extends B{}").map (fun d ↦
      let w : Workspace :=
        { registry := (buffer "a.php" "<?php class B{} class A extends B{}").foldl Registry.add {} }
      (((w.reflectFrom? d "A").run {}).1.map fun c ↦ c.methods.map MethodInfo.name,
        (((w.add d).reflect? "A").run {}).1.map fun c ↦ c.methods.map MethodInfo.name)) =
      [(some [], some ["b"])] := by
  decide +kernel

end Workspace

end PhpInsight

import Mathlib.Data.List.Nodup
import Mathlib.Data.List.Perm.Subperm
import Mathlib.Logic.Relation
import PhpInsight.Proofs.Inheritance.Flatten
import PhpInsight.Proofs.UsageCache

namespace PhpInsight

open Relation

def ClassInfo.superKeys (c : ClassInfo) : List String := c.bases.map fun b ↦ classKey b.2

theorem Document.locate?_eq_some {d : Document} {name : String} {c : ClassInfo}
    (h : d.locate? name = some c) :
    ∃ k ∈ d.classes, Text.lower k.name = classKey name ∧ c = .ofDeclaration d k := by
  obtain ⟨k, hk, rfl⟩ := Option.map_eq_some_iff.mp h
  have hsame : Text.sameIgnoringCase k.name (withoutLeadingBackslashes name) = true := by
    simpa using List.find?_some hk
  exact ⟨k, List.mem_of_find?_eq_some hk, Text.sameIgnoringCase_iff.mp hsame, rfl⟩

theorem Document.locate?_congr (d : Document) {a b : String} (h : classKey a = classKey b) :
    d.locate? a = d.locate? b := by
  have hp : (fun k : DeclaredClass ↦ Text.sameIgnoringCase k.name (withoutLeadingBackslashes a)) =
      fun k ↦ Text.sameIgnoringCase k.name (withoutLeadingBackslashes b) := by
    funext k
    rw [Bool.eq_iff_iff, Text.sameIgnoringCase_iff, Text.sameIgnoringCase_iff]
    exact (congrArg (Text.lower k.name = ·) h).to_iff
  simp only [Document.locate?, hp]

def ExtendsAmong (docs : List Document) (a b : String) : Prop :=
  ∃ d ∈ docs, ∃ name c, classKey name = a ∧ d.locate? name = some c ∧ b ∈ c.superKeys

def AcyclicAmong (docs : List Document) : Prop := ∀ a, ¬ TransGen (ExtendsAmong docs) a a

theorem acyclicAmong_of_rank {docs : List Document} (rank : String → Nat)
    (h : ∀ d ∈ docs, ∀ k ∈ d.classes, ∀ b ∈ (ClassInfo.ofDeclaration d k).superKeys,
      rank b < rank (Text.lower k.name)) : AcyclicAmong docs := by
  have hstep : ∀ a b, ExtendsAmong docs a b → rank b < rank a := by
    rintro a b ⟨d, hd, name, c, rfl, hc, hb⟩
    obtain ⟨k, hk, hkey, rfl⟩ := Document.locate?_eq_some hc
    exact hkey ▸ h d hd k hk b hb
  have hlt : ∀ a b, TransGen (ExtendsAmong docs) a b → rank b < rank a := by
    intro a b hab
    induction hab with
    | single hab => exact hstep _ _ hab
    | tail _ hbc ih => exact Nat.lt_trans (hstep _ _ hbc) ih
  exact fun a ha ↦ Nat.lt_irrefl _ (hlt a a ha)

namespace Workspace

variable {w : Workspace} {cache : ClassCache}

theorem locate?_eq_some {name : String} {c : ClassInfo} (h : w.locate? name = some c) :
    ∃ d ∈ w.documents, ∃ k ∈ d.classes,
      Text.lower k.name = classKey name ∧ c = .ofDeclaration d k := by
  obtain ⟨d, hd, hc⟩ := List.exists_of_findSome?_eq_some h
  exact ⟨d, hd, Document.locate?_eq_some hc⟩

theorem forall_located {P : ClassInfo → Prop}
    (h : ∀ d ∈ w.documents, ∀ k ∈ d.classes, P (.ofDeclaration d k)) :
    ∀ name c, w.locate? name = some c → P c := by
  intro name c hc
  obtain ⟨d, hd, k, hk, _, rfl⟩ := locate?_eq_some hc
  exact h d hd k hk

theorem locate?_congr (w : Workspace) {a b : String} (h : classKey a = classKey b) :
    w.locate? a = w.locate? b := by
  simp only [locate?, Document.locate?_congr _ h]

theorem lower_name {name : String} {c : ClassInfo} (h : w.locate? name = some c) :
    Text.lower c.name = classKey name := by
  obtain ⟨d, _, k, _, hk, rfl⟩ := locate?_eq_some h
  exact hk

/-- A class that can be located under the key `a` has a supertype of the key `b`. -/
def Extends (w : Workspace) (a b : String) : Prop :=
  ∃ name c, classKey name = a ∧ w.locate? name = some c ∧ b ∈ c.superKeys

def Acyclic (w : Workspace) : Prop := ∀ a, ¬ TransGen w.Extends a a

/-- The keys that are met on the ways up from a class. -/
def Above (w : Workspace) (c : ClassInfo) (b : String) : Prop :=
  ∃ a ∈ c.superKeys, ReflTransGen w.Extends a b

theorem above_of_mem {c : ClassInfo} {a : String} (h : a ∈ c.superKeys) : w.Above c a :=
  ⟨a, h, .refl⟩

theorem transGen_of_above {name : String} {a : ClassInfo} {b : String}
    (ha : w.locate? name = some a) (h : w.Above a b) : TransGen w.Extends (classKey name) b := by
  obtain ⟨k, hk, hb⟩ := h
  exact TransGen.head' ⟨name, a, rfl, ha, hk⟩ hb

theorem Above.up {c a : ClassInfo} {name b : String} (ha : w.locate? name = some a)
    (hn : classKey name ∈ c.superKeys) (h : w.Above a b) : w.Above c b :=
  ⟨_, hn, (transGen_of_above ha h).to_reflTransGen⟩

theorem Acyclic.not_above_self (hw : w.Acyclic) {name : String} {c : ClassInfo}
    (hc : w.locate? name = some c) : ¬ w.Above c (Text.lower c.name) := by
  intro h
  exact hw _ (lower_name hc ▸ transGen_of_above hc h)

/-- No class above a class is on a cycle. -/
def Grounded (w : Workspace) (c : ClassInfo) : Prop := ∀ b, w.Above c b → ¬ TransGen w.Extends b b

theorem Acyclic.grounded (hw : w.Acyclic) (c : ClassInfo) : w.Grounded c := fun b _ ↦ hw b

namespace Grounded

variable {c a : ClassInfo} {name : String}

theorem up (h : w.Grounded c) (hn : classKey name ∈ c.superKeys) (ha : w.locate? name = some a) :
    w.Grounded a := fun b hb ↦ h b (hb.up ha hn)

theorem not_above_self (h : w.Grounded c) (hn : classKey name ∈ c.superKeys)
    (ha : w.locate? name = some a) : ¬ w.Above a (Text.lower a.name) := by
  rw [lower_name ha]
  exact fun hup ↦ h _ (above_of_mem hn) (transGen_of_above ha hup)

end Grounded

section

variable {docs : List Document} (h : AcyclicAmong docs) (hs : w.documents ⊆ docs)

include hs in
theorem extendsAmong_of_extends {a b : String} (h : w.Extends a b) : ExtendsAmong docs a b := by
  obtain ⟨name, c, ha, hc, hb⟩ := h
  obtain ⟨d, hd, hc⟩ := List.exists_of_findSome?_eq_some hc
  exact ⟨d, hs hd, name, c, ha, hc, hb⟩

include h hs

theorem acyclic_of_among : w.Acyclic :=
  fun a ha ↦ h a (TransGen.mono (fun _ _ ↦ extendsAmong_of_extends hs) _ _ ha)

/-- A class of one of the documents is not above itself, although another document may declare
its name for the workspace. -/
theorem not_above_of_among {d : Document} (hd : d ∈ docs) {name : String} {c : ClassInfo}
    (hc : d.locate? name = some c) : ¬ w.Above c (Text.lower c.name) := by
  obtain ⟨k, hk, hkey, rfl⟩ := Document.locate?_eq_some hc
  rintro ⟨a, ha, hup⟩
  have hfirst : ExtendsAmong docs (classKey name) a := ⟨d, hd, name, _, rfl, hc, ha⟩
  have hup' := ReflTransGen.mono (fun _ _ ↦ extendsAmong_of_extends hs) _ _ hup
  exact h (classKey name) (.head' hfirst (hkey ▸ hup'))

end

def Fits (w : Workspace) : Nat → ClassInfo → Prop
  | 0, _ => False
  | n + 1, c => ∀ name a, classKey name ∈ c.superKeys → w.locate? name = some a → w.Fits n a

def keys (w : Workspace) : List String :=
  (w.documents.flatMap Document.classes).map fun k ↦ Text.lower k.name

theorem mem_keys {name : String} {c : ClassInfo} (h : w.locate? name = some c) :
    classKey name ∈ w.keys := by
  obtain ⟨d, hd, k, hk, hkey, _⟩ := locate?_eq_some h
  exact List.mem_map.mpr ⟨k, List.mem_flatMap.mpr ⟨d, hd, hk⟩, hkey⟩

/-- A way up never meets a class twice, so the classes already met count against those left. -/
theorem fits_of_path {n : Nat} {path : List String} {c : ClassInfo} (hg : w.Grounded c)
    (hp : path.Nodup) (hk : path ⊆ w.keys) (hn : w.keys.length < n + path.length)
    (hc : ∀ u ∈ path, ¬ w.Above c u) : w.Fits n c := by
  induction n generalizing path c with
  | zero =>
    have hle := (hp.subperm hk).length_le
    omega
  | succ n ih =>
    intro name a hname ha
    have hp' : (classKey name :: path).Nodup :=
      List.nodup_cons.mpr ⟨fun hm ↦ hc _ hm (above_of_mem hname), hp⟩
    refine ih (hg.up hname ha) hp' (List.cons_subset.mpr ⟨mem_keys ha, hk⟩) ?_ ?_
    · rw [List.length_cons]
      omega
    · intro u hu hau
      rcases List.mem_cons.mp hu with rfl | hu
      · exact hg _ (above_of_mem hname) (transGen_of_above ha hau)
      · exact hc u hu (hau.up ha hname)

theorem length_keys (w : Workspace) : w.keys.length = w.classCount := by simp [keys, classCount]

theorem Grounded.fits {c : ClassInfo} (hg : w.Grounded c) : w.Fits (w.classCount + 1) c := by
  refine fits_of_path hg List.nodup_nil (List.nil_subset _) ?_ (by simp)
  simp [length_keys]

theorem Acyclic.fits (hw : w.Acyclic) (c : ClassInfo) : w.Fits (w.classCount + 1) c :=
  (hw.grounded c).fits

theorem foldl_inherit_keeps {α : Type} {f : ClassInfo → α}
    (h : ∀ c a withPrivate, f (ClassInfo.inherit c a withPrivate) = f c)
    (sources : List (Bool × ClassInfo)) (c : ClassInfo) :
    f (sources.foldl (fun c s ↦ c.inherit s.2 s.1) c) = f c := by
  induction sources generalizing c with
  | nil => rfl
  | cons s ss ih => exact (ih _).trans (h c s.2 s.1)

theorem flattened_keeps {α : Type} {f : ClassInfo → α}
    (h : ∀ c a withPrivate, f (ClassInfo.inherit c a withPrivate) = f c) (w : Workspace)
    (cache : ClassCache) (c : ClassInfo) : f (w.flattened cache c) = f c := by
  rw [flattened, flatten_succ, foldl_inherit_keeps h]

theorem origin_flattened (w : Workspace) (cache : ClassCache) (c : ClassInfo) :
    (w.flattened cache c).origin = c.origin := flattened_keeps (fun _ _ _ ↦ rfl) w cache c

/-- A cache of the present and earlier generations, which under the present one holds for classes of
the workspace what is related to them. -/
def Caches (w : Workspace) (P : ClassInfo → ClassInfo → Prop) : ClassCache → Prop :=
  UsageCache.Every fun key value ↦ key.1 ≤ w.generation ∧ (key.1 = w.generation →
    ∃ name c, classKey name = key.2 ∧ w.locate? name = some c ∧ P c value)

section

variable {P : ClassInfo → ClassInfo → Prop}

theorem caches_of_entries_eq_nil (h : cache.entries = []) : w.Caches P cache :=
  UsageCache.every_of_entries_eq_nil h

theorem caches_empty : w.Caches P {} := caches_of_entries_eq_nil rfl

theorem Caches.imp {P' : ClassInfo → ClassInfo → Prop} (hs : w.Caches P cache)
    (h : ∀ c value, P c value → P' c value) : w.Caches P' cache := by
  refine UsageCache.Every.imp hs fun key value hkey ↦ ⟨hkey.1, fun hg ↦ ?_⟩
  obtain ⟨name, c, hname, hc, hv⟩ := hkey.2 hg
  exact ⟨name, c, hname, hc, h c value hv⟩

theorem Caches.used {later : ClassCache} (hs : w.Caches P cache) (h : cache.Used later) :
    w.Caches P later := UsageCache.Every.used hs h

theorem Caches.of_subset {later : ClassCache} (hs : w.Caches P cache)
    (h : later.entries ⊆ cache.entries) : w.Caches P later := UsageCache.Every.of_subset hs h

theorem Caches.changed (hs : w.Caches P cache) {w' : Workspace}
    (hlt : w.generation < w'.generation) (P' : ClassInfo → ClassInfo → Prop) :
    w'.Caches P' cache := by
  intro e he
  have hkey := Nat.lt_of_le_of_lt (hs e he).1 hlt
  exact ⟨Nat.le_of_lt hkey, fun hsame ↦ absurd hsame (Nat.ne_of_lt hkey)⟩

theorem Caches.remembered? {name : String} {known : ClassInfo} (hs : w.Caches P cache)
    (h : w.remembered? cache name = some known) : ∃ c, w.locate? name = some c ∧ P c known := by
  obtain ⟨name', c, hname, hc, hp⟩ := (UsageCache.Every.peek? hs h).2 rfl
  exact ⟨c, w.locate?_congr hname ▸ hc, hp⟩

end

/-- What taking over members brings about, if what is taken over is so related to its class, holds
of flattening as well. -/
theorem flatten_related {P : ClassInfo → ClassInfo → Prop} (hself : ∀ c, P c c)
    (hfold : ∀ (c : ClassInfo) (sources : List (Bool × ClassInfo)), (∀ s ∈ sources, ∃ name a,
      (s.1, name) ∈ c.bases ∧ w.locate? name = some a ∧ P a s.2) →
        P c (sources.foldl (fun c s ↦ c.inherit s.2 s.1) c))
    (hs : w.Caches P cache) (fuel : Nat) (path : List String) (c : ClassInfo) :
    P c (w.flatten cache fuel path c) := by
  induction fuel generalizing path c with
  | zero => exact hself c
  | succ fuel ih =>
    rw [flatten_succ]
    refine hfold c _ fun s hs' ↦ ?_
    obtain ⟨b, hb, hs'⟩ := List.mem_filterMap.mp hs'
    obtain ⟨flat, hflat, rfl⟩ := Option.map_eq_some_iff.mp hs'
    unfold ancestor? at hflat
    split at hflat
    · cases hflat
    · cases hr : w.remembered? cache b.2 with
      | some known =>
        rw [hr] at hflat
        cases hflat
        obtain ⟨a, ha, hp⟩ := hs.remembered? hr
        exact ⟨b.2, a, hb, ha, hp⟩
      | none =>
        rw [hr] at hflat
        obtain ⟨a, ha, rfl⟩ := Option.map_eq_some_iff.mp hflat
        exact ⟨b.2, a, hb, ha, ih _ a⟩

def Sound (w : Workspace) : ClassCache → Prop := w.Caches fun c value ↦ value = w.flattened {} c

/-- A cache of the present and earlier generations, which under the present one holds classes of
the workspace, flattened at least where there is no cycle above them. -/
def Faithful (w : Workspace) : ClassCache → Prop :=
  w.Caches fun c value ↦ w.Grounded c → value = w.flattened {} c

theorem Sound.faithful (hs : w.Sound cache) : w.Faithful cache := hs.imp fun _ _ hv _ ↦ hv

def Clear (w : Workspace) (path : List String) (c : ClassInfo) : Prop :=
  ∀ u ∈ Text.lower c.name :: path, ¬ w.Above c u

theorem Clear.up {path : List String} {c a : ClassInfo} {name : String} (hg : w.Grounded c)
    (h : w.Clear path c) (hn : classKey name ∈ c.superKeys) (ha : w.locate? name = some a) :
    w.Clear (Text.lower c.name :: path) a := by
  intro u hu hau
  rcases List.mem_cons.mp hu with rfl | hu
  · exact hg.not_above_self hn ha hau
  · exact h u hu (hau.up ha hn)

theorem Grounded.clear {c a : ClassInfo} {name : String} (hg : w.Grounded c)
    (hn : classKey name ∈ c.superKeys) (ha : w.locate? name = some a) : w.Clear [] a := by
  intro u hu
  rw [List.mem_singleton.mp hu]
  exact hg.not_above_self hn ha

theorem Acyclic.clear (hw : w.Acyclic) {name : String} {c : ClassInfo}
    (hc : w.locate? name = some c) : w.Clear [] c := by
  intro u hu
  rw [List.mem_singleton.mp hu]
  exact hw.not_above_self hc

theorem clear_of_among {docs : List Document} (h : AcyclicAmong docs) (hs : w.documents ⊆ docs)
    {d : Document} (hd : d ∈ docs) {name : String} {c : ClassInfo} (hc : d.locate? name = some c) :
    w.Clear [] c := by
  intro u hu
  rw [List.mem_singleton.mp hu]
  exact not_above_of_among h hs hd hc

theorem ancestor?_eq {c : ClassInfo} (hg : w.Grounded c) (hs : w.Faithful cache)
    {fuel : Nat} {path : List String} (hc : w.Clear path c) {name : String}
    (hn : classKey name ∈ c.superKeys)
    (hflat : ∀ a, w.locate? name = some a →
      w.flatten cache fuel (Text.lower c.name :: path) a = w.flattened {} a) :
    w.ancestor? cache fuel (Text.lower c.name :: path) name =
      (w.locate? name).map (w.flattened {}) := by
  have hout : (Text.lower c.name :: path).contains (classKey name) = false := by
    rw [← Bool.not_eq_true, List.contains_iff_mem]
    exact fun hm ↦ hc _ hm (above_of_mem hn)
  simp only [ancestor?, hout, Bool.false_eq_true, if_false]
  cases hr : w.remembered? cache name with
  | none =>
    cases ha : w.locate? name with
    | none => rfl
    | some a => exact congrArg some (hflat a ha)
  | some known =>
    obtain ⟨a, ha, hknown⟩ := Caches.remembered? hs hr
    rw [ha, hknown (hg.up hn ha)]
    rfl

/-- The path, the fuel and the cache make no difference: what is remembered is itself flattened
from an empty path, so that the induction reaches it. -/
theorem flatten_eq {fuel : Nat} {path : List String} {c : ClassInfo} (hg : w.Grounded c)
    (hs : w.Faithful cache) (hf : w.Fits fuel c) (hc : w.Clear path c) {cache' : ClassCache}
    (hs' : w.Faithful cache') {fuel' : Nat} {path' : List String} (hf' : w.Fits fuel' c)
    (hc' : w.Clear path' c) :
    w.flatten cache fuel path c = w.flatten cache' fuel' path' c := by
  induction fuel generalizing path c cache' fuel' path' with
  | zero => exact hf.elim
  | succ fuel ih =>
    cases fuel' with
    | zero => exact hf'.elim
    | succ fuel' =>
      have hsame : ∀ b ∈ c.bases,
          w.ancestor? cache fuel (Text.lower c.name :: path) b.2 =
            w.ancestor? cache' fuel' (Text.lower c.name :: path') b.2 := by
        intro b hb
        have hkey : classKey b.2 ∈ c.superKeys := List.mem_map_of_mem hb
        have hleft (a : ClassInfo) (ha : w.locate? b.2 = some a) :
            w.flatten cache fuel (Text.lower c.name :: path) a = w.flattened {} a :=
          ih (hg.up hkey ha) (hf b.2 a hkey ha) (hc.up hg hkey ha) caches_empty
            (hg.up hkey ha).fits (hg.clear hkey ha)
        have hright (a : ClassInfo) (ha : w.locate? b.2 = some a) :
            w.flatten cache' fuel' (Text.lower c.name :: path') a = w.flattened {} a := by
          rw [← hleft a ha]
          exact (ih (hg.up hkey ha) (hf b.2 a hkey ha) (hc.up hg hkey ha) hs'
            (hf' b.2 a hkey ha) (hc'.up hg hkey ha)).symm
        rw [ancestor?_eq hg hs hc hkey hleft, ancestor?_eq hg hs' hc' hkey hright]
      rw [flatten_succ, flatten_succ, List.filterMap_congr fun b hb ↦ by rw [hsame b hb]]

theorem flattened_eq (hw : w.Acyclic) (hs : w.Sound cache) {c : ClassInfo}
    (hc : w.Clear [] c) : w.flattened cache c = w.flattened {} c :=
  flatten_eq (hw.grounded c) hs.faithful (hw.fits c) hc caches_empty (hw.fits c) hc

end Workspace

end PhpInsight

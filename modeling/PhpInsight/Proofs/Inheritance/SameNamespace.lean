import PhpInsight.Proofs.Inheritance.Cycles
import PhpInsight.Proofs.Inheritance.Edited
import PhpInsight.Proofs.Types.Path

namespace PhpInsight

namespace MemberTable

open Workspace

variable {α : Type} {T : MemberTable α} {w : Workspace} {cache : ClassCache}
  {c p flat : ClassInfo} {name : String}

theorem find?_inheritMembers {visible : α → Bool} {own inherited : List α} (key : String) :
    (ClassInfo.inheritMembers (fun m n ↦ T.key n = T.key m) visible own inherited).find?
        (T.key · = key) = (own ++ inherited.filter visible).find? (T.key · = key) := by
  induction inherited generalizing own with
  | nil => simp [ClassInfo.inheritMembers]
  | cons m ms ih =>
    have hstep : ClassInfo.inheritMembers (fun m n ↦ T.key n = T.key m) visible own (m :: ms) =
        ClassInfo.inheritMembers (fun m n ↦ T.key n = T.key m) visible
          (if visible m && !own.any (fun n ↦ T.key n = T.key m) then own ++ [m] else own) ms := rfl
    rw [hstep, ih]
    cases hv : visible m with
    | false => simp [hv]
    | true =>
      cases hc : own.any (fun n ↦ T.key n = T.key m) with
      | false => simp [hv]
      | true =>
        obtain ⟨n, hn, hkey⟩ := List.any_eq_true.mp hc
        rw [List.filter_cons_of_pos hv]
        simp only [Bool.not_true, Bool.and_false, Bool.false_eq_true, if_false,
          List.find?_append, List.find?_cons]
        by_cases hm : T.key m = key
        · have hfound : (own.find? (T.key · = key)).isSome = true := by
            rw [List.find?_isSome]
            exact ⟨n, hn, by simpa [hm] using hkey⟩
          obtain ⟨k, hk⟩ := Option.isSome_iff_exists.mp hfound
          rw [hk, Option.some_or, Option.some_or]
        · simp [hm]

theorem find?_foldl (c : ClassInfo) (sources : List (Bool × ClassInfo)) (key : String) :
    (T.of (sources.foldl (fun c s ↦ c.inherit s.2 s.1) c)).find? (T.key · = key) =
      (T.of c ++ sources.flatMap T.given).find? (T.key · = key) := by
  induction sources generalizing c with
  | nil => simp
  | cons s ss ih =>
    rw [List.foldl_cons, ih, List.find?_append, T.of_inherit, find?_inheritMembers,
      ← List.find?_append, List.flatMap_cons, List.append_assoc]
    rfl

structure Free (T : MemberTable α) (w : Workspace) (c : ClassInfo) (key : String) : Prop where
  own : key ∉ (T.of c).map T.key
  traits : ∀ name ∈ c.traits, ∀ a, w.locate? name = some a → ∀ b, w.Lineage a b →
    key ∉ (T.of b).map T.key

/-- The members of a parent that are neither private nor overridden are those of the class. Where
the class is not below a cycle that goes for the ones that the parent inherits too. -/
structure PassesOn (T : MemberTable α) (w : Workspace) (p c flat : ClassInfo) : Prop where
  own : ∀ key m, T.Free w c key → (T.given (false, p)).find? (T.key · = key) = some m →
    (T.of flat).find? (T.key · = key) = some m
  inherited : w.Grounded c → ∀ key m, T.Free w c key →
    (T.given (false, w.flattened {} p)).find? (T.key · = key) = some m →
      (T.of flat).find? (T.key · = key) = some m

theorem find?_given_of_prefix {withPrivate : Bool} {key : String} {m : α}
    (h : T.of p <+: T.of flat)
    (hm : (T.given (withPrivate, p)).find? (T.key · = key) = some m) :
    (T.given (withPrivate, flat)).find? (T.key · = key) = some m := by
  obtain ⟨rest, hrest⟩ := h
  rw [given, ← hrest, List.filter_append, List.find?_append]
  rw [given] at hm
  rw [hm, Option.some_or]

theorem find?_eq_none_of_key {ms : List α} {key : String} (h : key ∉ ms.map T.key) :
    ms.find? (T.key · = key) = none := by
  rw [List.find?_eq_none]
  intro m hm hkey
  exact h (List.mem_map.mpr ⟨m, hm, of_decide_eq_true hkey⟩)

end MemberTable

namespace Workspace

variable {w : Workspace} {cache : ClassCache} {c p flat : ClassInfo} {name : String}

theorem ancestor?_gathers_self {α : Type} (T : MemberTable α) (hs : w.Kept cache)
    {name' : String} (hc : w.locate? name' = some c)
    (h : w.ancestor? cache w.classCount [Text.lower c.name] name = some flat) :
    ∃ a, w.locate? name = some a ∧ T.Gathers w a flat (w.Reaches [Text.lower c.name] a) := by
  have hself : [Text.lower c.name] ⊆ w.keys := by
    rw [lower_name hc]
    exact List.cons_subset.mpr ⟨mem_keys hc, List.nil_subset _⟩
  refine ancestor?_gathers hs (fun a hout ha ↦ ?_) h
  refine flatten_gathers hs ha (List.nodup_cons.mpr ⟨hout, List.nodup_singleton _⟩) hself ?_
  rw [length_keys, List.length_singleton]
  omega

theorem ancestor?_of_grounded (hs : w.Kept cache) (hg : w.Grounded c) {name' : String}
    (hc : w.locate? name' = some c) (hn : classKey name ∈ c.superKeys) :
    w.ancestor? cache w.classCount [Text.lower c.name] name =
      (w.locate? name).map (w.flattened {}) := by
  refine ancestor?_eq hg hs.faithful (hg.clear_self hc) hn fun a ha ↦ ?_
  exact flatten_eq (hg.up hn ha) hs.faithful (hg.fits name a hn ha)
    ((hg.clear_self hc).up hg hn ha) caches_empty (hg.up hn ha).fits (hg.clear hn ha)

theorem find?_flattened {α : Type} {T : MemberTable α} (hs : w.Kept cache) {name' : String}
    (hc : w.locate? name' = some c) (hparent : c.parent = some name)
    (hflat : w.ancestor? cache w.classCount [Text.lower c.name] name = some flat)
    {key : String} (hfree : T.Free w c key) {m : α}
    (hm : (T.given (false, flat)).find? (T.key · = key) = some m) :
    (T.of (w.flattened cache c)).find? (T.key · = key) = some m := by
  have htraits : (((c.traits.map (true, ·)).filterMap fun b ↦
      (w.ancestor? cache w.classCount [Text.lower c.name] b.2).map (b.1, ·)).flatMap
        T.given).find? (T.key · = key) = none := by
    rw [List.find?_eq_none]
    intro n hn hkey
    obtain ⟨s, hs', hn⟩ := List.mem_flatMap.mp hn
    obtain ⟨b, hb, hs'⟩ := List.mem_filterMap.mp hs'
    obtain ⟨trait, htrait, rfl⟩ := List.mem_map.mp hb
    obtain ⟨flat', hflat', rfl⟩ := Option.map_eq_some_iff.mp hs'
    obtain ⟨a, ha, hgathers⟩ := ancestor?_gathers_self T hs hc hflat'
    obtain ⟨b, hb, hnb⟩ := hgathers.declared n (List.mem_filter.mp hn).1
    exact hfree.traits trait htrait a ha b hb
      (List.mem_map.mpr ⟨n, hnb, of_decide_eq_true hkey⟩)
  rw [flattened, flatten_succ, MemberTable.find?_foldl, ClassInfo.bases, hparent,
    List.filterMap_append, List.flatMap_append, List.find?_append, List.find?_append, htraits,
    MemberTable.find?_eq_none_of_key hfree.own, Option.toList_some, List.singleton_append,
    List.map_cons, List.filterMap_cons, hflat]
  simp [hm]

theorem flattened_passesOn {α : Type} (T : MemberTable α) (hs : w.Kept cache) {name' : String}
    (hc : w.locate? name' = some c) (hparent : c.parent = some name)
    (hp : w.locate? name = some p) : T.PassesOn w p c (w.flattened cache c) := by
  have hkey : classKey name ∈ c.superKeys :=
    List.mem_map.mpr ⟨(false, name), by simp [ClassInfo.bases, hparent], rfl⟩
  constructor
  · intro key m hfree hm
    have hout : classKey name ∉ [Text.lower c.name] := by
      intro hself
      rw [List.mem_singleton, lower_name hc] at hself
      obtain rfl : p = c := Option.some.inj (hp.symm.trans (w.locate?_congr hself ▸ hc))
      refine hfree.own (List.mem_map.mpr ⟨m, ?_, by simpa using List.find?_some hm⟩)
      exact (List.mem_filter.mp (List.mem_of_find?_eq_some hm)).1
    obtain ⟨flat, hflat⟩ := Option.isSome_iff_exists.mp
      (ancestor?_isSome hout hp cache w.classCount)
    obtain ⟨a, ha, hgathers⟩ := ancestor?_gathers_self T hs hc hflat
    obtain rfl : a = p := Option.some.inj (ha.symm.trans hp)
    exact find?_flattened hs hc hparent hflat hfree
      (MemberTable.find?_given_of_prefix hgathers.own hm)
  · intro hg key m hfree hm
    have hflat := ancestor?_of_grounded hs hg hc hkey
    rw [hp, Option.map_some] at hflat
    exact find?_flattened hs hc hparent hflat hfree hm

/-- What reflection remembers was flattened while other things were remembered. -/
def Remembers (w : Workspace) : ClassCache → Prop :=
  w.Caches fun c value ↦ ∃ cache, w.Left cache ∧ value = w.flattened cache c

theorem Left.remembers (h : w.Left cache) : w.Remembers cache :=
  h.caches fun cache hl _ _ _ _ ↦ ⟨cache, hl, rfl⟩

theorem reflect?_eq_flattened (h : w.Left cache) (hc : w.locate? name = some c) :
    ∃ cache', w.Left cache' ∧ ((w.reflect? name).run cache).1 = some (w.flattened cache' c) := by
  obtain ⟨answer, _, hrun, _, hsome, hanswer⟩ :=
    Caches.reflect? h.remembers name fun _ _ ↦ ⟨cache, h, rfl⟩
  rw [hc] at hsome
  obtain ⟨flat, rfl⟩ := Option.isSome_iff_exists.mp hsome
  obtain ⟨a, ha, cache', hleft, rfl⟩ := hanswer flat rfl
  obtain rfl : a = c := Option.some.inj (ha.symm.trans hc)
  exact ⟨cache', hleft, by rw [hrun]⟩

end Workspace

def within (space : Option String) (name : String) : String :=
  match space with
  | some space => space ++ "\\" ++ name
  | none => name

theorem within_inj {space space' : Option String} {name : String} :
    within space name = within space' name ↔ space = space' := by
  refine ⟨fun h ↦ ?_, fun h ↦ h ▸ rfl⟩
  have hlength (space : String) : space ++ "\\" ++ name ≠ name := by
    intro he
    have := congrArg String.length he
    simp at this
  cases space with
  | none =>
    cases space' with
    | none => rfl
    | some space' => exact absurd h.symm (hlength space')
  | some space =>
    cases space' with
    | none => exact absurd h (hlength space)
    | some space' =>
      have hl := congrArg String.toList h
      simp only [within, String.toList_append, List.append_left_inj] at hl
      rw [String.toList_inj.mp hl]

def DeclaredClass.space (c : DeclaredClass) : Option String := c.namespaceName.map Name.joined

theorem DeclaredClass.name_eq (c : DeclaredClass) : c.name = within c.space c.decl.name.name := by
  rw [name, space]
  cases c.namespaceName <;> rfl

/-- A class of a document extends another one of its namespace by the last part of its name, which
is neither the name of an import nor a keyword. -/
structure DeclaredClass.ExtendsBeside (d : Document) (c p : DeclaredClass) : Prop where
  isClass : c.decl.kind = .class
  beside : c.space = p.space
  notImported : d.import? p.decl.name.name = none
  parent : ∃ n, c.decl.parents.head? = some n ∧ n.kind = .unqualified ∧
    n.parts = [p.decl.name.name] ∧ Document.isClassKeyword n = false

namespace Document

variable {d : Document} {c p : DeclaredClass}

theorem qualify_unqualified {n : Name} (hkind : n.kind = .unqualified)
    (himport : d.import? n.first = none) : d.qualify n = within d.namespaceName n.last := by
  rw [qualify, himport]
  simp only [Name.isFullyQualified, Name.isUnqualified, hkind, decide_true, if_true, within]
  rfl

theorem parent_of_extendsBeside (h : c.ExtendsBeside d p) :
    (ClassInfo.ofDeclaration d c).parent = some (within d.namespaceName p.decl.name.name) := by
  obtain ⟨n, hn, hkind, hparts, hkeyword⟩ := h.parent
  have hfirst : n.first = p.decl.name.name := by rw [Name.first, hparts]; rfl
  have hlast : n.last = p.decl.name.name := by rw [Name.last, hparts]; rfl
  have hqualify := qualify_unqualified hkind (hfirst ▸ h.notImported)
  rw [ClassInfo.ofDeclaration, h.isClass, hn, Option.bind_some,
    resolveName?_of_not_keyword hkeyword, hqualify, hlast]

theorem locate?_of_mem (hc : c ∈ d.classes)
    (hn : (d.classes.map fun k ↦ Text.lower k.name).Nodup)
    (hb : withoutLeadingBackslashes c.name = c.name) :
    d.locate? c.name = some (.ofDeclaration d c) := by
  rw [locate?, hb]
  cases hf : d.classes.find? fun k ↦ Text.sameIgnoringCase k.name c.name with
  | none => exact absurd (Text.sameIgnoringCase_iff.mpr rfl) (List.find?_eq_none.mp hf c hc)
  | some k =>
    have hsame : Text.lower k.name = Text.lower c.name :=
      Text.sameIgnoringCase_iff.mp (by simpa using List.find?_some hf)
    have heq : k = c := List.inj_on_of_nodup_map hn (List.mem_of_find?_eq_some hf) hc hsame
    rw [heq, Option.map_some]

end Document

namespace Workspace

structure Inherits (w : Workspace) (p c flat : ClassInfo) : Prop where
  parent : flat.parent = some p.name
  methods : MemberTable.methods.PassesOn w p c flat
  properties : MemberTable.properties.PassesOn w p c flat
  constants : MemberTable.constants.PassesOn w p c flat

/-- A class finds a parent beside it just where its namespace is the one of the file. It inherits
from it as soon as the document is registered, unless other classes of the document have their
names. -/
theorem inherits_of_extendsBeside {d : Document} {c p : DeclaredClass}
    (h : c.ExtendsBeside d p) :
    ((ClassInfo.ofDeclaration d c).parent = some p.name ↔ d.namespaceName = c.space) ∧
      (d.namespaceName = c.space → d.locate? c.name = some (.ofDeclaration d c) →
        d.locate? p.name = some (.ofDeclaration d p) →
          ∀ (w : Workspace) (cache : ClassCache), (w.add d).Left cache →
            ∃ flat, (((w.add d).reflect? c.name).run cache).1 = some flat ∧
              (w.add d).Inherits (.ofDeclaration d p) (.ofDeclaration d c) flat) := by
  have hparent := Document.parent_of_extendsBeside h
  have hiff : (ClassInfo.ofDeclaration d c).parent = some p.name ↔ d.namespaceName = c.space := by
    rw [hparent, Option.some_inj, p.name_eq, within_inj, h.beside]
  refine ⟨hiff, fun hspace hc hp w cache hleft ↦ ?_⟩
  have hc' := locate?_add_of_locate? (w := w) hc
  have hp' := locate?_add_of_locate? (w := w) hp
  obtain ⟨cache', hleft', hrun⟩ := reflect?_eq_flattened hleft hc'
  have hpasses {α : Type} (T : MemberTable α) :=
    flattened_passesOn T hleft'.kept hc' (hiff.mpr hspace) hp'
  refine ⟨_, hrun, ?_, hpasses _, hpasses _, hpasses _⟩
  rw [flattened_keeps (f := ClassInfo.parent) fun _ _ _ ↦ rfl]
  exact hiff.mpr hspace

def couple (source : String) (i j : Nat) : List (Document × DeclaredClass × DeclaredClass) :=
  Option.toList do
    let d ← (Document.parse 0 "couple.php" source.toList 0).toOption
    return (d, ← d.classes[i]?, ← d.classes[j]?)

theorem mem_of_couple {source : String} {i j : Nat} {d : Document} {c p : DeclaredClass}
    (h : (d, c, p) ∈ couple source i j) : c ∈ d.classes ∧ p ∈ d.classes := by
  simp only [couple, Option.bind_eq_bind, Option.mem_toList, Option.bind_eq_some_iff] at h
  obtain ⟨d', _, c', hc, p', hp, he⟩ := h
  cases he
  exact ⟨List.mem_of_getElem? hc, List.mem_of_getElem? hp⟩

def sections : List (Document × DeclaredClass × DeclaredClass) :=
  couple "<?php namespace A; class P{function m(){}} namespace B{} namespace A; class C extends P{}"
    1 0

theorem extendsBeside_of_eq {d : Document} {c p : DeclaredClass} (hclass : c.decl.kind = .class)
    (hspace : c.space = p.space) (himport : (d.import? p.decl.name.name).isNone = true)
    (hparent : (c.decl.parents.head?.map fun n ↦
      (n.kind, n.parts, Document.isClassKeyword n)) =
        some (.unqualified, [p.decl.name.name], false)) : c.ExtendsBeside d p := by
  obtain ⟨n, hn, heq⟩ := Option.map_eq_some_iff.mp hparent
  simp only [Prod.mk.injEq] at heq
  obtain ⟨hkind, hparts, hkeyword⟩ := heq
  exact ⟨hclass, hspace, Option.isNone_iff_eq_none.mp himport, n, hn, hkind, hparts, hkeyword⟩

theorem inherits_of_extendsBeside_sections :
    ∃ t ∈ sections, t.2.1.name = "A\\C" ∧ t.2.1.ExtendsBeside t.1 t.2.2 ∧
      t.1.namespaceName = t.2.1.space ∧
      ∃ flat, (((({} : Workspace).add t.1).reflect? t.2.1.name).run {}).1 = some flat ∧
        (({} : Workspace).add t.1).Inherits (.ofDeclaration t.1 t.2.2)
          (.ofDeclaration t.1 t.2.1) flat := by
  have hfound : (sections.map fun t ↦ t.2.1.name) = ["A\\C"] := by decide +kernel
  have hnames : ∀ t ∈ sections, (t.1.classes.map fun k ↦ Text.lower k.name).Nodup ∧
      withoutLeadingBackslashes t.2.1.name = t.2.1.name ∧
      withoutLeadingBackslashes t.2.2.name = t.2.2.name := by decide +kernel
  have hbeside : ∀ t ∈ sections, t.2.1.decl.kind = .class ∧ t.2.1.space = t.2.2.space ∧
      (t.1.import? t.2.2.decl.name.name).isNone = true ∧ t.1.namespaceName = t.2.1.space ∧
      (t.2.1.decl.parents.head?.map fun n ↦ (n.kind, n.parts, Document.isClassKeyword n)) =
        some (.unqualified, [t.2.2.decl.name.name], false) := by decide +kernel
  obtain ⟨⟨d, c, p⟩, ht, hname⟩ :=
    List.mem_map.mp (hfound ▸ List.mem_singleton_self _ : "A\\C" ∈ sections.map fun t ↦ t.2.1.name)
  obtain ⟨hc, hp⟩ := mem_of_couple ht
  obtain ⟨hnodup, hbare, hbare'⟩ := hnames _ ht
  obtain ⟨hclass, hspace, himport, hfirst, hparent⟩ := hbeside _ ht
  have h := extendsBeside_of_eq hclass hspace himport hparent
  exact ⟨(d, c, p), ht, hname, h, hfirst, (inherits_of_extendsBeside h).2 hfirst
    (Document.locate?_of_mem hc hnodup hbare) (Document.locate?_of_mem hp hnodup hbare') {} {}
    (.start (by simp))⟩

def second : List (Document × DeclaredClass × DeclaredClass) :=
  couple "<?php namespace A; class Q{} namespace B; class P{function m(){}} class C extends P{}" 2 1

theorem parent_of_extendsBeside_missed :
    ∃ t ∈ second, t.2.1 ∈ t.1.classes ∧ t.2.2 ∈ t.1.classes ∧ t.2.1.ExtendsBeside t.1 t.2.2 ∧
      t.2.2.name = "B\\P" ∧ (ClassInfo.ofDeclaration t.1 t.2.1).parent = some "A\\P" ∧
      ((((({} : Workspace).add t.1).reflect? t.2.1.name).run {}).1.map fun c ↦
        c.methods.map MethodInfo.name) = some [] := by
  have hfound : (second.map fun t ↦ t.2.2.name) = ["B\\P"] := by decide +kernel
  have hbeside : ∀ t ∈ second, t.2.1.decl.kind = .class ∧ t.2.1.space = t.2.2.space ∧
      (t.1.import? t.2.2.decl.name.name).isNone = true ∧
      (t.2.1.decl.parents.head?.map fun n ↦ (n.kind, n.parts, Document.isClassKeyword n)) =
        some (.unqualified, [t.2.2.decl.name.name], false) := by decide +kernel
  have hmissed : ∀ t ∈ second, (ClassInfo.ofDeclaration t.1 t.2.1).parent = some "A\\P" ∧
      ((((({} : Workspace).add t.1).reflect? t.2.1.name).run {}).1.map fun c ↦
        c.methods.map MethodInfo.name) = some [] := by decide +kernel
  obtain ⟨⟨d, c, p⟩, ht, hname⟩ :=
    List.mem_map.mp (hfound ▸ List.mem_singleton_self _ : "B\\P" ∈ second.map fun t ↦ t.2.2.name)
  obtain ⟨hc, hp⟩ := mem_of_couple ht
  obtain ⟨hclass, hspace, himport, hparent⟩ := hbeside _ ht
  exact ⟨(d, c, p), ht, hc, hp, extendsBeside_of_eq hclass hspace himport hparent, hname,
    hmissed _ ht⟩

end Workspace

end PhpInsight

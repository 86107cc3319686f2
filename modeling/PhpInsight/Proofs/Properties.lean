import Mathlib.Data.List.Forall2
import PhpInsight.Proofs.Inheritance.SameNamespace
import PhpInsight.Proofs.Registry
import PhpInsight.Proofs.Types.Declared

namespace PhpInsight

open Text

namespace Member

def constructor? (m : Member) : Option MethodDecl :=
  match m.kind with
  | .method decl =>
    if sameIgnoringCase decl.name.name ClassDecl.constructorName then some decl else none
  | _ => none

def Gives (m : Member) (name : String) : Prop := ∃ p ∈ DeclaredProperty.ofMember m, p.name = name

end Member

namespace DeclaredProperty

variable {m : Member} {decl : MethodDecl}

def ofBody (m : Member) : List DeclaredProperty :=
  match m.kind with
  | .property ms hint items => items.map (declared m ms hint)
  | _ => []

def ofConstructor (decl : MethodDecl) : List DeclaredProperty :=
  decl.params.filterMap fun p ↦ p.promoted.map (promoted p)

theorem ofMember_of_constructor (h : m.constructor? = some decl) :
    ofMember m = ofConstructor decl ∧ ofBody m = [] := by
  obtain ⟨kind, span, doc⟩ := m
  cases kind with
  | method own =>
    obtain ⟨hname, rfl⟩ : sameIgnoringCase own.name.name ClassDecl.constructorName = true ∧
        own = decl := by simpa [Member.constructor?] using h
    exact ⟨if_pos hname, rfl⟩
  | _ => cases h

theorem ofMember_of_not_constructor (h : m.constructor? = none) : ofMember m = ofBody m := by
  obtain ⟨kind, span, doc⟩ := m
  cases kind with
  | method own =>
    have hname : ¬ sameIgnoringCase own.name.name ClassDecl.constructorName = true := by
      simpa [Member.constructor?] using h
    exact if_neg hname
  | _ => rfl

theorem mem_ofMember_of_mem_ofBody {p : DeclaredProperty} (hp : p ∈ ofBody m) :
    p ∈ ofMember m := by
  cases hm : m.constructor? with
  | none => rwa [ofMember_of_not_constructor hm]
  | some decl =>
    rw [(ofMember_of_constructor hm).2] at hp
    cases hp

end DeclaredProperty

/-- What a reflected property tells of its declaration. -/
structure PropertyInfo.Tells (d : Document) (p : DeclaredProperty) (info : PropertyInfo) :
    Prop where
  name : info.name = p.name
  modifiers : info.modifiers = p.modifiers
  type : info.type = p.typeHint.map d.canonicalTypeHint
  doc : info.doc = p.doc

namespace ClassDecl

variable {d : Document} {owner name : String}

/-- The properties of a class in the order in which they are reflected. -/
def reflectedProperties (c : ClassDecl) : List DeclaredProperty :=
  c.members.flatMap DeclaredProperty.ofBody ++
    ((c.members.findSome? Member.constructor?).map DeclaredProperty.ofConstructor).getD []

theorem constructor?_eq (c : ClassDecl) :
    c.constructor? = c.members.findSome? Member.constructor? := by
  rw [constructor?, method?, methods, List.find?_filterMap]
  induction c.members with
  | nil => rfl
  | cons m ms ih =>
    obtain ⟨kind, span, doc⟩ := m
    cases kind with
    | method decl =>
      by_cases hname : sameIgnoringCase decl.name.name constructorName = true
      · simp [Member.constructor?, hname]
      · simpa [Member.constructor?, hname] using ih
    | _ => simpa [Member.constructor?, List.findSome?_cons] using ih

theorem find?_isConstructor (m : Member) :
    (ClassInfo.methodsOf d owner m).find? MethodInfo.isConstructor =
      m.constructor?.map (.ofMethod d owner m.doc) := by
  obtain ⟨kind, span, doc⟩ := m
  cases kind with
  | method decl =>
    have hinfo : (MethodInfo.ofMethod d owner doc decl).isConstructor =
        sameIgnoringCase decl.name.name constructorName := rfl
    by_cases hname : sameIgnoringCase decl.name.name constructorName = true
    · simp [ClassInfo.methodsOf, Member.constructor?, hinfo, hname]
    · simp [ClassInfo.methodsOf, Member.constructor?, hinfo, hname]
  | _ => rfl

theorem find?_methodsOf (d : Document) (owner : String) {ms : List Member} {decl : MethodDecl}
    (h : ms.findSome? Member.constructor? = some decl) :
    ∃ doc, (ms.flatMap (ClassInfo.methodsOf d owner)).find? MethodInfo.isConstructor =
      some (.ofMethod d owner doc decl) := by
  obtain ⟨before, m, after, hms, hm, hbefore⟩ := List.findSome?_eq_some_iff.mp h
  refine ⟨m.doc, ?_⟩
  rw [List.find?_flatMap, List.findSome?_eq_some_iff]
  refine ⟨before, m, after, hms, ?_, ?_⟩
  · rw [find?_isConstructor, hm, Option.map_some]
  · intro b hb
    rw [find?_isConstructor, hbefore b hb, Option.map_none]

theorem tells_propertiesOf (m : Member) :
    List.Forall₂ (PropertyInfo.Tells d) (DeclaredProperty.ofBody m)
      (ClassInfo.propertiesOf d owner m) := by
  obtain ⟨kind, span, doc⟩ := m
  cases kind with
  | property ms hint items =>
    simp only [DeclaredProperty.ofBody, ClassInfo.propertiesOf, List.forall₂_map_left_iff,
      List.forall₂_map_right_iff, List.forall₂_same]
    intro item _
    exact ⟨rfl, rfl, rfl, rfl⟩
  | _ => exact .nil

theorem tells_promotedOf (c : ClassDecl) :
    List.Forall₂ (PropertyInfo.Tells d)
      ((c.constructor?.map DeclaredProperty.ofConstructor).getD [])
      (ClassInfo.promotedOf owner c (c.members.flatMap (ClassInfo.methodsOf d owner))) := by
  rw [ClassInfo.promotedOf]
  cases hc : c.constructor? with
  | none => exact .nil
  | some decl =>
    rw [constructor?_eq] at hc
    obtain ⟨doc, hdoc⟩ := find?_methodsOf d owner hc
    rw [hdoc]
    simp only [Option.map_some, Option.getD_some, MethodInfo.ofMethod,
      DeclaredProperty.ofConstructor]
    induction decl.params with
    | nil => exact .nil
    | cons p ps ih =>
      cases hp : p.promoted with
      | none => simpa [hp] using ih
      | some ms => simpa [hp] using ⟨⟨rfl, rfl, rfl, rfl⟩, ih⟩

theorem rel_find? {ps : List DeclaredProperty} {infos : List PropertyInfo}
    (h : List.Forall₂ (PropertyInfo.Tells d) ps infos) (name : String) :
    Option.Rel (PropertyInfo.Tells d) (ps.find? fun p ↦ p.name = name)
      (infos.find? fun info ↦ info.name = name) := by
  induction h with
  | nil => exact .none
  | @cons p info ps infos hp _ ih =>
    by_cases hname : p.name = name
    · simpa [hp.name, hname] using hp
    · simpa [hp.name, hname] using ih

/-- The property that a reflected class has is the first of its reflected properties. -/
theorem rel_property? (d : Document) (k : DeclaredClass) (name : String) :
    Option.Rel (PropertyInfo.Tells d) (k.decl.reflectedProperties.find? fun p ↦ p.name = name)
      ((ClassInfo.ofDeclaration d k).property? name) := by
  have htells : List.Forall₂ (PropertyInfo.Tells d) k.decl.reflectedProperties
      (k.decl.members.flatMap (ClassInfo.propertiesOf d k.name) ++
        ClassInfo.promotedOf k.name k.decl
          (k.decl.members.flatMap (ClassInfo.methodsOf d k.name))) := by
    rw [reflectedProperties, ← constructor?_eq]
    refine List.rel_append ?_ (tells_promotedOf k.decl)
    refine List.rel_flatMap (List.forall₂_same.mpr fun m _ ↦ rfl) ?_
    intro m _ hm
    exact hm ▸ tells_propertiesOf m
  have hproperty : (ClassInfo.ofDeclaration d k).property? name =
      (k.decl.members.flatMap (ClassInfo.propertiesOf d k.name) ++
        ClassInfo.promotedOf k.name k.decl
          (k.decl.members.flatMap (ClassInfo.methodsOf d k.name))).find?
        fun info ↦ info.name = name := by
    refine (@MemberTable.find?_inheritMembers _ MemberTable.properties _ _ _ name).trans ?_
    rw [List.filter_true]
    rfl
  rw [hproperty]
  exact rel_find? htells name

/-- Where the first member with a property of a name is a constructor, it is the first constructor,
and the body does not declare the property behind it. -/
def Consistent (c : ClassDecl) (name : String) : Prop :=
  ∀ before m after, c.members = before ++ m :: after → m.constructor?.isSome = true →
    m.Gives name → (∀ b ∈ before, ¬ b.Gives name) →
      (∀ b ∈ before, b.constructor? = none) ∧
        ∀ a ∈ after, a.Gives name → a.constructor?.isSome = true

end ClassDecl

namespace DeclaredProperty

variable {m : Member} {decl : MethodDecl} {p : DeclaredProperty} {name : String}

theorem find?_ofMember_eq_none_iff :
    (ofMember m).find? (fun p ↦ p.name = name) = none ↔ ¬ m.Gives name := by
  simp [Member.Gives]

theorem find?_ofBody_eq_none_iff :
    (ofBody m).find? (fun p ↦ p.name = name) = none ↔
      (m.Gives name → m.constructor?.isSome = true) := by
  cases hm : m.constructor? with
  | none =>
    rw [← ofMember_of_not_constructor hm, find?_ofMember_eq_none_iff]
    simp
  | some decl => simp [(ofMember_of_constructor hm).2]

theorem promoted_of_mem_ofConstructor (hp : p ∈ ofConstructor decl) :
    ∃ param ms, p = promoted param ms := by
  obtain ⟨param, -, hparam⟩ := List.mem_filterMap.mp hp
  obtain ⟨ms, -, rfl⟩ := Option.map_eq_some_iff.mp hparam
  exact ⟨param, ms, rfl⟩

theorem declared_of_mem_ofBody (hp : p ∈ ofBody m) :
    ∃ ms hint item, p = declared m ms hint item := by
  rw [ofBody] at hp
  split at hp
  next ms hint items _ =>
    obtain ⟨item, -, rfl⟩ := List.mem_map.mp hp
    exact ⟨ms, hint, item, rfl⟩
  next => cases hp

end DeclaredProperty

namespace ClassDecl

open DeclaredProperty

variable {c : ClassDecl} {p q : DeclaredProperty} {name : String} {before after : List Member}
  {m : Member}

theorem find?_properties (h : c.members = before ++ m :: after) (hm : m.Gives name)
    (hbefore : ∀ b ∈ before, ¬ b.Gives name) :
    c.properties.find? (fun p ↦ p.name = name) = (ofMember m).find? fun p ↦ p.name = name := by
  cases hfind : (ofMember m).find? fun p ↦ p.name = name with
  | none => exact absurd hm (find?_ofMember_eq_none_iff.mp hfind)
  | some p =>
    rw [properties, List.find?_flatMap, List.findSome?_eq_some_iff]
    exact ⟨before, m, after, h, hfind, fun b hb ↦ find?_ofMember_eq_none_iff.mpr (hbefore b hb)⟩

theorem find?_properties_eq_none_iff :
    c.properties.find? (fun p ↦ p.name = name) = none ↔ ∀ m ∈ c.members, ¬ m.Gives name := by
  simp only [properties, List.find?_flatMap, List.findSome?_eq_none_iff,
    find?_ofMember_eq_none_iff]

theorem exists_of_find?_properties (h : c.properties.find? (fun p ↦ p.name = name) = some p) :
    ∃ before m after, c.members = before ++ m :: after ∧
      (ofMember m).find? (fun p ↦ p.name = name) = some p ∧ ∀ b ∈ before, ¬ b.Gives name := by
  rw [properties, List.find?_flatMap, List.findSome?_eq_some_iff] at h
  obtain ⟨before, m, after, hmembers, hm, hbefore⟩ := h
  exact ⟨before, m, after, hmembers, hm, fun b hb ↦ find?_ofMember_eq_none_iff.mp (hbefore b hb)⟩

theorem find?_reflectedProperties (c : ClassDecl) (name : String) :
    c.reflectedProperties.find? (fun p ↦ p.name = name) =
      (c.members.findSome? fun m ↦ (ofBody m).find? fun p ↦ p.name = name).or
        ((c.members.findSome? Member.constructor?).bind fun decl ↦
          (ofConstructor decl).find? fun p ↦ p.name = name) := by
  rw [reflectedProperties, List.find?_append, List.find?_flatMap]
  cases c.members.findSome? Member.constructor? <;> rfl

theorem findSome?_ofBody_eq_none_iff :
    (c.members.findSome? fun m ↦ (ofBody m).find? fun p ↦ p.name = name) = none ↔
      ∀ m ∈ c.members, m.Gives name → m.constructor?.isSome = true := by
  simp only [List.findSome?_eq_none_iff, find?_ofBody_eq_none_iff]

theorem find?_constructor_eq_none {ms : List Member} (h : ∀ m ∈ ms, ¬ m.Gives name) :
    ((ms.findSome? Member.constructor?).bind fun decl ↦
      (ofConstructor decl).find? fun p ↦ p.name = name) = none := by
  cases hfirst : ms.findSome? Member.constructor? with
  | none => rfl
  | some decl =>
    obtain ⟨m, hm, hdecl⟩ := List.exists_of_findSome?_eq_some hfirst
    rw [Option.bind_some, ← (ofMember_of_constructor hdecl).1]
    exact find?_ofMember_eq_none_iff.mpr (h m hm)

theorem Consistent.find?_eq (h : c.Consistent name) :
    c.properties.find? (fun p ↦ p.name = name) =
      c.reflectedProperties.find? fun p ↦ p.name = name := by
  rw [find?_reflectedProperties]
  cases hfind : c.properties.find? fun p ↦ p.name = name with
  | none =>
    have hgives := find?_properties_eq_none_iff.mp hfind
    rw [findSome?_ofBody_eq_none_iff.mpr fun m hm h ↦ absurd h (hgives m hm),
      find?_constructor_eq_none hgives, Option.none_or]
  | some p =>
    obtain ⟨before, m, after, hmembers, hm, hbefore⟩ := exists_of_find?_properties hfind
    have hgives : m.Gives name := by
      by_contra hcontra
      rw [find?_ofMember_eq_none_iff.mpr hcontra] at hm
      cases hm
    cases hdecl : m.constructor? with
    | none =>
      have hbody : (c.members.findSome? fun m ↦ (ofBody m).find? fun p ↦ p.name = name) =
          some p := by
        rw [ofMember_of_not_constructor hdecl] at hm
        exact List.findSome?_eq_some_iff.mpr ⟨before, m, after, hmembers, hm,
          fun b hb ↦ find?_ofBody_eq_none_iff.mpr fun h ↦ absurd h (hbefore b hb)⟩
      rw [hbody, Option.some_or]
    | some decl =>
      obtain ⟨hfirst, hlast⟩ := h before m after hmembers (by rw [hdecl]; rfl) hgives hbefore
      have hbody : ∀ b ∈ c.members, b.Gives name → b.constructor?.isSome = true := by
        intro b hb hb'
        rw [hmembers, List.mem_append, List.mem_cons] at hb
        obtain hb | rfl | hb := hb
        · exact absurd hb' (hbefore b hb)
        · rw [hdecl, Option.isSome_some]
        · exact hlast b hb hb'
      have hconstructor : c.members.findSome? Member.constructor? = some decl :=
        List.findSome?_eq_some_iff.mpr ⟨before, m, after, hmembers, hdecl, hfirst⟩
      rw [findSome?_ofBody_eq_none_iff.mpr hbody, hconstructor, Option.none_or, Option.bind_some,
        ← (ofMember_of_constructor hdecl).1, hm]

/-- Without consistency the document finds a parameter, the reflected class another property. -/
theorem promoted_of_not_consistent (h : ¬ c.Consistent name) :
    (∃ param ms, c.properties.find? (fun p ↦ p.name = name) = some (.promoted param ms)) ∧
      ∀ q, c.reflectedProperties.find? (fun p ↦ p.name = name) = some q →
        ∃ member ms hint item, q = .declared member ms hint item ∧ q ∈ c.properties := by
  simp only [Consistent, not_forall] at h
  obtain ⟨before, m, after, hmembers, hm, hgives, hbefore, h⟩ := h
  obtain ⟨decl, hdecl⟩ := Option.isSome_iff_exists.mp hm
  refine ⟨?_, ?_⟩
  · cases hfind : (ofMember m).find? fun p ↦ p.name = name with
    | none => exact absurd hgives (find?_ofMember_eq_none_iff.mp hfind)
    | some p =>
      rw [find?_properties hmembers hgives hbefore, hfind]
      rw [(ofMember_of_constructor hdecl).1] at hfind
      obtain ⟨param, ms, rfl⟩ := promoted_of_mem_ofConstructor (List.mem_of_find?_eq_some hfind)
      exact ⟨param, ms, rfl⟩
  · intro q hq
    rw [find?_reflectedProperties] at hq
    cases hbody : c.members.findSome? fun m ↦ (ofBody m).find? fun p ↦ p.name = name with
    | some p =>
      rw [hbody, Option.some_or, Option.some_inj] at hq
      obtain ⟨b, hb, hp⟩ := List.exists_of_findSome?_eq_some hbody
      have hp := List.mem_of_find?_eq_some hp
      obtain ⟨ms, hint, item, rfl⟩ := declared_of_mem_ofBody hp
      exact ⟨b, ms, hint, item, hq.symm,
        List.mem_flatMap.mpr ⟨b, hb, hq ▸ mem_ofMember_of_mem_ofBody hp⟩⟩
    | none =>
      -- No member behind the constructor has the property, so there is another constructor before.
      have hlast : ∀ a ∈ after, a.Gives name → a.constructor?.isSome = true := by
        intro a ha
        exact findSome?_ofBody_eq_none_iff.mp hbody a (by simp [hmembers, ha])
      obtain ⟨b, hb, hb'⟩ : ∃ b ∈ before, b.constructor? ≠ none := by
        by_contra hcontra
        refine h ⟨?_, hlast⟩
        intro b hb
        by_contra hb'
        exact hcontra ⟨b, hb, hb'⟩
      have hnone := find?_constructor_eq_none hbefore
      cases hfirst : before.findSome? Member.constructor? with
      | none => exact absurd (List.findSome?_eq_none_iff.mp hfirst b hb) hb'
      | some decl' =>
        rw [hfirst] at hnone
        rw [hbody, hmembers, List.findSome?_append, hfirst, Option.some_or, hnone] at hq
        cases hq

theorem consistent_of_nodup (hnames : (c.properties.map DeclaredProperty.name).Nodup)
    (hone : c.members.countP (fun m ↦ m.constructor?.isSome) ≤ 1) : c.Consistent name := by
  intro before m after hmembers hm hgives _
  simp only [hmembers, List.countP_append, List.countP_cons, hm, if_true] at hone
  refine ⟨?_, ?_⟩
  · intro b hb
    have hzero : before.countP (fun m ↦ m.constructor?.isSome) = 0 := by omega
    simpa using List.countP_eq_zero.mp hzero b hb
  · intro a ha hgives'
    obtain ⟨p, hp, hname⟩ := hgives
    obtain ⟨q, hq, hname'⟩ := hgives'
    rw [properties, hmembers, List.flatMap_append, List.flatMap_cons, List.map_append,
      List.map_append] at hnames
    have hdisjoint := (List.nodup_append.mp (List.nodup_append.mp hnames).2.1).2.2
    exact absurd (hname.trans hname'.symm) (hdisjoint _ (List.mem_map_of_mem hp) _
      (List.mem_map_of_mem (List.mem_flatMap.mpr ⟨a, ha, hq⟩)))

end ClassDecl

namespace Document

variable {d : Document} {k : DeclaredClass} {called : String}

/-- The first class of a document, when it is reflected, has the properties that the document finds,
with their modifiers and types, as far as it is consistent. Otherwise the document finds a parameter
of a constructor, and the reflected class has no such property or one of its body. -/
theorem property?_consistent (hk : d.classes.head? = some k) (hcalled : k.IsCalled called) :
    ∃ c, d.locate? called = some c ∧ ∀ name,
      (k.decl.Consistent name →
        Option.Rel (PropertyInfo.Tells d) (d.property? name) (c.property? name)) ∧
      (¬ k.decl.Consistent name →
        (∃ param ms, d.property? name = some (.promoted param ms)) ∧
        ∀ info, c.property? name = some info → ∃ member ms hint item,
          .declared member ms hint item ∈ k.decl.properties ∧
            PropertyInfo.Tells d (.declared member ms hint item) info) := by
  refine ⟨_, locate?_first hk (DeclaredClass.isCalled_iff.mp hcalled), ?_⟩
  intro name
  have hproperty : d.property? name = k.decl.properties.find? fun p ↦ p.name = name := by
    rw [property?, class?, hk]
    rfl
  have hrel := ClassDecl.rel_property? d k name
  rw [hproperty]
  refine ⟨?_, ?_⟩
  · intro h
    rw [h.find?_eq]
    exact hrel
  · intro h
    obtain ⟨hpromoted, hdeclared⟩ := ClassDecl.promoted_of_not_consistent h
    refine ⟨hpromoted, ?_⟩
    intro info hinfo
    rw [hinfo] at hrel
    cases hq : k.decl.reflectedProperties.find? fun p ↦ p.name = name with
    | none =>
      rw [hq] at hrel
      cases hrel
    | some q =>
      obtain ⟨member, ms, hint, item, rfl, hmem⟩ := hdeclared q hq
      rw [hq] at hrel
      cases hrel with
      | some htells => exact ⟨member, ms, hint, item, hmem, htells⟩

def withClass? (source : String) : Option (Document × DeclaredClass) := do
  let d ← (parse 0 "class.php" source.toList 0).toOption
  return (d, ← d.classes.head?)

/-- Modifiers and type of a property of the first class, if it is named `C`: as the document finds
it, and as the class is reflected. -/
def described (source name : String) :
    Option (Option (Modifiers × Option String) × Option (Modifiers × Option String)) :=
  (withClass? source).map fun (d, _) ↦
    ((d.property? name).map fun p ↦ (p.modifiers, p.typeHint.map d.canonicalTypeHint),
      ((d.locate? "C").bind fun c ↦ c.property? name).map fun info ↦ (info.modifiers, info.type))

def severalProperties : String :=
  "<?php class C \x7b private static ?A $a, $b; " ++
    "function __construct(public int $c, $d) \x7b\x7d \x7d"

theorem property?_consistent_several :
    described severalProperties "b" =
        some (some ({ explicitVisibility := some .private, isStatic := true }, some "?\\A"),
          some ({ explicitVisibility := some .private, isStatic := true }, some "?\\A")) ∧
      described severalProperties "d" = some (none, none) ∧
      ∃ d k c, d.classes.head? = some k ∧ k.IsCalled "C" ∧ d.locate? "C" = some c ∧
        ∀ name, k.decl.Consistent name ∧
          Option.Rel (PropertyInfo.Tells d) (d.property? name) (c.property? name) := by
  refine ⟨by decide +kernel, by decide +kernel, ?_⟩
  have hfound : (withClass? severalProperties).map (fun (d, k) ↦
      (lower k.name, k.decl.properties.map DeclaredProperty.name,
        k.decl.members.countP fun m ↦ m.constructor?.isSome)) =
      some (classKey "C", ["a", "b", "c"], 1) := by decide +kernel
  obtain ⟨⟨d, k⟩, hat, hfound⟩ := Option.map_eq_some_iff.mp hfound
  obtain ⟨hcalled, hfound⟩ := Prod.mk.inj hfound
  obtain ⟨hnames, hone⟩ := Prod.mk.inj hfound
  simp only [withClass?, Option.bind_eq_bind, Option.bind_eq_some_iff] at hat
  obtain ⟨d', -, k', hk, hat⟩ := hat
  cases hat
  obtain ⟨c, hc, hsame⟩ := property?_consistent hk hcalled
  refine ⟨d, k, c, hk, hcalled, hc, ?_⟩
  intro name
  have h : k.decl.Consistent name :=
    ClassDecl.consistent_of_nodup (by rw [hnames]; decide) (Nat.le_of_eq hone)
  exact ⟨h, (hsame name).1 h⟩

/-- A property of the body behind a constructor that also has it, and a parameter of a second
constructor. -/
theorem described_not_consistent :
    described ("<?php class C \x7b function __construct(public int $x) \x7b\x7d " ++
        "private string $x; \x7d") "x" =
      some (some ({ explicitVisibility := some .public }, some "int"),
        some ({ explicitVisibility := some .private }, some "string")) ∧
    described ("<?php class C \x7b function __construct() \x7b\x7d " ++
        "function __construct(public $x) \x7b\x7d \x7d") "x" =
      some (some ({ explicitVisibility := some .public }, none), none) := by
  decide +kernel

end Document

end PhpInsight

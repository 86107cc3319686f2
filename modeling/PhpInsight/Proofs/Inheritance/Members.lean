import Mathlib.Data.List.Nodup
import PhpInsight.Workspace

namespace PhpInsight

/-- A kind of members: where a class keeps them, and the key that tells them apart. -/
structure MemberTable (α : Type) where
  of : ClassInfo → List α
  key : α → String
  modifiers : α → Modifiers
  declaringClass : α → String
  of_inherit (c a : ClassInfo) (withPrivate : Bool) :
    of (c.inherit a withPrivate) = ClassInfo.inheritMembers (fun m n ↦ key n = key m)
      (fun m ↦ withPrivate || (modifiers m).visibility ≠ .private) (of c) (of a)
  declaringClass_of (d : Document) (k : DeclaredClass) :
    ∀ m ∈ of (.ofDeclaration d k), declaringClass m = k.name

namespace ClassInfo

theorem declaringClass_methodsOf (d : Document) (owner : String) (m : Member) :
    ∀ i ∈ methodsOf d owner m, i.declaringClass = owner := by
  intro i hi
  unfold methodsOf at hi
  split at hi
  · rw [List.mem_singleton.mp hi]
    rfl
  · cases hi

theorem declaringClass_propertiesOf (d : Document) (owner : String) (m : Member) :
    ∀ p ∈ propertiesOf d owner m, p.declaringClass = owner := by
  intro p hp
  unfold propertiesOf at hp
  split at hp
  · obtain ⟨i, _, rfl⟩ := List.mem_map.mp hp
    rfl
  · cases hp

theorem declaringClass_constantsOf (owner : String) (m : Member) :
    ∀ k ∈ constantsOf owner m, k.declaringClass = owner := by
  intro k hk
  unfold constantsOf at hk
  split at hk
  · obtain ⟨i, _, rfl⟩ := List.mem_map.mp hk
    rfl
  · cases hk

theorem declaringClass_promotedOf (owner : String) (decl : ClassDecl) (ms : List MethodInfo) :
    ∀ p ∈ promotedOf owner decl ms, p.declaringClass = owner := by
  intro p hp
  unfold promotedOf at hp
  split at hp
  · obtain ⟨i, _, hi⟩ := List.mem_filterMap.mp hp
    obtain ⟨_, _, rfl⟩ := Option.map_eq_some_iff.mp hi
    rfl
  · cases hp

variable {α : Type} {clash : α → α → Bool} {visible : α → Bool}

theorem mem_of_mem_inheritMembers {own inherited : List α} {m : α}
    (h : m ∈ inheritMembers clash visible own inherited) :
    m ∈ own ∨ m ∈ inherited.filter visible := by
  induction inherited generalizing own with
  | nil => exact .inl h
  | cons n ns ih =>
    have hrest : ns.filter visible ⊆ (n :: ns).filter visible :=
      ((List.sublist_cons_self n ns).filter visible).subset
    rcases ih h with h | h
    · dsimp only at h
      split at h
      case isTrue htaken =>
        have hvisible := (Bool.and_eq_true_iff.mp htaken).1
        rcases List.mem_append.mp h with h | h
        · exact .inl h
        · rw [List.mem_singleton.mp h]
          exact .inr (List.mem_filter.mpr ⟨List.mem_cons_self, hvisible⟩)
      case isFalse => exact .inl h
    · exact .inr (hrest h)

theorem prefix_inheritMembers (own inherited : List α) :
    own <+: inheritMembers clash visible own inherited := by
  induction inherited generalizing own with
  | nil => exact List.prefix_refl _
  | cons n ns ih =>
    refine List.IsPrefix.trans ?_ (ih _)
    dsimp only
    split
    · exact List.prefix_append _ _
    · exact List.prefix_refl _

theorem exists_of_mem_inherited {own inherited : List α} {m : α} (hm : m ∈ inherited)
    (hv : visible m = true) :
    ∃ n ∈ inheritMembers clash visible own inherited, n = m ∨ clash m n = true := by
  induction inherited generalizing own with
  | nil => cases hm
  | cons k ks ih =>
    rcases List.mem_cons.mp hm with rfl | hm
    · have hstep : inheritMembers clash visible own (m :: ks) = inheritMembers clash visible
          (if visible m && !own.any (clash m) then own ++ [m] else own) ks := rfl
      cases hc : own.any (clash m) with
      | true =>
        obtain ⟨n, hn, hclash⟩ := List.any_eq_true.mp hc
        exact ⟨n, (prefix_inheritMembers own (m :: ks)).subset hn, .inr hclash⟩
      | false =>
        rw [hstep, hv, hc]
        exact ⟨m, (prefix_inheritMembers _ ks).subset (by simp), .inl rfl⟩
    · exact ih hm

end ClassInfo

namespace MemberTable

def methods : MemberTable MethodInfo where
  of := ClassInfo.methods
  key m := Text.lower m.name
  modifiers := MethodInfo.modifiers
  declaringClass := MethodInfo.declaringClass
  of_inherit c a withPrivate := by
    have h : (fun m n : MethodInfo ↦ decide (Text.lower n.name = Text.lower m.name)) =
        fun m n ↦ Text.sameIgnoringCase n.name m.name := by
      funext m n
      rw [Bool.eq_iff_iff, decide_eq_true_iff, Text.sameIgnoringCase_iff]
    rw [h]
    rfl
  declaringClass_of d k := by
    intro m hm
    obtain ⟨_, _, hm⟩ := List.mem_flatMap.mp hm
    exact ClassInfo.declaringClass_methodsOf d k.name _ m hm

def properties : MemberTable PropertyInfo where
  of := ClassInfo.properties
  key := PropertyInfo.name
  modifiers := PropertyInfo.modifiers
  declaringClass := PropertyInfo.declaringClass
  of_inherit _ _ _ := rfl
  declaringClass_of d k := by
    intro p hp
    rcases ClassInfo.mem_of_mem_inheritMembers hp with hp | hp
    · obtain ⟨_, _, hp⟩ := List.mem_flatMap.mp hp
      exact ClassInfo.declaringClass_propertiesOf d k.name _ p hp
    · exact ClassInfo.declaringClass_promotedOf k.name _ _ p (List.mem_filter.mp hp).1

def constants : MemberTable ConstantInfo where
  of := ClassInfo.constants
  key := ConstantInfo.name
  modifiers := ConstantInfo.modifiers
  declaringClass := ConstantInfo.declaringClass
  of_inherit _ _ _ := rfl
  declaringClass_of d k := by
    intro c hc
    obtain ⟨_, _, hc⟩ := List.mem_flatMap.mp hc
    exact ClassInfo.declaringClass_constantsOf k.name _ c hc

variable {α : Type} (T : MemberTable α)

def visible (withPrivate : Bool) (m : α) : Bool :=
  withPrivate || (T.modifiers m).visibility ≠ .private

def given (source : Bool × ClassInfo) : List α := (T.of source.2).filter (T.visible source.1)

def Distinct (ms : List α) : Prop := (ms.map T.key).Nodup

instance (ms : List α) : Decidable (T.Distinct ms) :=
  inferInstanceAs (Decidable (ms.map T.key).Nodup)

/-- Some members with those of a source whose key is not among them yet. -/
def adopt (all : List α) (source : Bool × ClassInfo) : List α :=
  all ++ (T.given source).filter fun m ↦ !(all.map T.key).contains (T.key m)

/-- Own members with those of the sources, of which an earlier one wins. -/
def resolve (own : List α) (sources : List (Bool × ClassInfo)) : List α :=
  sources.foldl T.adopt own

theorem inheritMembers_eq {visible : α → Bool} {own inherited : List α}
    (h : T.Distinct inherited) :
    ClassInfo.inheritMembers (fun m n ↦ T.key n = T.key m) visible own inherited =
      own ++ (inherited.filter visible).filter fun m ↦ !(own.map T.key).contains (T.key m) := by
  induction inherited generalizing own with
  | nil => simp [ClassInfo.inheritMembers]
  | cons m ms ih =>
    obtain ⟨hm, hms⟩ := List.nodup_cons.mp h
    have hstep : ClassInfo.inheritMembers (fun m n ↦ T.key n = T.key m) visible own (m :: ms) =
        ClassInfo.inheritMembers (fun m n ↦ T.key n = T.key m) visible
          (if visible m && !own.any (fun n ↦ T.key n = T.key m) then own ++ [m] else own) ms := rfl
    have htaken : own.any (fun n ↦ T.key n = T.key m) = (own.map T.key).contains (T.key m) := by
      rw [Bool.eq_iff_iff]
      simp
    rw [hstep, ih hms, htaken]
    cases hv : visible m with
    | false => simp only [Bool.false_and, Bool.false_eq_true, if_false, List.filter_cons, hv]
    | true =>
      cases hc : (own.map T.key).contains (T.key m) with
      | true =>
        simp only [hv, hc, Bool.not_true, Bool.and_false, Bool.false_eq_true, if_false,
          List.filter_cons, if_true]
      | false =>
        have hrest : (ms.filter visible).filter
              (fun n ↦ !((own ++ [m]).map T.key).contains (T.key n)) =
            (ms.filter visible).filter fun n ↦ !(own.map T.key).contains (T.key n) := by
          apply List.filter_congr
          intro n hn
          have hne : T.key n ≠ T.key m := fun he ↦
            hm (he ▸ List.mem_map_of_mem (List.mem_filter.mp hn).1)
          simp [hne]
        simp only [Bool.not_false, Bool.and_true, if_true]
        rw [hrest]
        simp only [hv, hc, List.filter_cons, if_true, Bool.not_false, List.append_assoc,
          List.singleton_append]

theorem of_inherit_eq (c a : ClassInfo) (withPrivate : Bool) (h : T.Distinct (T.of a)) :
    T.of (c.inherit a withPrivate) = T.adopt (T.of c) (withPrivate, a) := by
  rw [T.of_inherit, T.inheritMembers_eq h]
  rfl

theorem Distinct.adopt {T : MemberTable α} {all : List α} {source : Bool × ClassInfo}
    (h : T.Distinct all) (hs : T.Distinct (T.of source.2)) : T.Distinct (T.adopt all source) := by
  unfold Distinct MemberTable.adopt
  rw [List.map_append, List.nodup_append]
  refine ⟨h, hs.sublist ((List.filter_sublist.trans List.filter_sublist).map _), ?_⟩
  intro k hk k' hk' he
  subst he
  obtain ⟨m, hm, rfl⟩ := List.mem_map.mp hk'
  have hfree := (List.mem_filter.mp hm).2
  simp only [Bool.not_eq_true', decide_eq_false_iff_not, List.contains_eq_mem] at hfree
  exact hfree hk

/-- Among own and taken over members of one key the first one in order is kept. -/
theorem find?_adopt (all : List α) (source : Bool × ClassInfo) (key : String) :
    (T.adopt all source).find? (T.key · = key) =
      (all ++ T.given source).find? (T.key · = key) := by
  unfold adopt
  rw [List.find?_append, List.find?_append]
  cases hf : all.find? (T.key · = key) with
  | some m => rfl
  | none =>
    simp only [Option.none_or]
    rw [List.find?_filter]
    congr 1
    funext m
    have hall := List.find?_eq_none.mp hf
    by_cases hm : T.key m = key
    · have : key ∉ all.map T.key := by
        intro hk
        obtain ⟨n, hn, hnk⟩ := List.mem_map.mp hk
        exact hall n hn (by simpa using hnk)
      simp [hm, this]
    · simp [hm]

theorem find?_resolve (own : List α) (sources : List (Bool × ClassInfo)) (key : String) :
    (T.resolve own sources).find? (T.key · = key) =
      (own ++ sources.flatMap T.given).find? (T.key · = key) := by
  induction sources generalizing own with
  | nil => simp [resolve]
  | cons s ss ih =>
    have h := ih (T.adopt own s)
    rw [resolve] at h ⊢
    rw [List.foldl_cons, h, List.find?_append, T.find?_adopt, ← List.find?_append,
      List.flatMap_cons, List.append_assoc]

theorem Distinct.resolve {T : MemberTable α} {own : List α} {sources : List (Bool × ClassInfo)}
    (h : T.Distinct own) (hs : ∀ s ∈ sources, T.Distinct (T.of s.2)) :
    T.Distinct (T.resolve own sources) := by
  induction sources generalizing own with
  | nil => exact h
  | cons s ss ih =>
    exact ih (h.adopt (hs s List.mem_cons_self)) fun s hs' ↦ hs s (List.mem_cons_of_mem _ hs')

theorem of_foldl_inherit (c : ClassInfo) (sources : List (Bool × ClassInfo))
    (hs : ∀ s ∈ sources, T.Distinct (T.of s.2)) :
    T.of (sources.foldl (fun c s ↦ c.inherit s.2 s.1) c) = T.resolve (T.of c) sources := by
  induction sources generalizing c with
  | nil => rfl
  | cons s ss ih =>
    rw [List.foldl_cons, ih _ fun s hs' ↦ hs s (List.mem_cons_of_mem _ hs'),
      T.of_inherit_eq c s.2 s.1 (hs s List.mem_cons_self)]
    rfl

theorem mem_resolve {own : List α} {sources : List (Bool × ClassInfo)} {m : α}
    (h : m ∈ T.resolve own sources) : m ∈ own ∨ ∃ s ∈ sources, m ∈ T.of s.2 := by
  induction sources generalizing own with
  | nil => exact .inl h
  | cons s ss ih =>
    rcases ih h with h | ⟨s', hs', hm⟩
    · rcases List.mem_append.mp h with h | h
      · exact .inl h
      · exact .inr ⟨s, List.mem_cons_self,
          (List.mem_filter.mp (List.mem_filter.mp h).1).1⟩
    · exact .inr ⟨s', List.mem_cons_of_mem _ hs', hm⟩

end MemberTable

end PhpInsight

import PhpInsight.Proofs.Inheritance.Members
import PhpInsight.Proofs.Types.Ensured
import PhpInsight.Proofs.Types.Union

namespace PhpInsight

open InferredType TypeText

def InferredType.Segmented (t : InferredType) : Prop := ∀ q ∈ t.className?, IsSegmented q

structure ClassInfo.Segmented (c : ClassInfo) : Prop where
  name : IsSegmented c.name
  parent : ∀ q ∈ c.parent, IsSegmented q
  interfaces : ∀ q ∈ c.interfaces, IsSegmented q
  traits : ∀ q ∈ c.traits, IsSegmented q
  declaringClass {α : Type} (T : MemberTable α) : ∀ m ∈ T.of c, IsSegmented (T.declaringClass m)

def Document.IsParsed (d : Document) : Prop :=
  ∃ id uri source version, Document.parse id uri source version = .ok d

theorem Document.IsParsed.spelled {d : Document} (h : d.IsParsed) {n : Node} (hn : n ∈ d.nodes) :
    n.Spelled := by
  obtain ⟨id, uri, source, version, hparse⟩ := h
  exact (formed_of_mem_nodes hparse n hn).spelled

theorem isSegmented_of_mem_builtinWords {w : String} (h : w ∈ builtinWords) : IsSegmented w := by
  have hwords : ∀ w ∈ builtinWords, w.toList ≠ [] ∧ '\\' ∉ w.toList := by decide +kernel
  exact .single ⟨(hwords w h).1, (hwords w h).2⟩

namespace InferredType

variable {t : InferredType} {word? o : Option String} {ms : List String} {m : String}

theorem segmented_of_className?_eq_none (h : t.className? = none) : t.Segmented := by
  simp [InferredType.Segmented, h]

theorem segmented_ofClass? (h : ∀ q ∈ o, IsSegmented q) : (ofClass? o).Segmented := by
  cases o with
  | none => exact segmented_of_className?_eq_none rfl
  | some q =>
    rintro _ ⟨⟩
    exact h q rfl

theorem segmented_ofMembers (h : ∀ m ∈ ms, IsSegmented m) : (ofMembers ms).Segmented := by
  rw [ofMembers, distinct_eq_eraseDups]
  split
  · exact segmented_of_className?_eq_none rfl
  · rename_i m hm
    have hmem : m ∈ ms := List.mem_eraseDups.mp (hm ▸ List.mem_singleton_self m)
    split
    · exact segmented_of_className?_eq_none rfl
    · rintro _ ⟨⟩
      exact h m hmem
  · exact segmented_of_className?_eq_none rfl

theorem segmented_rendering (ht : t.Segmented) (hunion : ∀ ms, t ≠ .union ms)
    (hword : ∀ w ∈ word?, w ∈ builtinWords) (h : rendering? t word? = some m) :
    IsSegmented m := by
  cases t with
  | «class» q =>
    obtain rfl : q = m := Option.some.inj h
    exact ht q rfl
  | scalar s =>
    obtain rfl : s.display = m := Option.some.inj h
    exact isSegmented_of_mem_builtinWords (by cases s <;> decide +kernel)
  | union ms => exact absurd rfl (hunion ms)
  | unresolved => exact isSegmented_of_mem_builtinWords (hword m h)

end InferredType

namespace Document

variable {d : Document} {n : Name} {t : SimpleType}

theorem IsParsed.isSegmented_className? (h : d.IsParsed) : ∀ q ∈ d.className?, IsSegmented q := by
  obtain ⟨id, uri, source, version, hparse⟩ := h
  intro q hq
  obtain ⟨k, hk, rfl⟩ := Option.map_eq_some_iff.mp hq
  exact (written_classes hparse k (List.mem_of_head? hk)).isPath.isSegmented

theorem IsParsed.isSegmented_resolveName? (h : d.IsParsed) (hn : n.Written) :
    ∀ q ∈ d.resolveName? n, IsSegmented q := by
  obtain ⟨id, uri, source, version, hparse⟩ := h
  intro q hq
  cases hkeyword : isClassKeyword n with
  | true => exact (isPath_resolveName?_keyword hparse hkeyword hq).isSegmented
  | false =>
    rw [resolveName?_of_not_keyword hkeyword] at hq
    cases hq
    exact (isPath_qualify (written_of_parse hparse) hn).isSegmented

theorem IsParsed.isSegmented_resolveText? (h : d.IsParsed) (text : String) :
    ∀ q ∈ d.resolveText? text, IsSegmented q := by
  obtain ⟨id, uri, source, version, hparse⟩ := h
  exact fun q hq ↦ (isPathOf_resolveText? hparse hq).mono fun _ hw ↦ hw.1

theorem IsParsed.segmented_classNameType (h : d.IsParsed) (hn : n.Written) :
    (d.classNameType n).Segmented := segmented_ofClass? (h.isSegmented_resolveName? hn)

theorem IsParsed.segmented_simpleTypeOf (h : d.IsParsed) (ht : t.Written) :
    (d.simpleTypeOf t).Segmented ∧ ∀ ms, d.simpleTypeOf t ≠ .union ms := by
  cases t with
  | builtin keyword =>
    rw [simpleTypeOf]
    cases Scalar.ofText? keyword.name with
    | none => exact ⟨segmented_of_className?_eq_none rfl, by simp⟩
    | some s => exact ⟨segmented_of_className?_eq_none rfl, by simp⟩
  | named n =>
    refine ⟨h.segmented_classNameType ht.1, ?_⟩
    rw [simpleTypeOf, classNameType]
    cases d.resolveName? n with
    | none => simp [ofClass?]
    | some q => simp [ofClass?]

theorem IsParsed.segmented_typeHintType (h : d.IsParsed) {t : TypeHint} (ht : t.Written) :
    (d.typeHintType t).Segmented := by
  cases t with
  | simple t => exact (h.segmented_simpleTypeOf ht).1
  | nullable t => exact (h.segmented_simpleTypeOf ht).1
  | union ts =>
    refine segmented_ofMembers fun m hm ↦ ?_
    obtain ⟨t, hmem, hm⟩ := List.mem_filterMap.mp hm
    rw [unionMemberOf?_eq] at hm
    obtain ⟨htype, hunion⟩ := h.segmented_simpleTypeOf (ht.2 t hmem)
    refine segmented_rendering htype hunion (fun w hw ↦ ?_) hm
    cases t with
    | builtin keyword =>
      cases hw
      exact mem_builtinWords_of_typeKeywords _ (ht.2 _ hmem)
    | named n => cases hw

theorem IsParsed.segmented_typeHint? (h : d.IsParsed) {o : Option TypeHint}
    (ho : ∀ t ∈ o, t.Written) : ((o.map d.typeHintType).getD .unresolved).Segmented := by
  cases o with
  | none => exact segmented_of_className?_eq_none rfl
  | some t => exact h.segmented_typeHintType (ho t rfl)

end Document

namespace ClassInfo

variable {c : ClassInfo}

theorem Segmented.singleType (h : c.Segmented) (ho : c.origin.IsParsed) (text : String) :
    (c.singleType text).Segmented := by
  unfold ClassInfo.singleType
  dsimp only
  split
  · exact segmented_of_className?_eq_none rfl
  · split
    · rintro _ ⟨⟩
      exact h.name
    · split
      · exact segmented_ofClass? h.parent
      · split
        · exact segmented_of_className?_eq_none rfl
        · split
          · exact segmented_of_className?_eq_none rfl
          · split
            · exact segmented_of_className?_eq_none rfl
            · exact segmented_ofClass? (ho.isSegmented_resolveText? text)

/-- A text may name a class, or be a union of which one member is left. -/
theorem Segmented.typeOfText (h : c.Segmented) (ho : c.origin.IsParsed) (text : String) :
    (c.typeOfText text).Segmented := by
  unfold ClassInfo.typeOfText
  dsimp only
  split
  · exact h.singleType ho _
  · split
    · exact h.singleType ho _
    · refine segmented_ofMembers fun m hm ↦ ?_
      obtain ⟨t, _, hm⟩ := List.mem_filterMap.mp hm
      rw [unionMember?_eq] at hm
      refine segmented_rendering (h.singleType ho _) c.singleType_ne_union (fun w hw ↦ ?_) hm
      obtain ⟨hbuiltin, hlower⟩ := Option.ite_none_right_eq_some.mp hw
      exact Option.some.inj hlower ▸ List.contains_iff_mem.mp hbuiltin

end ClassInfo

namespace Document

variable {d : Document} {k : DeclaredClass}

theorem IsParsed.written_of_mem_children (h : d.IsParsed) {n : Node} (hn : n ∈ d.nodes) {m : Name}
    (hm : .name m ∈ n.children) : m.Written := ((h.spelled hn).child hm).self

theorem IsParsed.written_bases (h : d.IsParsed) (hk : k ∈ d.classes) :
    (∀ n ∈ k.decl.parents, n.Written) ∧ ∀ n ∈ k.decl.interfaces, n.Written := by
  obtain ⟨s, hs, hkind⟩ := exists_classLike hk
  constructor
  all_goals
    intro n hn
    refine h.written_of_mem_children hs ?_
    rw [Node.children, hkind]
    simp [StmtKind.children, Node.ofNames, hn]

theorem IsParsed.written_traits (h : d.IsParsed) (hk : k ∈ d.classes) {m : Member}
    (hm : m ∈ k.decl.members) {names : List Name} (hkind : m.kind = .traitUse names) :
    ∀ n ∈ names, n.Written := by
  intro n hn
  obtain ⟨s, hs, hclass⟩ := exists_classLike hk
  have hmember : .member m ∈ d.nodes := by
    refine mem_nodes_of_mem_children hs ?_
    rw [Node.children, hclass]
    simp [StmtKind.children, hm]
  refine h.written_of_mem_children hmember ?_
  rw [Node.children, hkind]
  exact List.mem_map_of_mem hn

theorem IsParsed.isSegmented_name (h : d.IsParsed) (hk : k ∈ d.classes) : IsSegmented k.name := by
  obtain ⟨id, uri, source, version, hparse⟩ := h
  exact (written_classes hparse k hk).isPath.isSegmented

theorem IsParsed.isSegmented_resolved (h : d.IsParsed) {ns : List Name}
    (hns : ∀ n ∈ ns, n.Written) :
    ∀ q ∈ ns.filterMap d.resolveName?, IsSegmented q := by
  intro q hq
  obtain ⟨n, hn, hq⟩ := List.mem_filterMap.mp hq
  exact h.isSegmented_resolveName? (hns n hn) q hq

theorem IsParsed.segmented_ofDeclaration (h : d.IsParsed) (hk : k ∈ d.classes) :
    (ClassInfo.ofDeclaration d k).Segmented := by
  obtain ⟨hparents, hinterfaces⟩ := h.written_bases hk
  refine ⟨h.isSegmented_name hk, fun q hq ↦ ?_, fun q hq ↦ ?_, fun q hq ↦ ?_, fun T m hm ↦ ?_⟩
  · unfold ClassInfo.ofDeclaration at hq
    dsimp only at hq
    split at hq
    · obtain ⟨n, hn, hq⟩ := Option.bind_eq_some_iff.mp hq
      exact h.isSegmented_resolveName? (hparents n (List.mem_of_head? hn)) q hq
    · cases hq
  · unfold ClassInfo.ofDeclaration at hq
    dsimp only at hq
    split at hq
    · exact h.isSegmented_resolved hinterfaces q hq
    · exact h.isSegmented_resolved hparents q hq
    · cases hq
  · obtain ⟨member, hmember, hq⟩ := List.mem_flatMap.mp hq
    unfold ClassInfo.traitsOf at hq
    split at hq
    · rename_i names hkind
      exact h.isSegmented_resolved (h.written_traits hk hmember hkind) q hq
    · cases hq
  · rw [T.declaringClass_of d k m hm]
    exact h.isSegmented_name hk

end Document

/-- A class of a parsed document with names of segments. -/
structure ClassInfo.Proper (c : ClassInfo) : Prop extends ClassInfo.Segmented c where
  origin : c.origin.IsParsed

namespace Document

variable {d : Document}

theorem IsParsed.proper_located (h : d.IsParsed) {name : String} {c : ClassInfo}
    (hc : d.locate? name = some c) : c.Proper := by
  obtain ⟨k, hk, rfl⟩ := Option.map_eq_some_iff.mp hc
  exact ⟨h.segmented_ofDeclaration (List.mem_of_find?_eq_some hk), h⟩

abbrev SpelledSource : TypeSource → Prop :=
  TypeSource.Of IsParsed (fun e ↦ (Node.expr e).Spelled) InferredType.Segmented

theorem IsParsed.spelled_bindingSource (h : d.IsParsed) (name : String) (reference : Span) :
    SpelledSource (d.bindingSource (d.bindingOf name reference)) := by
  cases hbinding : d.bindingOf name reference with
  | none => exact segmented_of_className?_eq_none rfl
  | some b =>
    have hb : b ∈ d.nodes := (List.mem_filter.mp (Node.lastReaching_eq_some hbinding).1).1
    cases b with
    | expr e => exact ⟨h, h.spelled hb⟩
    | param p =>
      refine h.segmented_typeHint? fun t ht ↦ ((h.spelled hb).child (m := .type t) ?_).self
      exact List.mem_append_left _ (List.mem_map_of_mem (Option.mem_toList.mpr ht))
    | _ => exact segmented_of_className?_eq_none rfl

theorem IsParsed.spelled_typeSource (h : d.IsParsed) {e : Expr} (he : (Node.expr e).Spelled) :
    SpelledSource (d.typeSource e) := by
  have hclass {c : ClassRef} (hc : c.node ∈ (Node.expr e).children) :
      SpelledSource (d.classRefSource c) := by
    cases c with
    | named n => exact h.segmented_classNameType (he.child hc).self
    | dynamic e => exact ⟨h, he.child hc⟩
  obtain ⟨kind, span⟩ := e
  cases kind with
  | «variable» name =>
    unfold typeSource
    dsimp only
    split
    · exact segmented_ofClass? h.isSegmented_className?
    · exact h.spelled_bindingSource name span
  | staticPropertyFetch => exact hclass List.mem_cons_self
  | classConstFetch => exact hclass List.mem_cons_self
  | staticCall => exact hclass List.mem_cons_self
  | new => exact hclass List.mem_cons_self
  | assign target value =>
    exact ⟨h, he.child (by simp [Node.children, ExprKind.children, Node.ofExprs])⟩
  | _ => exact segmented_of_className?_eq_none rfl

end Document

theorem Workspace.handsOn_segmented : HandsOn Document.IsParsed (fun e ↦ (Node.expr e).Spelled)
    ClassInfo.Proper InferredType.Segmented where
  unresolved := segmented_of_className?_eq_none rfl
  source hd he := hd.spelled_typeSource he
  receiver he h := he.child (Expr.mem_children_of_memberUse h)
  origin hc := hc.origin
  typeOfText hc text := hc.toSegmented.typeOfText hc.origin text
  assigned hd h := hd.spelled (assigned?_mem_nodes h).2

end PhpInsight

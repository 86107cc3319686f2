import Mathlib.Data.List.Basic
import PhpInsight.Proofs.Inheritance.Hierarchy
import PhpInsight.Proofs.Types.OwnClass
import PhpInsight.Proofs.Types.Path

namespace PhpInsight

open Text TypeText InferredType

theorem Scalar.ofText?_lower (s : String) : ofText? (lower s) = ofText? s := by
  simp only [ofText?, lower_lower]

namespace ClassInfo

variable (c : ClassInfo)

theorem singleType_builtin {w : String} (h : w ∈ builtinWords) :
    c.singleType w =
      if w ∈ ["self", "static", "$this"] then .class c.name
      else if w = "parent" then .ofClass? c.parent
      else match Scalar.ofText? w with
        | some s => .scalar s
        | none => .unresolved := by
  have hword : ∀ w ∈ builtinWords, w.isEmpty = false ∧ lower w = w ∧
      (["self", "static", "$this", "this"].contains w ↔ w ∈ ["self", "static", "$this"]) ∧
      isArrayShape w.toList = false ∧ isBuiltin w = true := by decide +kernel
  obtain ⟨hempty, hlower, hself, hshape, hbuiltin⟩ := hword w h
  by_cases h : w ∈ ["self", "static", "$this"]
  · rw [if_pos h]
    simp only [singleType, hempty, hlower, hself.mpr h, Bool.false_eq_true, if_false, if_true]
  · rw [if_neg h]
    cases hscalar : Scalar.ofText? w <;>
      simp only [singleType, hempty, hlower, mt hself.mp h, hscalar, hshape, hbuiltin,
        Bool.false_eq_true, if_false, Bool.true_or, if_true]

theorem not_mem_of_backslash {t : String} (ht : t.toList.head? = some '\\') {ws : List String}
    (hws : ∀ w ∈ ws, w.toList.head? ≠ some '\\') : ws.contains t = false := by
  rw [← Bool.not_eq_true, List.contains_iff_mem]
  exact fun hmem ↦ hws t hmem ht

theorem singleType_backslash {s : String}
    (hs : ∀ ch ∈ s.toList, ch = '\\' ∨ isWordChar ch = true) :
    c.singleType ("\\" ++ s) = .ofClass? (c.origin.resolveText? ("\\" ++ s)) := by
  have hlower : (lower ("\\" ++ s)).toList = '\\' :: lowerChars s.toList := by
    simp [lower, lowerChars]
  have hhead : (lower ("\\" ++ s)).toList.head? = some '\\' := by rw [hlower]; rfl
  have hsign (ch : Char) (hne : ch ≠ '\\') (hword : isWordChar ch = false) :
      ch ∉ ("\\" ++ s).toList := by
    intro hmem
    rw [String.toList_append] at hmem
    rcases List.mem_append.mp hmem with hmem | hmem
    · exact hne (by simpa using hmem)
    · rcases hs ch hmem with h | h
      · exact hne h
      · rw [hword] at h
        cases h
  have hempty : ("\\" ++ s).isEmpty = false := by simp
  have hself : ["self", "static", "$this", "this"].contains (lower ("\\" ++ s)) = false :=
    not_mem_of_backslash hhead (by decide)
  have hparent : lower ("\\" ++ s) ≠ "parent" := by
    intro h
    rw [h] at hhead
    revert hhead
    decide
  have hscalar : Scalar.ofText? (lower ("\\" ++ s)) = none := by
    rw [Scalar.ofText?_lower, Scalar.ofText?, List.find?_eq_none]
    intro scalar _ heq
    rw [← eq_of_beq heq] at hhead
    revert hhead
    cases scalar <;> decide
  have hshape : isArrayShape (lower ("\\" ++ s)).toList = false := by
    have hbracket : (lower ("\\" ++ s)).toList.reverse.take 2 ≠ [']', '['] := by
      intro h
      have hmem : ']' ∈ (lower ("\\" ++ s)).toList.reverse.take 2 := by rw [h]; simp
      have hsmall : ¬ IsSmall ']' := by
        unfold IsSmall
        decide
      exact hsign ']' (by decide) (by decide)
        (mem_of_mem_lower (List.mem_reverse.mp (List.mem_of_mem_take hmem)) hsmall)
    simp only [isArrayShape, hbracket, decide_false, Bool.false_or]
    rw [hlower]
    rfl
  have hbuiltin : isBuiltin (lower ("\\" ++ s)) = false := by
    rw [isBuiltin, lower_lower]
    exact not_mem_of_backslash hhead (by decide)
  have hany :
      (("\\" ++ s).toList.any fun ch ↦ ['<', '(', '\x7b', '$', ' '].contains ch) = false := by
    rw [List.any_eq_false]
    intro ch hch hmem
    simp only [List.contains_iff_mem, List.mem_cons, List.not_mem_nil, or_false] at hmem
    obtain rfl | rfl | rfl | rfl | rfl := hmem <;> exact hsign _ (by decide) (by decide) hch
  simp only [singleType, hempty, hself, hparent, hscalar, hshape, hbuiltin, hany,
    Bool.false_eq_true, if_false, Bool.or_false]

end ClassInfo

theorem InferredType.ofClass?_inj {a b : Option String} : ofClass? a = ofClass? b ↔ a = b := by
  cases a <;> cases b <;> simp [ofClass?]

namespace Document

variable {d : Document} {k : DeclaredClass} {n : Name}

theorem isBuiltin_of_isKeyword {w : String} (hw : isBuiltin w = true)
    (h : isKeyword n w = true) : n.isUnqualified = true ∧ isBuiltin n.last = true := by
  obtain ⟨hunqualified, hsame⟩ := Bool.and_eq_true_iff.mp h
  rw [isBuiltin, ← sameIgnoringCase_iff.mp hsame] at hw
  exact ⟨hunqualified, hw⟩

theorem isBuiltin_of_isClassKeyword (h : isClassKeyword n = true) :
    n.isUnqualified = true ∧ isBuiltin n.last = true := by
  simp only [isClassKeyword, Bool.or_eq_true] at h
  obtain (hself | hstatic) | hparent := h
  · exact isBuiltin_of_isKeyword (by decide +kernel) hself
  · exact isBuiltin_of_isKeyword (by decide +kernel) hstatic
  · exact isBuiltin_of_isKeyword (by decide +kernel) hparent

/-- The first class of a document extends itself, under a keyword. -/
def ExtendsItself (d : Document) : Prop :=
  ∃ c, d.class? = some c ∧ c.kind = .class ∧ ∃ p ∈ c.parents.head?, p.isSelf = true

instance : Decidable d.ExtendsItself :=
  decidable_of_iff
    (∃ c ∈ d.class?, c.kind = .class ∧ ∃ p ∈ c.parents.head?, p.isSelf = true) Iff.rfl

theorem parentName?_eq (hk : d.classes.head? = some k) :
    d.parentName? = match k.decl.kind with
      | .class => k.decl.parents.head?.bind fun p ↦
        if isClassKeyword p then none else some (d.qualify p)
      | _ => none := by
  have hclass : d.class? = some k.decl := by rw [class?, hk, Option.map_some]
  rw [parentName?, hclass]
  change (guard (k.decl.kind = .class) >>= fun _ ↦ k.decl.parents.head? >>= fun p ↦
    guard (!isClassKeyword p) >>= fun _ ↦ some (d.qualify p)) = _
  cases hkind : k.decl.kind with
  | «class» =>
    cases hp : k.decl.parents.head? with
    | none => rfl
    | some p =>
      change (guard (!isClassKeyword p) >>= fun _ ↦ some (d.qualify p)) =
        if isClassKeyword p then none else some (d.qualify p)
      cases hkeyword : isClassKeyword p <;> rfl
  | _ => rfl

/-- The reflected parent of a class is the one that its document knows. -/
theorem parent_eq_parentName?_iff (hk : d.classes.head? = some k) :
    (ClassInfo.ofDeclaration d k).parent = d.parentName? ↔ ¬ d.ExtendsItself := by
  have hitself : d.ExtendsItself ↔
      k.decl.kind = .class ∧ ∃ p ∈ k.decl.parents.head?, p.isSelf = true := by
    simp [ExtendsItself, class?, hk]
  have hparent : (ClassInfo.ofDeclaration d k).parent = match k.decl.kind with
    | .class => k.decl.parents.head?.bind d.resolveName?
    | _ => none := rfl
  have hknown := parentName?_eq hk
  rw [hitself, hparent]
  cases hkind : k.decl.kind with
  | «class» =>
    cases hp : k.decl.parents.head? with
    | none =>
      rw [hkind, hp] at hknown
      simp [hknown]
    | some p =>
      rw [hkind, hp] at hknown
      have hkeyword : isClassKeyword p = (p.isSelf || isKeyword p "parent") := rfl
      simp only [Option.bind_some, hkeyword] at hknown ⊢
      rw [resolveName?_eq]
      cases hself : p.isSelf with
      | true => simp [hknown, hself, className?, hk]
      | false => cases hup : isKeyword p "parent" <;> simp [hknown, hself, hup]
  | _ =>
    rw [hkind] at hknown
    simp [hknown]

end Document

/-- Whether a type survives being rendered in a document. A builtin word does, and so does a class
name that is no such word and that no blank ends. -/
def SimpleType.Faithful (d : Document) : SimpleType → Prop
  | .builtin _ => True
  | .named n =>
    if n.isSelf then True
    else if Document.isKeyword n "parent" then ¬ d.ExtendsItself
    else ¬ (n.isUnqualified = true ∧ isBuiltin n.last = true) ∧
      (d.qualify n).toList.getLast?.any isBlank = false

instance {d : Document} : DecidablePred (SimpleType.Faithful d)
  | .builtin _ => inferInstanceAs (Decidable True)
  | .named n => inferInstanceAs <| Decidable <|
    if n.isSelf then True
    else if Document.isKeyword n "parent" then ¬ d.ExtendsItself
    else ¬ (n.isUnqualified = true ∧ isBuiltin n.last = true) ∧
      (d.qualify n).toList.getLast?.any isBlank = false

/-- What is read back for a type that was rendered in a document, in the first class of which
it is read. -/
structure ReadsBack (d : Document) (k : DeclaredClass) (t : SimpleType) (m : String) : Prop where
  member : IsMember m
  unmarked : ClassInfo.withoutMark (d.canonicalSimpleType t) = m
  marked : ClassInfo.withoutMark ("?" ++ d.canonicalSimpleType t) = m
  means : (ClassInfo.ofDeclaration d k).singleType m = d.simpleTypeOf t ↔ t.Faithful d
  kept : t.Faithful d → d.canonicalSimpleType t = m

theorem mem_builtinWords_of_typeKeywords : ∀ w ∈ Grammar.typeKeywords, w ∈ builtinWords := by
  decide +kernel

theorem not_dollar_of_isWord {w : String} (h : IsWord w) : lower w ≠ "$this" := by
  intro hw
  have hsmall : ¬ IsSmall '$' := by
    unfold IsSmall
    decide
  have hchar := h.chars '$' (mem_of_mem_lower (by rw [hw]; decide) hsmall)
  rw [not_isWordChar '$' (by simp)] at hchar
  cases hchar

namespace ReadsBack

variable {d : Document} {k : DeclaredClass} {n : Name}

theorem isMember_builtin {w : String} (h : w ∈ builtinWords) : IsMember w := by
  have hwords : ∀ w ∈ builtinWords, w.toList ≠ [] ∧ w.toList.all (fun ch ↦
      (!isBlank ch && ch != '?') && ch != '|' && !isOpeningBracket ch && !isClosingBracket ch) := by
    decide +kernel
  obtain ⟨hne, hchars⟩ := hwords w h
  have hplain (ch : Char) (hch : ch ∈ w.toList) : (isBlank ch = false ∧ ch ≠ '?') ∧ ch ≠ '|' ∧
      isOpeningBracket ch = false ∧ isClosingBracket ch = false := by
    simpa [and_assoc] using List.all_eq_true.mp hchars ch hch
  exact ⟨⟨hne, fun ch hch ↦ (hplain ch (List.mem_of_head? hch)).1,
    fun ch hch ↦ (hplain ch (List.mem_of_getLast? hch)).1.1⟩, fun ch hch ↦ (hplain ch hch).2⟩

theorem of_builtin {t : SimpleType} {w : String} (hw : w ∈ builtinWords)
    (ht : d.canonicalSimpleType t = w)
    (hmeans : (ClassInfo.ofDeclaration d k).singleType w = d.simpleTypeOf t ↔ t.Faithful d) :
    ReadsBack d k t w := by
  have hmember := isMember_builtin hw
  refine ⟨hmember, ?_, ?_, hmeans, fun _ ↦ ht⟩
  · rw [ht, ClassInfo.withoutMark_tight hmember.tight]
  · rw [ht, ClassInfo.withoutMark_marked hmember.tight]

theorem typeOfText_iff {t : SimpleType} {m text : String} (h : ReadsBack d k t m)
    (htext : ClassInfo.withoutMark text = m) :
    (ClassInfo.ofDeclaration d k).typeOfText text = d.simpleTypeOf t ↔ t.Faithful d := by
  subst htext
  rw [ClassInfo.typeOfText_member h.member, h.means]

theorem keyword {i : Identifier} (hi : (SimpleType.builtin i).Written) :
    ReadsBack d k (.builtin i) (lower i.name) := by
  have hwords : ∀ w ∈ Grammar.typeKeywords, w ∉ ["self", "static", "$this"] ∧ w ≠ "parent" := by
    decide +kernel
  have hmem := mem_builtinWords_of_typeKeywords _ hi
  obtain ⟨hself, hparent⟩ := hwords _ hi
  refine of_builtin hmem rfl (iff_of_true ?_ trivial)
  rw [ClassInfo.singleType_builtin _ hmem, if_neg hself, if_neg hparent, Scalar.ofText?_lower]
  rfl

/-- A class name that is a builtin word is rendered as that word. Those that the grammar does not
know are read as no class. -/
theorem word (hk : d.classes.head? = some k) (hn : (SimpleType.named n).Written)
    (hu : n.isUnqualified = true) (hb : isBuiltin n.last = true) :
    ReadsBack d k (.named n) (lower n.last) := by
  have hmem : lower n.last ∈ builtinWords := List.contains_iff_mem.mp hb
  have hkeyword (w : String) (hw : lower w = w) :
      Document.isKeyword n w = true ↔ lower n.last = w := by
    rw [Document.isKeyword, hu, Bool.true_and, sameIgnoringCase_iff, hw]
  have htext : d.canonicalSimpleType (.named n) = lower n.last := by
    rw [Document.canonicalSimpleType, hu, hb]
    rfl
  have htype : d.simpleTypeOf (.named n) = .ofClass? (d.resolveName? n) := rfl
  refine of_builtin hmem htext ?_
  rw [ClassInfo.singleType_builtin _ hmem, SimpleType.Faithful, htype, Document.resolveName?_eq]
  by_cases hself : n.isSelf = true
  · have hw : lower n.last ∈ ["self", "static", "$this"] := by
      rcases Bool.or_eq_true_iff.mp hself with h | h
      · simp [(hkeyword "self" (by decide)).mp h]
      · simp [(hkeyword "static" (by decide)).mp h]
    rw [if_pos hw, if_pos hself, if_pos hself, Document.className?, hk]
    exact iff_of_true rfl trivial
  · by_cases hparent : Document.isKeyword n "parent" = true
    · have hw : lower n.last = "parent" := (hkeyword "parent" (by decide)).mp hparent
      rw [hw, if_neg (by decide), if_pos rfl, if_neg hself, if_pos hparent, if_neg hself,
        if_pos hparent, InferredType.ofClass?_inj, Document.parent_eq_parentName?_iff hk]
    · -- What is left are the words that the grammar takes for class names. None means a scalar.
      have hother : lower n.last ∉ ["self", "static", "parent", "$this"] := by
        intro hw
        simp only [List.mem_cons, List.not_mem_nil, or_false] at hw
        rcases hw with hw | hw | hw | hw
        · exact hself (Bool.or_eq_true_iff.mpr (.inl ((hkeyword "self" (by decide)).mpr hw)))
        · exact hself (Bool.or_eq_true_iff.mpr (.inr ((hkeyword "static" (by decide)).mpr hw)))
        · exact hparent ((hkeyword "parent" (by decide)).mpr hw)
        · exact not_dollar_of_isWord hn.1.last hw
      have hunknown : ∀ w ∈ builtinWords, w ∉ Grammar.typeKeywords →
          w ∉ ["self", "static", "parent", "$this"] →
            w ∉ ["self", "static", "$this"] ∧ w ≠ "parent" ∧ Scalar.ofText? w = none := by
        decide +kernel
      obtain ⟨hw, hw', hscalar⟩ := hunknown _ hmem (fun hk ↦ hn.2 ⟨hu, hk⟩) hother
      rw [if_neg hw, if_neg hw', hscalar, if_neg hself, if_neg hparent, if_neg hself,
        if_neg hparent]
      refine iff_of_false (fun h ↦ ?_) fun h ↦ h.1 ⟨hu, hb⟩
      cases h

/-- Any other class name is rendered in full, and read back without the blanks at its end. -/
theorem path (hd : ∀ s ∈ d.statements, s.Written)
    (hn : n.Written) (hb : ¬ (n.isUnqualified = true ∧ isBuiltin n.last = true)) :
    ReadsBack d k (.named n) ("\\" ++ String.ofList (dropBlanksEnd (d.qualify n).toList)) := by
  have hpath : IsPath (d.qualify n) := Document.isPath_qualify hd hn
  have hkeyword {w : String} (hw : isBuiltin w = true) : ¬ Document.isKeyword n w = true :=
    mt (Document.isBuiltin_of_isKeyword hw) hb
  have hself : ¬ n.isSelf = true := by
    rw [Name.isSelf, Bool.or_eq_true_iff]
    exact not_or.mpr ⟨hkeyword (by decide +kernel), hkeyword (by decide +kernel)⟩
  have hparent : ¬ Document.isKeyword n "parent" = true := hkeyword (by decide +kernel)
  have hname : d.resolveName? n = some (d.qualify n) := by
    rw [Document.resolveName?_eq, if_neg hself, if_neg hparent]
  have htext : d.canonicalSimpleType (.named n) = "\\" ++ d.qualify n := by
    rw [Document.canonicalSimpleType, if_neg (by simpa using hb), hname]
  have hfaithful : (SimpleType.named n).Faithful d ↔
      ∀ ch ∈ (d.qualify n).toList.getLast?, isBlank ch = false := by
    rw [SimpleType.Faithful, if_neg hself, if_neg hparent]
    exact (and_iff_right hb).trans (Option.any_eq_false ..)
  have hchars : ∀ ch ∈ (String.ofList (dropBlanksEnd (d.qualify n).toList)).toList,
      ch = '\\' ∨ isWordChar ch = true := by
    rw [String.toList_ofList]
    exact fun ch hch ↦ hpath.chars ch (mem_of_mem_dropBlanksEnd hch)
  have hlast : ∀ ch ∈ (String.ofList (dropBlanksEnd (d.qualify n).toList)).toList.getLast?,
      isBlank ch = false := by
    rw [String.toList_ofList]
    exact fun ch hch ↦ not_isBlank_of_mem_getLast? hch
  refine ⟨ClassInfo.isMember_backslash hchars hlast, ?_, ?_, ?_, ?_⟩
  · rw [htext, ClassInfo.withoutMark_backslash]
  · rw [htext, ClassInfo.withoutMark_marked_backslash]
  · have htype : d.simpleTypeOf (.named n) = .ofClass? (d.resolveName? n) := rfl
    have horigin : (ClassInfo.ofDeclaration d k).origin = d := rfl
    rw [ClassInfo.singleType_backslash _ hchars, htype, hname, InferredType.ofClass?_inj, horigin,
      hfaithful, d.resolveText?_trimmed_iff hpath]
  · intro h
    rw [htext, dropBlanksEnd_eq_self (hfaithful.mp h), String.ofList_toList]

end ReadsBack

/-- Whether a declared type survives being rendered. In a union each member has to mean
something. -/
def TypeHint.Faithful (d : Document) : TypeHint → Prop
  | .simple t => t.Faithful d
  | .nullable t _ => t.Faithful d
  | .union ts _ => ∀ t ∈ ts, t.Faithful d ∧ (d.unionMemberOf? t).isSome = true

instance {d : Document} : DecidablePred (TypeHint.Faithful d)
  | .simple t => inferInstanceAs (Decidable (t.Faithful d))
  | .nullable t _ => inferInstanceAs (Decidable (t.Faithful d))
  | .union ts _ => inferInstanceAs <| Decidable <|
    ∀ t ∈ ts, t.Faithful d ∧ (d.unionMemberOf? t).isSome = true

def TypeHint.isUnion : TypeHint → Bool
  | .union _ _ => true
  | _ => false

namespace Document

variable {d : Document} {k : DeclaredClass} {t : SimpleType}

theorem exists_readsBack (hk : d.classes.head? = some k) (hd : ∀ s ∈ d.statements, s.Written)
    (ht : t.Written) : ∃ m, ReadsBack d k t m := by
  cases t with
  | builtin i => exact ⟨_, .keyword ht⟩
  | named n =>
    by_cases hb : n.isUnqualified = true ∧ isBuiltin n.last = true
    · exact ⟨_, .word hk ht hb.1 hb.2⟩
    · exact ⟨_, .path hd ht.1 hb⟩

theorem unionMember?_canonical (hk : d.classes.head? = some k)
    (hd : ∀ s ∈ d.statements, s.Written) (ht : t.Written) (hfaithful : t.Faithful d)
    (hsome : (d.unionMemberOf? t).isSome = true) :
    IsMember (d.canonicalSimpleType t) ∧
      (ClassInfo.ofDeclaration d k).unionMember? (d.canonicalSimpleType t) =
        d.unionMemberOf? t := by
  obtain ⟨m, hm⟩ := exists_readsBack hk hd ht
  have htext := hm.kept hfaithful
  refine ⟨htext ▸ hm.member, ?_⟩
  have hmeans : (ClassInfo.ofDeclaration d k).memberType (d.canonicalSimpleType t) =
      d.simpleTypeOf t := by
    rw [ClassInfo.memberType, hm.unmarked, hm.means.mpr hfaithful]
  rw [ClassInfo.unionMember?, hmeans]
  unfold unionMemberOf? at hsome ⊢
  cases t with
  | builtin i =>
    have hword : lower (d.canonicalSimpleType (.builtin i)) = lower i.name := lower_lower _
    have hbuiltin : isBuiltin (d.canonicalSimpleType (.builtin i)) = true := by
      rw [isBuiltin, hword]
      exact List.contains_iff_mem.mpr (mem_builtinWords_of_typeKeywords _ ht)
    cases d.simpleTypeOf (.builtin i) with
    | unresolved => simp only [hbuiltin, hword, if_true]
    | _ => rfl
  | named n =>
    cases hs : d.simpleTypeOf (.named n) with
    | unresolved =>
      rw [hs] at hsome
      cases hsome
    | _ => rfl

theorem typeOfText_union (hk : d.classes.head? = some k) (hd : ∀ s ∈ d.statements, s.Written)
    {ts : List SimpleType} (hlen : 2 ≤ ts.length) (hts : ∀ t ∈ ts, t.Written)
    (hfaithful : ∀ t ∈ ts, t.Faithful d ∧ (d.unionMemberOf? t).isSome = true) :
    (ClassInfo.ofDeclaration d k).typeOfText ("|".intercalate (ts.map d.canonicalSimpleType)) =
      ofMembers (ts.filterMap d.unionMemberOf?) := by
  have hmembers (t : SimpleType) (ht : t ∈ ts) :=
    unionMember?_canonical hk hd (hts t ht) (hfaithful t ht).1 (hfaithful t ht).2
  have htexts : ∀ m ∈ ts.map d.canonicalSimpleType, IsMember m := by
    intro m hm
    obtain ⟨t, ht, rfl⟩ := List.mem_map.mp hm
    exact (hmembers t ht).1
  have hsame : (ts.map d.canonicalSimpleType).filterMap
      (ClassInfo.ofDeclaration d k).unionMember? = ts.filterMap d.unionMemberOf? := by
    rw [List.filterMap_map]
    exact List.filterMap_congr fun t ht ↦ (hmembers t ht).2
  rw [ClassInfo.typeOfText_join (by simpa using hlen) htexts, hsame]
  -- No member is dropped, so that a union is read as one.
  have hall : (ts.filterMap d.unionMemberOf?).length = ts.length :=
    List.filterMap_length_eq_length.mpr fun t ht ↦ (hfaithful t ht).2
  split
  · rename_i m hm
    rw [hm, List.length_singleton] at hall
    omega
  · rfl

theorem typeOfText_typeHint {id : Nat} {uri : String} {source : List Char} {version : Int}
    (hd : parse id uri source version = .ok d) (hk : d.classes.head? = some k)
    {cursor next : Peg.Cursor} {h : TypeHint} {failures : Peg.Failures}
    (hread : Grammar.typeHint cursor = .matched h next failures) :
    (h.Faithful d →
      (ClassInfo.ofDeclaration d k).typeOfText (d.canonicalTypeHint h) = d.typeHintType h) ∧
    (h.isUnion = false →
      (ClassInfo.ofDeclaration d k).typeOfText (d.canonicalTypeHint h) = d.typeHintType h →
        h.Faithful d) := by
  have hwritten : h.Written := Grammar.gives_typeHint _ _ _ _ hread
  have hss := written_of_parse hd
  cases h with
  | simple t =>
    obtain ⟨m, hm⟩ := exists_readsBack hk hss hwritten
    have hiff := hm.typeOfText_iff hm.unmarked
    exact ⟨hiff.mpr, fun _ ↦ hiff.mp⟩
  | nullable t span =>
    obtain ⟨m, hm⟩ := exists_readsBack hk hss hwritten
    have hiff := hm.typeOfText_iff hm.marked
    exact ⟨hiff.mpr, fun _ ↦ hiff.mp⟩
  | union ts span => exact ⟨typeOfText_union hk hss hwritten.1 hwritten.2, nofun⟩

end Document

theorem ClassInfo.singleType_inherit (c a : ClassInfo) (withPrivate : Bool) (text : String) :
    (c.inherit a withPrivate).singleType text = c.singleType text := by
  have hname : (c.inherit a withPrivate).name = c.name := rfl
  have hparent : (c.inherit a withPrivate).parent = c.parent := rfl
  have horigin : (c.inherit a withPrivate).origin = c.origin := rfl
  rw [singleType, singleType, hname, hparent, horigin]

theorem Workspace.typeOfText_flattened (w : Workspace) (cache : ClassCache) (c : ClassInfo)
    (text : String) : (w.flattened cache c).typeOfText text = c.typeOfText text := by
  refine flattened_keeps (f := fun c ↦ c.typeOfText text) (fun c a withPrivate ↦ ?_) w cache c
  have hmember : (c.inherit a withPrivate).unionMember? = c.unionMember? := by
    funext text
    simp only [ClassInfo.unionMember?, ClassInfo.memberType, ClassInfo.singleType_inherit]
  simp only [ClassInfo.typeOfText, ClassInfo.memberType, ClassInfo.singleType_inherit, hmember]

namespace Document

variable {d : Document} {k : DeclaredClass} {name : String}

/-- A type that is rendered in a document and read back in the reflected first class of it has the
meaning of the tree. Outside unions it has so for faithful types only. -/
theorem typeOfText_canonicalTypeHint {id : Nat} {uri : String} {source : List Char} {version : Int}
    (hd : parse id uri source version = .ok d) (hk : d.classes.head? = some k)
    (hname : d.locate? name = some (.ofDeclaration d k)) {cursor next : Peg.Cursor} {h : TypeHint}
    {failures : Peg.Failures} (hread : Grammar.typeHint cursor = .matched h next failures)
    (w : Workspace) (cache : ClassCache) :
    ∃ c, ((w.reflectFrom? d name).run cache).1 = some c ∧
      (h.Faithful d → c.typeOfText (d.canonicalTypeHint h) = d.typeHintType h) ∧
        (h.isUnion = false → c.typeOfText (d.canonicalTypeHint h) = d.typeHintType h →
          h.Faithful d) := by
  refine ⟨w.flattened cache (.ofDeclaration d k), ?_, ?_⟩
  · obtain ⟨later, -, hrun⟩ := Workspace.reflectFrom?_of_declared (w := w) hname cache
    rw [hrun]
  · rw [w.typeOfText_flattened]
    exact typeOfText_typeHint hd hk hread

def importing : List Char :=
  "<?php use L\\Resource;class C{function f(?D $d):Resource{}}".toList

def typeAt? (offset : Nat) : Option (Document × DeclaredClass × TypeHint) := do
  let d ← (parse 0 "typed.php" importing 0).toOption
  let k ← d.classes.head?
  let h ← (Grammar.typeHint ⟨importing.drop offset, offset⟩).value?
  return (d, k, h)

theorem exists_read_of_typeAt {offset : Nat} {h : TypeHint}
    (hat : typeAt? offset = some (d, k, h)) :
    parse 0 "typed.php" importing 0 = .ok d ∧ d.classes.head? = some k ∧
      ∃ next failures,
        Grammar.typeHint ⟨importing.drop offset, offset⟩ = .matched h next failures := by
  simp only [typeAt?, Option.bind_eq_bind, Option.bind_eq_some_iff] at hat
  obtain ⟨d', hd, k', hk, h', hread, hat⟩ := hat
  cases hat
  refine ⟨?_, hk, ?_⟩
  · cases hparse : parse 0 "typed.php" importing 0 with
    | error e => rw [hparse] at hd; cases hd
    | ok d' => rw [hparse] at hd; cases hd; rfl
  · cases houtcome : Grammar.typeHint ⟨importing.drop offset, offset⟩ with
    | failed f => rw [houtcome] at hread; cases hread
    | matched h' next failures =>
      rw [houtcome] at hread
      cases hread
      exact ⟨next, failures, rfl⟩

theorem locate?_first (hk : d.classes.head? = some k)
    (hname : Text.sameIgnoringCase k.name (withoutLeadingBackslashes name) = true) :
    d.locate? name = some (.ofDeclaration d k) := by
  obtain ⟨ks, hks⟩ := List.head?_eq_some_iff.mp hk
  simp only [locate?, hks, List.find?_cons, hname, Option.map_some]

theorem typeOfText_canonicalTypeHint_nullable :
    ∃ d k h next failures, parse 0 "typed.php" importing 0 = .ok d ∧
      d.classes.head? = some k ∧ d.locate? "C" = some (.ofDeclaration d k) ∧
      Grammar.typeHint ⟨importing.drop 40, 40⟩ = .matched h next failures ∧ h.Faithful d ∧
      d.typeHintType h = .class "D" ∧
      ∃ c, ((({} : Workspace).reflectFrom? d "C").run {}).1 = some c ∧
        c.typeOfText (d.canonicalTypeHint h) = d.typeHintType h := by
  have hfound : (typeAt? 40).map (fun (d, k, h) ↦
      (Text.sameIgnoringCase k.name "C", decide (h.Faithful d), d.typeHintType h)) =
      some (true, true, .class "D") := by decide +kernel
  obtain ⟨⟨d, k, h⟩, hat, hfound⟩ := Option.map_eq_some_iff.mp hfound
  obtain ⟨hsame, hfound⟩ := Prod.mk.inj hfound
  obtain ⟨hfaithful, htype⟩ := Prod.mk.inj hfound
  obtain ⟨hd, hk, next, failures, hread⟩ := exists_read_of_typeAt hat
  have hname : d.locate? "C" = some (.ofDeclaration d k) := locate?_first hk hsame
  have hfaithful := of_decide_eq_true hfaithful
  obtain ⟨c, hc, hmeans, _⟩ := typeOfText_canonicalTypeHint hd hk hname hread {} {}
  exact ⟨d, k, h, next, failures, hd, hk, hname, hread, hfaithful, htype, c, hc,
    hmeans hfaithful⟩

/-- A method that returns an imported class returns nothing known where the name of the class is
also a word for a scalar. -/
theorem typeOfText_canonicalTypeHint_lost :
    ∃ d k h next failures, parse 0 "typed.php" importing 0 = .ok d ∧
      d.classes.head? = some k ∧
      Grammar.typeHint ⟨importing.drop 47, 47⟩ = .matched h next failures ∧
      d.typeHintType h = .class "L\\Resource" ∧
      (ClassInfo.ofDeclaration d k).typeOfText (d.canonicalTypeHint h) = .unresolved ∧
      ((({} : Workspace).returnType d (.class "C") "f").run {}).1 = .unresolved := by
  have hfound : (typeAt? 47).map (fun (d, k, h) ↦
      (d.typeHintType h, (ClassInfo.ofDeclaration d k).typeOfText (d.canonicalTypeHint h),
        ((({} : Workspace).returnType d (.class "C") "f").run {}).1)) =
      some (.class "L\\Resource", .unresolved, .unresolved) := by decide +kernel
  obtain ⟨⟨d, k, h⟩, hat, hfound⟩ := Option.map_eq_some_iff.mp hfound
  obtain ⟨htype, hfound⟩ := Prod.mk.inj hfound
  obtain ⟨htext, hreturn⟩ := Prod.mk.inj hfound
  obtain ⟨hd, hk, next, failures, hread⟩ := exists_read_of_typeAt hat
  exact ⟨d, k, h, next, failures, hd, hk, hread, htype, htext, hreturn⟩

end Document

end PhpInsight

import Mathlib.Data.List.Induction
import PhpInsight.Proofs.Types.Declared
import PhpInsight.Proofs.Types.Members

namespace PhpInsight

open Text TypeText InferredType

namespace ClassInfo

variable (c : ClassInfo) {text t : String}

theorem piecesFrom_withoutMark (h : piecesFrom 0 t.toList = [t.toList]) :
    piecesFrom 0 (withoutMark t).toList = [(withoutMark t).toList] := by
  have htrim := piecesFrom_trimChars h
  unfold withoutMark
  split
  case h_1 rest hrest =>
    rw [hrest] at htrim
    rw [String.toList_ofList]
    exact (piecesFrom_cons_eq_singleton_iff.mp htrim).2
  case h_2 =>
    rw [String.toList_ofList]
    exact htrim

theorem typeOfText_of_mem_splitUnion (h : t ∈ splitUnion text) :
    c.typeOfText t = c.memberType t := by
  have hle := length_splitUnion_le (piecesFrom_withoutMark (piecesFrom_of_mem_splitUnion h))
  rw [typeOfText, if_pos hle]
  rfl

end ClassInfo

namespace Text

theorem isBlank_toLower (c : Char) : isBlank c.toLower = isBlank c := by
  have hbounds : 'A'.val.toNat = 65 ∧ 'Z'.val.toNat = 90 := ⟨rfl, rfl⟩
  have hranges : ∀ r ∈ blankRanges, r.2 < 65 ∨ 122 < r.1 := by decide
  have hletter (n : Nat) (h : 65 ≤ n ∧ n ≤ 122) :
      (blankRanges.any fun r ↦ r.1 ≤ n && n ≤ r.2) = false := by
    rw [List.any_eq_false]
    intro r hr
    have hout := hranges r hr
    simp only [Bool.and_eq_true, decide_eq_true_eq]
    omega
  unfold Char.toLower
  split
  case isTrue hrange =>
    have hlo := UInt32.le_iff_toNat_le.mp hrange.1
    have hhi := UInt32.le_iff_toNat_le.mp hrange.2
    have hadd : (c.val + ('a'.val - 'A'.val)).toNat = c.val.toNat + 32 := by
      rw [UInt32.toNat_add, show ('a'.val - 'A'.val).toNat = 32 from rfl]
      omega
    rw [isBlank, isBlank, hletter c.toNat (by simp only [Char.toNat]; omega)]
    exact hletter _ (by simp only [Char.toNat, hadd]; omega)
  case isFalse => rfl

theorem Tight.of_lower {s : String} (h : Tight (lower s).toList) : Tight s.toList := by
  have hlower : (lower s).toList = s.toList.map Char.toLower := String.toList_ofList
  rw [hlower] at h
  refine ⟨fun hnil ↦ h.ne_nil (by rw [hnil]; rfl), fun c hc ↦ ?_, fun c hc ↦ ?_⟩
  · obtain ⟨hblank, hmark⟩ := h.first c.toLower (by rw [List.head?_map, hc]; rfl)
    refine ⟨isBlank_toLower c ▸ hblank, ?_⟩
    rintro rfl
    exact hmark (by decide)
  · exact isBlank_toLower c ▸ h.last c.toLower (by rw [List.getLast?_map, hc]; rfl)

end Text

namespace ClassInfo

variable (c : ClassInfo) {t : String}

theorem memberType_of_tight (h : Tight t.toList) : c.memberType t = c.singleType t := by
  rw [memberType, withoutMark_tight h]

theorem memberType_lower (h : isBuiltin t = true) : c.memberType (lower t) = c.memberType t := by
  have hmem : lower t ∈ builtinWords := List.contains_iff_mem.mp h
  have htight := (ReadsBack.isMember_builtin hmem).tight
  have hempty : (lower t).isEmpty = t.isEmpty := by
    have hlower : lower t ≠ "" := fun h ↦ htight.ne_nil (by rw [h]; rfl)
    have ht : t ≠ "" := fun h ↦ htight.of_lower.ne_nil (by rw [h]; rfl)
    rw [Bool.eq_iff_iff, String.isEmpty_iff, String.isEmpty_iff]
    exact iff_of_false hlower ht
  have hbuiltin : isBuiltin (lower t) = true := by rw [isBuiltin, lower_lower]; exact h
  rw [memberType_of_tight c htight, memberType_of_tight c htight.of_lower]
  simp only [singleType, lower_lower, hempty, hbuiltin, Bool.true_or, if_true]

theorem memberType_display (s : Scalar) : c.memberType s.display = .scalar s := by
  have hword : s.display ∈ builtinWords ∧ s.display ∉ ["self", "static", "$this"] ∧
      s.display ≠ "parent" := by cases s <;> decide +kernel
  obtain ⟨hmem, hself, hparent⟩ := hword
  rw [memberType_of_tight c (ReadsBack.isMember_builtin hmem).tight, singleType_builtin c hmem,
    if_neg hself, if_neg hparent, Scalar.ofText?_display]

theorem singleType_ne_union (ms : List String) : c.singleType t ≠ .union ms := by
  have hclass (name : Option String) : ofClass? name ≠ .union ms := by cases name <;> nofun
  unfold singleType
  dsimp only
  split
  · nofun
  · split
    · nofun
    · split
      · exact hclass _
      · split
        · nofun
        · split
          · nofun
          · split
            · nofun
            · exact hclass _

end ClassInfo

namespace InferredType

theorem distinct_eq_eraseDups (ms : List String) : distinct ms = ms.eraseDups := by
  induction ms using List.reverseRecOn with
  | nil => rfl
  | append_singleton ms m ih =>
    have hfold : distinct (ms ++ [m]) =
        if (distinct ms).contains m then distinct ms else distinct ms ++ [m] := by
      rw [distinct, List.foldl_append]
      rfl
    rw [hfold, ih, List.eraseDups_append]
    by_cases hm : m ∈ ms
    · simp [hm, List.removeAll]
    · simp [hm, List.removeAll, List.eraseDups_cons]

/-- What a member adds to a union, from its type alone and the builtin word that it may be. -/
def rendering? (type : InferredType) (word? : Option String) : Option String :=
  if type.isResolved then some type.display else word?

def renderings {α : Type} (members : List α) (alone : α → InferredType)
    (word? : α → Option String) : List String :=
  members.filterMap fun t ↦ rendering? (alone t) (word? t)

/-- Whether a type is what its rendering is taken for: a scalar, or a class of that name. -/
def Worded : InferredType → Prop
  | .scalar _ => True
  | .class name => Scalar.ofText? name = none
  | _ => False

variable {type : InferredType} {word? : Option String} {ms : List String} {m : String}

theorem ofMembers_eq_iff (hms : ms.eraseDups = [m]) (hm : rendering? type word? = some m) :
    ofMembers ms = type ↔ type.Worded := by
  rw [ofMembers, distinct_eq_eraseDups, hms]
  dsimp only
  cases type with
  | «class» name =>
    obtain rfl : name = m := Option.some.inj hm
    cases hscalar : Scalar.ofText? name <;> simp [Worded, hscalar]
  | scalar s =>
    obtain rfl : s.display = m := Option.some.inj hm
    simp [Worded, Scalar.ofText?_display]
  | _ => cases Scalar.ofText? m <;> simp [Worded]

end InferredType

/-- A union of some members means what they mean alone: nothing if none of them means anything,
the one that is left if it is told again from its rendering, and all that are left otherwise. -/
structure Joined {α : Type} (members : List α) (alone : α → InferredType)
    (word? : α → Option String) (Again : α → Prop) (type : InferredType) : Prop where
  none : renderings members alone word? = [] → type = .unresolved
  one {m : String} : (renderings members alone word?).eraseDups = [m] →
    ∀ t ∈ members, rendering? (alone t) (word? t) = some m → (type = alone t ↔ Again t)
  many {m m' : String} {ms : List String} :
    (renderings members alone word?).eraseDups = m :: m' :: ms → type = .union (m :: m' :: ms)

namespace Joined

variable {α : Type} {members : List α} {alone : α → InferredType} {word? : α → Option String}
  {Again : α → Prop} {type : InferredType}

theorem exists_class (h : Joined members alone word? Again type) {name : String}
    (htype : type = .class name) :
    ∃ t ∈ members, (rendering? (alone t) (word? t)).isSome = true ∧
      (Again t → alone t = .class name) := by
  cases hms : (renderings members alone word?).eraseDups with
  | nil =>
    have hnil : renderings members alone word? = [] := by
      rw [List.eq_nil_iff_forall_not_mem]
      intro m hm
      have hmem := List.mem_eraseDups.mpr hm
      rw [hms] at hmem
      cases hmem
    rw [h.none hnil] at htype
    cases htype
  | cons m ms =>
    cases ms with
    | nil =>
      have hm : m ∈ renderings members alone word? := by
        rw [← List.mem_eraseDups, hms]
        exact List.mem_singleton_self m
      obtain ⟨t, ht, hrender⟩ := List.mem_filterMap.mp hm
      have hone := h.one hms t ht hrender
      exact ⟨t, ht, Option.isSome_of_eq_some hrender, fun hagain ↦ hone.mpr hagain ▸ htype⟩
    | cons m' ms =>
      rw [h.many hms] at htype
      cases htype

end Joined

namespace ClassInfo

variable (c : ClassInfo) {text t m : String}

def Rereads : InferredType → Prop
  | .class name => c.memberType name = .class name
  | _ => True

def word? (t : String) : Option String := if isBuiltin t then some (lower t) else none

theorem unionMember?_eq (t : String) :
    c.unionMember? t = rendering? (c.memberType t) (word? t) := by
  rw [unionMember?]
  cases c.memberType t <;> rfl

theorem memberType_rendering_iff (hm : rendering? (c.memberType t) (word? t) = some m) :
    c.memberType m = c.memberType t ↔ c.Rereads (c.memberType t) := by
  cases htype : c.memberType t with
  | «class» name =>
    rw [htype] at hm
    obtain rfl : name = m := Option.some.inj hm
    exact Iff.rfl
  | scalar s =>
    rw [htype] at hm
    obtain rfl : s.display = m := Option.some.inj hm
    exact iff_of_true (c.memberType_display s) trivial
  | union ms => exact absurd htype (c.singleType_ne_union ms)
  | unresolved =>
    rw [htype] at hm
    have hword : word? t = some m := hm
    obtain ⟨hbuiltin, hlower⟩ := Option.ite_none_right_eq_some.mp hword
    obtain rfl := Option.some.inj hlower
    rw [c.memberType_lower hbuiltin, htype]
    exact iff_of_true rfl trivial

theorem typeOfText_of_eq_singleton (h : 2 ≤ (splitUnion (withoutMark text)).length)
    (hms : (splitUnion (withoutMark text)).filterMap c.unionMember? = [m]) :
    c.typeOfText text = c.memberType m := by
  simp only [typeOfText, hms]
  exact if_neg (by omega)

theorem typeOfText_of_ne_singleton (h : 2 ≤ (splitUnion (withoutMark text)).length)
    (hms : ∀ m, (splitUnion (withoutMark text)).filterMap c.unionMember? ≠ [m]) :
    c.typeOfText text = ofMembers ((splitUnion (withoutMark text)).filterMap c.unionMember?) := by
  have hnot : ¬(splitUnion (withoutMark text)).length ≤ 1 := by omega
  rw [typeOfText, if_neg hnot]
  split
  case h_1 m hm => exact absurd hm (hms m)
  case h_2 => rfl

/-- Whether a member that is left of some is told again from its rendering. One that is left once
is read as a text, one that is repeated is not. -/
def ReadAgain (members : List String) (t : String) : Prop :=
  if (renderings members c.typeOfText word?).length = 1 then c.Rereads (c.typeOfText t)
  else (c.typeOfText t).Worded

theorem joined_typeOfText (h : 2 ≤ (splitUnion (withoutMark text)).length) :
    Joined (splitUnion (withoutMark text)) c.typeOfText word?
      (c.ReadAgain (splitUnion (withoutMark text))) (c.typeOfText text) := by
  have hmembers : (splitUnion (withoutMark text)).filterMap c.unionMember? =
      renderings (splitUnion (withoutMark text)) c.typeOfText word? := by
    refine List.filterMap_congr fun t ht ↦ ?_
    rw [unionMember?_eq, c.typeOfText_of_mem_splitUnion ht]
  have hother := c.typeOfText_of_ne_singleton h
  rw [hmembers] at hother
  constructor
  · intro hnone
    rw [hother (by simp [hnone]), hnone]
    rfl
  · intro m hone t ht hm
    rw [ReadAgain]
    by_cases honce : (renderings (splitUnion (withoutMark text)) c.typeOfText word?).length = 1
    · obtain ⟨m', hm'⟩ := List.length_eq_one_iff.mp honce
      obtain rfl : m' = m := by simpa [hm', List.eraseDups_cons] using hone
      rw [c.typeOfText_of_mem_splitUnion ht] at hm ⊢
      rw [if_pos honce, c.typeOfText_of_eq_singleton h (hmembers.trans hm')]
      exact c.memberType_rendering_iff hm
    · rw [if_neg honce, hother fun m' hm' ↦ honce (by rw [hm']; rfl)]
      exact ofMembers_eq_iff hone hm
  · intro m m' ms hmany
    rw [hother ?_, ofMembers, distinct_eq_eraseDups, hmany]
    intro m'' hm''
    simp [hm'', List.eraseDups_cons] at hmany

/-- A full name beside a text that means nothing is read again without its backslash. -/
theorem typeOfText_backslash_bar {q g : String} (hq : IsPath q)
    (hlast : ∀ ch ∈ q.toList.getLast?, isBlank ch = false) (hg : splitUnion g = [g])
    (hnone : c.typeOfText g = .unresolved) (hword : isBuiltin g = false) :
    c.typeOfText ("\\" ++ q) = .class q ∧
      (c.typeOfText ("\\" ++ q ++ "|" ++ g) = .class q ↔ c.memberType q = .class q) := by
  have hmember : IsMember ("\\" ++ q) := isMember_backslash hq.chars hlast
  have hfull : c.typeOfText ("\\" ++ q) = .class q := by
    have hunmarked := withoutMark_tight hmember.tight
    rw [typeOfText_member (hunmarked.symm ▸ hmember), hunmarked,
      c.singleType_backslash hq.chars, c.origin.resolveText?_path hq hlast]
    rfl
  refine ⟨hfull, ?_⟩
  have htext : withoutMark ("\\" ++ q ++ "|" ++ g) = "\\" ++ q ++ "|" ++ g := by
    have hmem : g ∈ splitUnion g := by rw [hg]; exact List.mem_singleton_self g
    have htight : Tight (("\\" ++ q).toList ++ '|' :: g.toList) :=
      hmember.tight.append (by decide) (not_isBlank_of_mem_splitUnion hmem)
    refine withoutMark_tight ?_
    simpa using htight
  have hsplit : splitUnion (withoutMark ("\\" ++ q ++ "|" ++ g)) = ["\\" ++ q, g] := by
    rw [htext, splitUnion_member_bar hmember, hg]
  have hlength : 2 ≤ (splitUnion (withoutMark ("\\" ++ q ++ "|" ++ g))).length := by
    rw [hsplit]
    exact Nat.le_refl 2
  have hjoined := c.joined_typeOfText hlength
  have hrenderings : renderings ["\\" ++ q, g] c.typeOfText word? = [q] := by
    simp [renderings, rendering?, hfull, hnone, word?, hword, isResolved, display]
  rw [hsplit] at hjoined
  have hone := hjoined.one (m := q) (by rw [hrenderings]; simp [List.eraseDups_cons])
    ("\\" ++ q) List.mem_cons_self (by rw [hfull]; rfl)
  rw [ReadAgain, hrenderings, if_pos List.length_singleton, hfull] at hone
  exact hone

end ClassInfo

def SimpleType.word? : SimpleType → Option String
  | .builtin keyword => some (lower keyword.name)
  | .named _ => none

namespace Document

variable (d : Document)

theorem unionMemberOf?_eq (t : SimpleType) :
    d.unionMemberOf? t = rendering? (d.simpleTypeOf t) t.word? := by
  unfold unionMemberOf?
  cases t with
  | builtin keyword => cases d.simpleTypeOf (.builtin keyword) <;> rfl
  | named n => cases d.simpleTypeOf (.named n) <;> rfl

theorem joined_typeHintType (ts : List SimpleType) (span : Span) :
    Joined ts (fun t ↦ d.typeHintType (.simple t)) SimpleType.word?
      (fun t ↦ (d.typeHintType (.simple t)).Worded) (d.typeHintType (.union ts span)) := by
  have hmembers : ts.filterMap d.unionMemberOf? =
      renderings ts (fun t ↦ d.typeHintType (.simple t)) SimpleType.word? :=
    List.filterMap_congr fun t _ ↦ d.unionMemberOf?_eq t
  have htype : d.typeHintType (.union ts span) =
      ofMembers (renderings ts (fun t ↦ d.typeHintType (.simple t)) SimpleType.word?) := by
    rw [typeHintType, hmembers]
  constructor
  · intro hnone
    rw [htype, hnone]
    rfl
  · intro m hone t _ hm
    rw [htype]
    exact ofMembers_eq_iff hone hm
  · intro m m' ms hmany
    rw [htype, ofMembers, distinct_eq_eraseDups, hmany]

end Document

/-- Unions of texts and of declared types join what their members mean alone. A class that they mean
is that of a member, unless it comes from a rendering that is not read again as what it was. -/
theorem unions_joined (d : Document) (c : ClassInfo) :
    (∀ text, 2 ≤ (splitUnion (ClassInfo.withoutMark text)).length →
      Joined (splitUnion (ClassInfo.withoutMark text)) c.typeOfText ClassInfo.word?
          (c.ReadAgain (splitUnion (ClassInfo.withoutMark text))) (c.typeOfText text) ∧
        ∀ name, c.typeOfText text = .class name →
          ∃ t ∈ splitUnion (ClassInfo.withoutMark text),
            (rendering? (c.typeOfText t) (ClassInfo.word? t)).isSome = true ∧
              (c.ReadAgain (splitUnion (ClassInfo.withoutMark text)) t →
                c.typeOfText t = .class name)) ∧
    (∀ ts span,
      Joined ts (fun t ↦ d.typeHintType (.simple t)) SimpleType.word?
          (fun t ↦ (d.typeHintType (.simple t)).Worded) (d.typeHintType (.union ts span)) ∧
        ∀ name, d.typeHintType (.union ts span) = .class name →
          ∃ t ∈ ts, (rendering? (d.typeHintType (.simple t)) t.word?).isSome = true ∧
            ((d.typeHintType (.simple t)).Worded → d.typeHintType (.simple t) = .class name)) ∧
    ∀ q g, IsPath q → (∀ ch ∈ q.toList.getLast?, isBlank ch = false) → splitUnion g = [g] →
      c.typeOfText g = .unresolved → isBuiltin g = false →
        c.typeOfText ("\\" ++ q) = .class q ∧
          (c.typeOfText ("\\" ++ q ++ "|" ++ g) = .class q ↔ c.memberType q = .class q) := by
  refine ⟨fun text h ↦ ?_, fun ts span ↦ ?_, fun q g hq hlast hg hnone hword ↦ ?_⟩
  · have hjoined := c.joined_typeOfText h
    exact ⟨hjoined, fun _ ↦ hjoined.exists_class⟩
  · have hjoined := d.joined_typeHintType ts span
    exact ⟨hjoined, fun _ ↦ hjoined.exists_class⟩
  · exact c.typeOfText_backslash_bar hq hlast hg hnone hword

def reading? (source : String) : Option (Document × ClassInfo) := do
  let d ← (Document.parse 0 "read.php" source.toList 0).toOption
  let k ← d.classes.head?
  return (d, .ofDeclaration d k)

theorem unions_joined_generic :
    ∃ d c, reading? "<?php class C\x7b\x7d" = some (d, c) ∧
      2 ≤ (splitUnion (ClassInfo.withoutMark "\\X|Foo<int>")).length ∧
      c.typeOfText "\\X|Foo<int>" = c.typeOfText "\\X" ∧
      IsPath "X" ∧ splitUnion "Foo<int>" = ["Foo<int>"] ∧ isBuiltin "Foo<int>" = false ∧
      c.typeOfText "Foo<int>" = .unresolved ∧ c.typeOfText "\\X|Foo<int>" = .class "X" := by
  have hfound : (reading? "<?php class C\x7b\x7d").map (fun (_, c) ↦
      (renderings ["\\X", "Foo<int>"] c.typeOfText ClassInfo.word?, c.typeOfText "\\X",
        c.typeOfText "Foo<int>", c.memberType "X")) =
      some (["X"], .class "X", .unresolved, .class "X") := by decide +kernel
  obtain ⟨⟨d, c⟩, hread, hfound⟩ := Option.map_eq_some_iff.mp hfound
  obtain ⟨hrenderings, hfound⟩ := Prod.mk.inj hfound
  obtain ⟨hfull, hfound⟩ := Prod.mk.inj hfound
  obtain ⟨hgeneric, hagain⟩ := Prod.mk.inj hfound
  have hsplit : splitUnion (ClassInfo.withoutMark "\\X|Foo<int>") = ["\\X", "Foo<int>"] := by
    decide +kernel
  have htwo : 2 ≤ (splitUnion (ClassInfo.withoutMark "\\X|Foo<int>")).length := by
    rw [hsplit]
    exact Nat.le_refl 2
  have hname : IsWord "X" := by
    refine ⟨by decide, fun ch hch ↦ ?_⟩
    obtain rfl : ch = 'X' := by simpa using hch
    decide
  have hpath : IsPath "X" := ⟨["X"], by simp, by simpa using hname, rfl⟩
  have hlast : ∀ ch ∈ "X".toList.getLast?, isBlank ch = false := by
    rintro _ ⟨⟩
    decide
  have hone : splitUnion "Foo<int>" = ["Foo<int>"] := by decide +kernel
  have hword : isBuiltin "Foo<int>" = false := by decide +kernel
  have hjoined := ((unions_joined d c).1 "\\X|Foo<int>" htwo).1
  rw [hsplit] at hjoined
  refine ⟨d, c, hread, htwo, ?_, hpath, hone, hword, hgeneric, ?_⟩
  · refine (hjoined.one (m := "X") (by rw [hrenderings]; rfl) "\\X" (by simp)
      (by rw [hfull]; rfl)).mpr ?_
    rw [ClassInfo.ReadAgain, hrenderings, if_pos List.length_singleton, hfull]
    exact hagain
  · have hfull := (unions_joined d c).2.2 "X" "Foo<int>" hpath hlast hone hgeneric hword
    exact hfull.2.mpr hagain

/-- In a namespace the class behind a backslash is lost, and a repeated word becomes a class. -/
theorem unions_joined_renamed :
    ∃ d c, reading? ("<?php namespace App;class C\x7b/** @return \\X|Foo<int> */" ++
        "function f()\x7b\x7d\x7d") = some (d, c) ∧
      c.typeOfText "\\X" = .class "X" ∧ c.typeOfText "Foo<int>" = .unresolved ∧
      isBuiltin "Foo<int>" = false ∧ c.typeOfText "\\X|Foo<int>" = .class "App\\X" ∧
      ((({} : Workspace).returnType d (.class "App\\C") "f").run {}).1 = .class "App\\X" ∧
      c.typeOfText "null" = .unresolved ∧ c.typeOfText "null|null" = .class "null" := by
  have hfound : (reading? ("<?php namespace App;class C\x7b/** @return \\X|Foo<int> */" ++
        "function f()\x7b\x7d\x7d")).map (fun (d, c) ↦
      (c.typeOfText "\\X", c.typeOfText "Foo<int>", c.typeOfText "\\X|Foo<int>",
        ((({} : Workspace).returnType d (.class "App\\C") "f").run {}).1, c.typeOfText "null",
        c.typeOfText "null|null")) =
      some (.class "X", .unresolved, .class "App\\X", .class "App\\X", .unresolved,
        .class "null") := by decide +kernel
  obtain ⟨⟨d, c⟩, hread, hfound⟩ := Option.map_eq_some_iff.mp hfound
  simp only [Prod.mk.injEq] at hfound
  obtain ⟨hfull, hgeneric, hlost, hmethod, hnull, htwice⟩ := hfound
  exact ⟨d, c, hread, hfull, hgeneric, by decide +kernel, hlost, hmethod, hnull, htwice⟩

end PhpInsight

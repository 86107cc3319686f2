import Mathlib.Data.List.Basic
import PhpInsight.ClassInfo.CanonicalType
import PhpInsight.DocBlock
import PhpInsight.Proofs.Span.Family
import PhpInsight.Proofs.Types.Declared
import PhpInsight.Proofs.Types.Members

namespace PhpInsight

open Text TypeText

namespace Document

variable {d : Document} {marks body : List Char} {x : String}

/-- What a type without question marks becomes. -/
def bareDocType (d : Document) (type : String) : String :=
  if isBuiltin type then lower type
  else if isShape type.toList then type
  else match d.resolveText? type with
    | some name => "\\" ++ name
    | none => type

inductive Becomes (d : Document) (x : String) : String → Prop
  | word (h : isBuiltin x = true) : Becomes d x (lower x)
  | shape (hbuiltin : isBuiltin x = false) (h : isShape x.toList = true) : Becomes d x x
  | «class» {q : String} (hbuiltin : isBuiltin x = false) (hshape : isShape x.toList = false)
    (h : d.resolveText? x = some q) : Becomes d x ("\\" ++ q)
  | unknown (hbuiltin : isBuiltin x = false) (hshape : isShape x.toList = false)
    (h : d.resolveText? x = none) : Becomes d x x

theorem becomes_bareDocType (d : Document) (x : String) : Becomes d x (d.bareDocType x) := by
  fun_cases bareDocType d x with
  | case1 hbuiltin => exact .word hbuiltin
  | case2 hbuiltin hshape => exact .shape (by simpa using hbuiltin) hshape
  | case3 hbuiltin hshape q hq => exact .class (by simpa using hbuiltin) (by simpa using hshape) hq
  | case4 hbuiltin hshape hq => exact .unknown (by simpa using hbuiltin) (by simpa using hshape) hq

structure Marked (marks body : List Char) : Prop where
  marks : ∀ c ∈ marks, c = '?'
  first : ∀ c ∈ body.head?, isBlank c = false ∧ c ≠ '?'

theorem exists_marked {cs : List Char} (h : blanksBehindBracket cs = true) :
    ∃ marks body, cs = marks ++ body ∧ Marked marks body := by
  induction cs with
  | nil => exact ⟨[], [], rfl, nofun, nofun⟩
  | cons c cs ih =>
    by_cases hc : c = '?'
    · subst hc
      obtain ⟨marks, body, rfl, hmarked⟩ := ih ((blanksBehindBracket_cons.mp h).resolve_left
        (by decide)).2
      exact ⟨'?' :: marks, body, rfl, by simpa using hmarked.marks, hmarked.first⟩
    · have hblank : isBlank c = false :=
        (blanksBehindBracket_cons.mp h).elim not_isBlank_of_isOpeningBracket And.left
      refine ⟨[], c :: cs, rfl, nofun, ?_⟩
      rintro _ ⟨⟩
      exact ⟨hblank, hc⟩

theorem leadingMarks_append (h : Marked marks body) :
    leadingMarks (marks ++ body) = (marks, body) := by
  obtain ⟨hmarks, hfirst⟩ := h
  induction marks with
  | nil =>
    cases body with
    | nil => rfl
    | cons c cs =>
      obtain ⟨hblank, hmark⟩ := hfirst c rfl
      simp [leadingMarks, hblank, hmark]
  | cons c marks ih =>
    obtain ⟨rfl, hrest⟩ := List.forall_mem_cons.mp hmarks
    simp [leadingMarks, ih hrest]

theorem dropBlanksEnd_marked (h : ∀ c ∈ marks, c = '?') :
    dropBlanksEnd (marks ++ body) = marks ++ dropBlanksEnd body := by
  induction marks with
  | nil => rfl
  | cons c marks ih =>
    obtain ⟨rfl, hrest⟩ := List.forall_mem_cons.mp h
    rw [List.cons_append, dropBlanksEnd_cons (by decide), ih hrest, List.cons_append]

theorem Marked.head (h : Marked marks body) : ∀ c ∈ (marks ++ body).head?, isBlank c = false := by
  cases marks with
  | nil => exact fun c hc ↦ (h.first c hc).1
  | cons c marks =>
    rintro _ ⟨⟩
    rw [h.marks c List.mem_cons_self]
    decide

theorem Marked.trimChars (h : Marked marks body) :
    trimChars (marks ++ body) = marks ++ dropBlanksEnd body := by
  have hkeep : dropBlanks (marks ++ body) = marks ++ body := by
    cases hcs : marks ++ body with
    | nil => rfl
    | cons c cs =>
      rw [dropBlanks, List.dropWhile_cons_of_neg (by simp [h.head c (by rw [hcs]; rfl)])]
  rw [Text.trimChars, hkeep, dropBlanksEnd_marked h.marks]

theorem Marked.dropBlanksEnd (h : Marked marks body) : Marked marks (dropBlanksEnd body) where
  marks := h.marks
  first := by
    cases body with
    | nil => exact nofun
    | cons c cs =>
      rw [dropBlanksEnd_cons (h.first c rfl).1]
      exact h.first

theorem Marked.tight (h : Marked marks body) (hne : Text.dropBlanksEnd body ≠ []) :
    Tight (Text.dropBlanksEnd body) :=
  ⟨hne, h.dropBlanksEnd.first, fun _ hc ↦ not_isBlank_of_mem_getLast? hc⟩

theorem canonicalDocType_eq (d : Document) (text : String) :
    d.canonicalDocType text =
      String.ofList (leadingMarks (Text.trimChars text.toList)).1 ++
        d.bareDocType (String.ofList (leadingMarks (Text.trimChars text.toList)).2) := by
  unfold canonicalDocType
  generalize leadingMarks (Text.trimChars text.toList) = parts
  rfl

theorem canonicalDocType_marked (h : Marked marks body) (d : Document) :
    d.canonicalDocType (String.ofList (marks ++ body)) =
      String.ofList marks ++ d.bareDocType (String.ofList (dropBlanksEnd body)) := by
  rw [canonicalDocType_eq, String.toList_ofList, h.trimChars,
    leadingMarks_append h.dropBlanksEnd]

theorem isShape_eq_false {cs : List Char} :
    isShape cs = false ↔ ∀ c ∈ cs, c ∉ ['<', '[', '(', '\x7b', '$', ' '] := by
  simp only [isShape, List.any_eq_false, List.contains_iff_mem]

theorem eq_of_isOpeningBracket {c : Char} (h : isOpeningBracket c = true) :
    c = '<' ∨ c = '(' ∨ c = '\x7b' ∨ c = '[' := by
  simpa [isOpeningBracket, or_assoc] using h

theorem isShape_of_bracket {cs : List Char} {c : Char} (hc : c ∈ cs)
    (hopen : isOpeningBracket c = true) : isShape cs = true := by
  refine List.any_eq_true.mpr ⟨c, hc, ?_⟩
  obtain rfl | rfl | rfl | rfl := eq_of_isOpeningBracket hopen <;> decide

theorem lower_mem_builtinWords (h : isBuiltin x = true) : lower x ∈ builtinWords :=
  List.contains_iff_mem.mp h

theorem isBuiltin_of_bracket {c : Char} (hc : c ∈ x.toList) (hopen : isOpeningBracket c = true) :
    isBuiltin x = false := by
  rw [← Bool.not_eq_true]
  intro hbuiltin
  have hlower : c.toLower = c := by
    obtain rfl | rfl | rfl | rfl := eq_of_isOpeningBracket hopen <;> decide
  have hmem : c ∈ (lower x).toList := by
    rw [lower, String.toList_ofList, lowerChars, ← hlower]
    exact List.mem_map_of_mem hc
  have hplain := (ReadsBack.isMember_builtin (lower_mem_builtinWords hbuiltin)).plain c hmem
  rw [hopen] at hplain
  cases hplain.2.1

theorem bareDocType_of_bracket {c : Char} (hc : c ∈ x.toList) (hopen : isOpeningBracket c = true) :
    d.bareDocType x = x := by
  rw [bareDocType, isBuiltin_of_bracket hc hopen, isShape_of_bracket hc hopen]
  rfl

theorem bareDocType_ofList_nil (d : Document) : d.bareDocType (String.ofList []) = "" := rfl

theorem chars_resolveText? {id : Nat} {uri : String} {source : List Char} {version : Int}
    (hd : parse id uri source version = .ok d) {q : String} (hq : d.resolveText? x = some q) :
    ∀ c ∈ q.toList, c = '\\' ∨ isWordChar c = true ∨ c ∈ x.toList :=
  IsPathOf.chars (isPathOf_resolveText? hd hq) fun _ hw c hc ↦
    (hw.2 c hc).imp_right fun hmem ↦ (trimChars_sublist _).subset hmem

theorem isShape_resolveText? {id : Nat} {uri : String} {source : List Char} {version : Int}
    (hd : parse id uri source version = .ok d) (hshape : isShape x.toList = false) {q : String}
    (hq : d.resolveText? x = some q) : isShape q.toList = false := by
  rw [isShape_eq_false]
  intro c hc hmem
  rcases chars_resolveText? hd hq c hc with rfl | hword | hold
  · revert hmem
    decide
  · have hsign : isWordChar c = false := by
      simp only [List.mem_cons, List.not_mem_nil, or_false] at hmem
      obtain rfl | rfl | rfl | rfl | rfl | rfl := hmem <;> exact not_isWordChar _ (by simp)
    rw [hword] at hsign
    cases hsign
  · exact isShape_eq_false.mp hshape c hold hmem

theorem resolveText?_eq_none (hx : Tight x.toList) (hend : x.toList.getLast? ≠ some '\\')
    (hbuiltin : isBuiltin x = false) (h : d.resolveText? x = none) (d' : Document) :
    d'.resolveText? x = none := by
  have hparse : Name.parse? x default = none := by
    rw [Option.eq_none_iff_forall_ne_some]
    intro n hn
    -- A name that means no class is a keyword, and so the text would be a builtin word.
    rw [resolveText?, hn, Option.bind_some] at h
    cases hkeyword : isClassKeyword n with
    | false =>
      rw [resolveName?_of_not_keyword hkeyword] at h
      cases h
    | true =>
      obtain ⟨hunqualified, hword⟩ := isBuiltin_of_isClassKeyword hkeyword
      rw [Name.last_of_isUnqualified hx.trimmed hend hn hunqualified, hbuiltin] at hword
      cases hword
  rw [resolveText?, hparse, Option.bind_none]

theorem bareDocType_backslash {q : String} (hq : isShape q.toList = false) (d : Document) :
    d.bareDocType ("\\" ++ q) =
      ((d.resolveText? ("\\" ++ q)).map ("\\" ++ ·)).getD ("\\" ++ q) := by
  have htext : ("\\" ++ q).toList = '\\' :: q.toList := by simp
  have hbuiltin : isBuiltin ("\\" ++ q) = false := by
    refine ClassInfo.not_mem_of_backslash ?_ (by decide)
    simp [lower, lowerChars]
  have hshape : isShape ("\\" ++ q).toList = false := by
    rw [isShape_eq_false, htext, List.forall_mem_cons]
    exact ⟨by decide, isShape_eq_false.mp hq⟩
  rw [bareDocType, hbuiltin, hshape]
  cases d.resolveText? ("\\" ++ q) <;> rfl

/-- A class behind a backslash is taken for itself exactly if no blank ends it. -/
theorem bareDocType_class_iff {q : String} (hq : IsSegmented q) (hshape : isShape q.toList = false)
    (d : Document) :
    d.bareDocType (String.ofList (dropBlanksEnd ("\\" ++ q).toList)) = "\\" ++ q ↔
      ∀ c ∈ ("\\" ++ q).toList.getLast?, isBlank c = false := by
  have htext : ("\\" ++ q).toList = '\\' :: q.toList := by simp
  have hlast : (∀ c ∈ ('\\' :: q.toList).getLast?, isBlank c = false) ↔
      ∀ c ∈ q.toList.getLast?, isBlank c = false := by
    cases q.toList with
    | nil => simp [(by decide : isBlank '\\' = false)]
    | cons c cs => rw [List.getLast?_cons_cons]
  have hshape' : isShape (String.ofList (dropBlanksEnd q.toList)).toList = false := by
    rw [isShape_eq_false, String.toList_ofList]
    exact fun c hc ↦ isShape_eq_false.mp hshape c (mem_of_mem_dropBlanksEnd hc)
  rw [htext, dropBlanksEnd_cons (by decide), ClassInfo.ofList_backslash,
    bareDocType_backslash hshape', resolveText?_dropBlanksEnd, hlast,
    ← d.resolveText?_segmented_iff hq]
  cases hread : d.resolveText? ("\\" ++ q) with
  | some name => simp
  | none =>
    -- Without blanks at its end the class would be read back.
    refine iff_of_false (fun hsame ↦ ?_) nofun
    have hsame : dropBlanksEnd q.toList = q.toList := by
      simpa [← String.toList_inj] using hsame
    have hread' := (d.resolveText?_segmented_iff hq).mpr
      fun ch hch ↦ not_isBlank_of_mem_getLast? (hsame.symm ▸ hch)
    rw [hread] at hread'
    cases hread'

namespace Becomes

variable {y : String}

theorem head (h : Becomes d x y) (hx : Tight x.toList) :
    y.toList ≠ [] ∧ ∀ c ∈ y.toList.head?, isBlank c = false ∧ c ≠ '?' := by
  cases h with
  | word hbuiltin =>
    have htight := (ReadsBack.isMember_builtin (lower_mem_builtinWords hbuiltin)).tight
    exact ⟨htight.ne_nil, htight.first⟩
  | «class» =>
    rw [String.toList_append]
    refine ⟨by simp, ?_⟩
    rintro _ ⟨⟩
    decide
  | shape => exact ⟨hx.ne_nil, hx.first⟩
  | unknown => exact ⟨hx.ne_nil, hx.first⟩

theorem plain (h : Becomes d x y) {id : Nat} {uri : String} {source : List Char} {version : Int}
    (hd : parse id uri source version = .ok d)
    (hx : ∀ c ∈ x.toList, c ≠ '|' ∧ isOpeningBracket c = false) :
    ∀ c ∈ y.toList, c ≠ '|' ∧ isOpeningBracket c = false := by
  cases h with
  | word hbuiltin =>
    have hplain := (ReadsBack.isMember_builtin (lower_mem_builtinWords hbuiltin)).plain
    exact fun c hc ↦ ⟨(hplain c hc).1, (hplain c hc).2.1⟩
  | «class» _ _ hq =>
    intro c hc
    rw [String.toList_append] at hc
    have hchars : c = '\\' ∨ isWordChar c = true ∨ c ∈ x.toList :=
      (List.mem_append.mp hc).elim (fun hslash ↦ .inl (by simpa using hslash))
        (chars_resolveText? hd hq c)
    rcases hchars with rfl | hword | hmem
    · decide
    · refine ⟨?_, ?_⟩
      · rintro rfl
        rw [not_isWordChar '|' (by simp)] at hword
        cases hword
      · rw [← Bool.not_eq_true]
        intro hopen
        have hsign : isWordChar c = false := by
          obtain rfl | rfl | rfl | rfl := eq_of_isOpeningBracket hopen <;>
            exact not_isWordChar _ (by simp)
        rw [hword] at hsign
        cases hsign
    · exact hx c hmem
  | shape => exact hx
  | unknown => exact hx

/-- The text that stands for a type in one document stands for itself in every document, exactly if
no blank ends it. -/
theorem reread (h : Becomes d x y) {id : Nat} {uri : String} {source : List Char} {version : Int}
    (hd : parse id uri source version = .ok d) (hx : Tight x.toList)
    (hend : isShape x.toList = false → x.toList.getLast? ≠ some '\\') (d' : Document) :
    d'.bareDocType (String.ofList (dropBlanksEnd y.toList)) = y ↔
      ∀ c ∈ y.toList.getLast?, isBlank c = false := by
  have hkept {y : String} (hy : Tight y.toList) (hsame : d'.bareDocType y = y) :
      d'.bareDocType (String.ofList (dropBlanksEnd y.toList)) = y ↔
        ∀ c ∈ y.toList.getLast?, isBlank c = false := by
    rw [dropBlanksEnd_eq_self hy.last, String.ofList_toList]
    exact iff_of_true hsame hy.last
  cases h with
  | word hbuiltin =>
    have htight := (ReadsBack.isMember_builtin (lower_mem_builtinWords hbuiltin)).tight
    have hagain : isBuiltin (lower x) = true := by rwa [isBuiltin, lower_lower]
    exact hkept htight (by rw [bareDocType, if_pos hagain, lower_lower])
  | shape hbuiltin hshape =>
    exact hkept hx (by rw [bareDocType, hbuiltin, hshape]; rfl)
  | «class» _ hshape hq =>
    exact bareDocType_class_iff (IsPathOf.mono (isPathOf_resolveText? hd hq) fun _ hw ↦ hw.1)
      (isShape_resolveText? hd hshape hq) d'
  | unknown hbuiltin hshape hnone =>
    have hnone' := resolveText?_eq_none hx (hend hshape) hbuiltin hnone d'
    exact hkept hx (by rw [bareDocType, hbuiltin, hshape, hnone']; rfl)

end Becomes

theorem Marked.dropBlanksEnd_eq_self (h : Marked marks body)
    (hblanks : blanksBehindBracket (marks ++ body) = true)
    (hshape : isShape (Text.dropBlanksEnd body) = false) : Text.dropBlanksEnd body = body := by
  have hopen : ∀ c ∈ marks ++ body, isOpeningBracket c = false := by
    intro c hc
    cases hopen : isOpeningBracket c with
    | false => rfl
    | true =>
      have hkept := mem_trimChars hc (not_isBlank_of_isOpeningBracket hopen)
      rw [h.trimChars, List.mem_append] at hkept
      rcases hkept with hmark | hkept
      · rw [h.marks c hmark] at hopen
        revert hopen
        decide
      · rw [isShape_of_bracket hkept hopen] at hshape
        cases hshape
  have hnone := not_isBlank_of_no_bracket hblanks hopen
  exact Text.dropBlanksEnd_eq_self fun c hc ↦
    hnone c (List.mem_append_right _ (List.mem_of_getLast? hc))

theorem getLast?_marked (h : ∀ c ∈ marks, c = '?') :
    (∀ c ∈ (marks ++ body).getLast?, isBlank c = false) ↔
      ∀ c ∈ body.getLast?, isBlank c = false := by
  rw [List.getLast?_append]
  cases hbody : body.getLast? with
  | some c => rfl
  | none =>
    refine iff_of_true (fun c hc ↦ ?_) nofun
    rw [h c (List.mem_of_getLast? hc)]
    decide

theorem Marked.bareDocType (h : Marked marks body) (d : Document) :
    Marked marks (d.bareDocType (String.ofList (Text.dropBlanksEnd body))).toList ∧
      ((d.bareDocType (String.ofList (Text.dropBlanksEnd body))).toList = [] →
        Text.dropBlanksEnd body = []) := by
  by_cases hnil : Text.dropBlanksEnd body = []
  · rw [hnil, bareDocType_ofList_nil]
    exact ⟨⟨h.marks, nofun⟩, fun _ ↦ rfl⟩
  · have htight : Tight (String.ofList (Text.dropBlanksEnd body)).toList := by
      rw [String.toList_ofList]
      exact h.tight hnil
    obtain ⟨hne, hfirst⟩ := (becomes_bareDocType d _).head htight
    exact ⟨⟨h.marks, hfirst⟩, fun h ↦ absurd h hne⟩

theorem canonicalDocType_marked_iff {y : String} (h : Marked marks y.toList) (d : Document) :
    d.canonicalDocType (String.ofList marks ++ y) = String.ofList marks ++ y ↔
      d.bareDocType (String.ofList (dropBlanksEnd y.toList)) = y := by
  have htext : String.ofList marks ++ y = String.ofList (marks ++ y.toList) := by
    rw [← String.toList_inj]
    simp
  have hsame := canonicalDocType_marked h d
  rw [← htext] at hsame
  rw [hsame]
  simp

theorem canonicalDocType_reread_iff {id : Nat} {uri : String} {source : List Char} {version : Int}
    (hd : parse id uri source version = .ok d) {t : String}
    (hblanks : blanksBehindBracket t.toList = true) (hend : t.toList.getLast? ≠ some '\\')
    (d' : Document) :
    d'.canonicalDocType (d.canonicalDocType t) = d.canonicalDocType t ↔
      ∀ c ∈ (d.canonicalDocType t).toList.getLast?, isBlank c = false := by
  obtain ⟨marks, body, hsplit, hmarked⟩ := exists_marked hblanks
  obtain rfl : t = String.ofList (marks ++ body) := by rw [← hsplit, String.ofList_toList]
  rw [canonicalDocType_marked hmarked d, String.toList_append, String.toList_ofList,
    getLast?_marked hmarked.marks]
  rw [String.toList_ofList] at hblanks hend
  rw [canonicalDocType_marked_iff (hmarked.bareDocType d).1 d']
  by_cases hnil : dropBlanksEnd body = []
  · rw [hnil]
    exact iff_of_true (bareDocType_ofList_nil d') nofun
  · have htight : Tight (String.ofList (dropBlanksEnd body)).toList := by
      rw [String.toList_ofList]
      exact hmarked.tight hnil
    refine (becomes_bareDocType d _).reread hd htight (fun hshape ↦ ?_) d'
    rw [String.toList_ofList] at hshape ⊢
    have hwhole := hmarked.dropBlanksEnd_eq_self hblanks hshape
    rw [hwhole] at hnil ⊢
    rwa [List.getLast?_append_of_ne_nil _ hnil] at hend

/-- A member of a type text becomes a text that no blank starts and no bar divides, and that closes
what it opens if the member does. -/
theorem canonicalDocType_member {id : Nat} {uri : String} {source : List Char} {version : Int}
    (hd : parse id uri source version = .ok d) {t : String} (hne : t.toList ≠ [])
    (htrim : Trimmed t.toList) (hone : piecesFrom 0 t.toList = [t.toList])
    (hblanks : blanksBehindBracket t.toList = true) :
    (d.canonicalDocType t).toList ≠ [] ∧
      (∀ c ∈ (d.canonicalDocType t).toList.head?, isBlank c = false) ∧
      piecesFrom 0 (d.canonicalDocType t).toList = [(d.canonicalDocType t).toList] ∧
      (depthBehind 0 t.toList = 0 → depthBehind 0 (d.canonicalDocType t).toList = 0) := by
  obtain ⟨marks, body, hsplit, hmarked⟩ := exists_marked hblanks
  rw [hsplit] at hne htrim hone hblanks ⊢
  have hbody : dropBlanksEnd body = body :=
    Text.dropBlanksEnd_eq_self ((getLast?_marked hmarked.marks).mp htrim.last)
  obtain ⟨hmarked', hnil⟩ := hmarked.bareDocType d
  have hc : (d.canonicalDocType t).toList =
      marks ++ (d.bareDocType (String.ofList body)).toList := by
    have htext : t = String.ofList (marks ++ body) := by rw [← hsplit, String.ofList_toList]
    rw [htext, canonicalDocType_marked hmarked d, String.toList_append, String.toList_ofList, hbody]
  rw [hbody] at hmarked' hnil
  rw [hc]
  by_cases hopen : ∃ c ∈ body, isOpeningBracket c = true
  · obtain ⟨c, hc, hopen⟩ := hopen
    have hsame : d.bareDocType (String.ofList body) = String.ofList body :=
      bareDocType_of_bracket (by rwa [String.toList_ofList]) hopen
    rw [hsame, String.toList_ofList]
    exact ⟨hne, htrim.first, hone, fun h ↦ h⟩
  · have hclosed : ∀ c ∈ marks ++ body, isOpeningBracket c = false := by
      rw [List.forall_mem_append]
      refine ⟨fun c hc ↦ ?_, by simpa using hopen⟩
      rw [hmarked.marks c hc]
      decide
    have hbar := not_bar_of_piecesFrom hone hclosed
    have hplain : ∀ c ∈ marks ++ (d.bareDocType (String.ofList body)).toList,
        c ≠ '|' ∧ isOpeningBracket c = false := by
      rw [List.forall_mem_append]
      refine ⟨fun c hc ↦ ?_, (becomes_bareDocType d _).plain hd ?_⟩
      · rw [hmarked.marks c hc]
        decide
      · rw [String.toList_ofList]
        exact fun c hc ↦ ⟨fun he ↦ hbar (List.mem_append_right _ (he ▸ hc)),
          hclosed c (List.mem_append_right _ hc)⟩
    refine ⟨fun hempty ↦ hne ?_, hmarked'.head, piecesFrom_plain hplain,
      fun _ ↦ depthBehind_eq_zero fun c hc ↦ (hplain c hc).2⟩
    obtain ⟨hmarks, hrest⟩ := List.append_eq_nil_iff.mp hempty
    rw [hmarks, hnil hrest, List.append_nil]

theorem canonicalDocTypes_splitUnion (d : Document) (text : String) :
    d.canonicalDocTypes (splitUnion text) = (splitUnion text).map d.canonicalDocType := by
  have hsingle : ∀ t ∈ splitUnion text, splitUnion t = [t] := by
    intro t ht
    obtain ⟨hne, htrim, hone⟩ := of_mem_unionMembers (toList_mem_of_splitUnion ht)
    have hjoin : splitUnion ("|".intercalate [t]) = [t] :=
      splitUnion_intercalate (List.forall_mem_singleton.mpr ⟨hne, htrim⟩)
        (List.forall_mem_singleton.mpr hone) nofun
    rwa [String.intercalate_singleton] at hjoin
  have hflat : (splitUnion text).flatMap splitUnion = splitUnion text := by
    rw [List.flatMap_congr hsingle]
    exact List.flatMap_singleton' _
  rw [canonicalDocTypes, hflat]

/-- The texts that stand for the members of a type text are told from each other where they are
joined, exactly if none of them ends in a blank. -/
theorem splitUnion_canonicalDocTypes_iff {id : Nat} {uri : String} {source : List Char}
    {version : Int} (hd : parse id uri source version = .ok d) {text : String}
    (hblanks : blanksInside 0 text.toList = true) :
    splitUnion ("|".intercalate (d.canonicalDocTypes (splitUnion text))) =
        d.canonicalDocTypes (splitUnion text) ↔
      ∀ t ∈ d.canonicalDocTypes (splitUnion text), ∀ c ∈ t.toList.getLast?, isBlank c = false := by
  constructor
  · intro hsame t ht
    rw [← hsame] at ht
    exact not_isBlank_of_mem_splitUnion ht
  · intro hlast
    have hmember (t : String) (ht : t ∈ splitUnion text) :=
      have hm := toList_mem_of_splitUnion ht
      have hpiece := of_mem_unionMembers hm
      canonicalDocType_member hd hpiece.1 hpiece.2.1 hpiece.2.2
        (blanksBehindBracket_of_blanksInside (blanksInside_of_mem_unionMembers hblanks hm))
    rw [canonicalDocTypes_splitUnion] at hlast ⊢
    rw [List.forall_mem_map] at hlast
    refine splitUnion_intercalate ?_ ?_ ?_
    · rw [List.forall_mem_map]
      exact fun t ht ↦ ⟨(hmember t ht).1, (hmember t ht).2.1, hlast t ht⟩
    · rw [List.forall_mem_map]
      exact fun t ht ↦ (hmember t ht).2.2.1
    · rw [← List.map_dropLast, List.forall_mem_map]
      exact fun t ht ↦ (hmember t ((List.dropLast_sublist _).subset ht)).2.2.2
        (depthBehind_of_mem_unionMembers (toList_mem_dropLast_of_splitUnion ht))

end Document

namespace DocBlock

theorem exists_splitUnion (body : List Char) :
    ∃ text : String, blanksInside 0 text.toList = true ∧ typesOf body = splitUnion text := by
  refine ⟨String.ofList (splitType body).1, ?_, ?_⟩
  · rw [String.toList_ofList]
    exact blanksInside_splitTypeFrom 0 _
  · rw [splitUnion, String.toList_ofList, typesOf]

theorem exists_splitUnion_of_mem (b : DocBlock) :
    ∀ ts ∈ [b.returnTypes, b.varTypes],
      ∃ text : String, blanksInside 0 text.toList = true ∧ ts = splitUnion text := by
  have htag (name : String) : ∃ text : String, blanksInside 0 text.toList = true ∧
      ((b.bodies [name]).head?.map typesOf).getD [] = splitUnion text := by
    cases (b.bodies [name]).head? with
    | none => exact ⟨"", rfl, rfl⟩
    | some body => exact exists_splitUnion body
  exact List.forall_mem_cons.mpr ⟨htag "return", List.forall_mem_singleton.mpr (htag "var")⟩

end DocBlock

namespace Document

variable {d : Document}

/-- What stands for a doc type in one document stands for it in every document, and what stands for
the types of a `@return` or a `@var` tag is told apart again where it is joined, exactly if no text
that stands for a type ends in a blank. The first part is about types without blanks in front of
their first bracket and without a backslash at the end. -/
theorem canonicalDocType_reread {id : Nat} {uri : String} {source : List Char} {version : Int}
    (hd : parse id uri source version = .ok d) :
    (∀ t : String, blanksBehindBracket t.toList = true → t.toList.getLast? ≠ some '\\' →
      ∀ d' : Document, d'.canonicalDocType (d.canonicalDocType t) = d.canonicalDocType t ↔
        ∀ c ∈ (d.canonicalDocType t).toList.getLast?, isBlank c = false) ∧
    ∀ comment, ∀ ts ∈ [(DocBlock.ofComment comment).returnTypes,
        (DocBlock.ofComment comment).varTypes],
      splitUnion ("|".intercalate (d.canonicalDocTypes ts)) = d.canonicalDocTypes ts ↔
        ∀ t ∈ d.canonicalDocTypes ts, ∀ c ∈ t.toList.getLast?, isBlank c = false := by
  refine ⟨fun t ↦ canonicalDocType_reread_iff hd, fun comment ts hts ↦ ?_⟩
  obtain ⟨text, hblanks, rfl⟩ := DocBlock.exists_splitUnion_of_mem _ ts hts
  exact splitUnion_canonicalDocTypes_iff hd hblanks

theorem canonicalDocType_reread_imported :
    ∃ d d', parse 0 "a.php" "<?php namespace App; use Psr\\Log;".toList 0 = .ok d ∧
      parse 1 "b.php" "<?php namespace Log;".toList 0 = .ok d' ∧
      d.canonicalDocType "?Log\\Level" = "?\\Psr\\Log\\Level" ∧
      d'.canonicalDocType "?\\Psr\\Log\\Level" = "?\\Psr\\Log\\Level" ∧
      d.canonicalDocTypes
          (DocBlock.ofComment "/** @return Log|array<int, Log>|Null */").returnTypes =
        ["\\Psr\\Log", "array<int, Log>", "null"] ∧
      splitUnion "\\Psr\\Log|array<int, Log>|null" = ["\\Psr\\Log", "array<int, Log>", "null"] := by
  have hfile : (parse 0 "a.php" "<?php namespace App; use Psr\\Log;".toList 0).toOption.map
      (fun d ↦ (d.canonicalDocType "?Log\\Level", d.canonicalDocTypes
        (DocBlock.ofComment "/** @return Log|array<int, Log>|Null */").returnTypes)) =
      some ("?\\Psr\\Log\\Level", ["\\Psr\\Log", "array<int, Log>", "null"]) := by decide +kernel
  have hother : ((parse 1 "b.php" "<?php namespace Log;".toList 0).toOption.map fun _ ↦ ()) =
      some () := by decide +kernel
  obtain ⟨d, hd, hfile⟩ := Option.map_eq_some_iff.mp hfile
  obtain ⟨d', hd', -⟩ := Option.map_eq_some_iff.mp hother
  obtain ⟨htype, htypes⟩ := Prod.mk.inj hfile
  have hparse := parse_of_toOption hd
  obtain ⟨hsame, hsplit⟩ := canonicalDocType_reread hparse
  have hagain := (hsame "?Log\\Level" (by decide) (by decide) d').mpr
    (by rw [htype]; exact (by decide +kernel : Trimmed _).last)
  have htrimmed : ∀ t ∈ ["\\Psr\\Log", "array<int, Log>", "null"], Trimmed t.toList := by
    decide +kernel
  have hjoined := (hsplit "/** @return Log|array<int, Log>|Null */" _ List.mem_cons_self).mpr
    (by rw [htypes]; exact fun t ht ↦ (htrimmed t ht).last)
  rw [htype] at hagain
  rw [htypes] at hjoined
  exact ⟨d, d', hparse, parse_of_toOption hd', htype, hagain, htypes, hjoined⟩

/-- An import under another name lets a blank into the text that stands for a type. -/
theorem canonicalDocType_shortened :
    ∃ d, parse 0 "a.php" "<?php use Lib\\Foo\u00A0 as Foo;".toList 0 = .ok d ∧
      blanksBehindBracket "Foo".toList = true ∧ "Foo".toList.getLast? ≠ some '\\' ∧
      d.canonicalDocType "Foo" = "\\Lib\\Foo\u00A0" ∧
      d.canonicalDocType "\\Lib\\Foo\u00A0" = "\\Lib\\Foo" ∧
      d.canonicalDocTypes (DocBlock.ofComment "/** @return Foo */").returnTypes =
        ["\\Lib\\Foo\u00A0"] ∧
      splitUnion "\\Lib\\Foo\u00A0" = ["\\Lib\\Foo"] := by
  have hfile : (parse 0 "a.php" "<?php use Lib\\Foo\u00A0 as Foo;".toList 0).toOption.map
      (fun d ↦ (d.canonicalDocType "Foo", d.canonicalDocType "\\Lib\\Foo\u00A0",
        d.canonicalDocTypes (DocBlock.ofComment "/** @return Foo */").returnTypes)) =
      some ("\\Lib\\Foo\u00A0", "\\Lib\\Foo", ["\\Lib\\Foo\u00A0"]) := by decide +kernel
  obtain ⟨d, hd, hfile⟩ := Option.map_eq_some_iff.mp hfile
  simp only [Prod.mk.injEq] at hfile
  obtain ⟨htype, hagain, htypes⟩ := hfile
  exact ⟨d, parse_of_toOption hd, by decide, by decide, htype, hagain, htypes, by decide +kernel⟩

end Document

end PhpInsight

import PhpInsight.Proofs.Reading.Classes
import PhpInsight.Proofs.Types.Members
import PhpInsight.Proofs.Types.Segments

namespace PhpInsight

open Text

def IsPath (q : String) : Prop :=
  ∃ ws : List String, ws ≠ [] ∧ (∀ w ∈ ws, IsWord w) ∧ q = "\\".intercalate ws

theorem Name.Written.isPath {n : Name} (h : n.Written) : IsPath n.joined :=
  ⟨n.parts, h.ne_nil, h.words, rfl⟩

theorem Name.Written.last {n : Name} (h : n.Written) : IsWord n.last := by
  refine h.words _ ?_
  rw [Name.last, List.getLastD_eq_getLast?, List.getLast?_eq_some_getLast h.ne_nil]
  exact List.getLast_mem h.ne_nil

theorem IsWord.isSegment {w : String} (h : IsWord w) : IsSegment w := by
  refine ⟨h.ne_nil, fun hslash ↦ ?_⟩
  have hchar := h.chars _ hslash
  rw [not_isWordChar '\\' (by simp)] at hchar
  cases hchar

theorem IsPath.isSegmented {q : String} (h : IsPath q) : IsSegmented q :=
  IsPathOf.mono h fun _ ↦ IsWord.isSegment

theorem IsPath.chars {q : String} (h : IsPath q) :
    ∀ ch ∈ q.toList, ch = '\\' ∨ isWordChar ch = true :=
  IsPathOf.chars h fun _ hw ↦ hw.chars

theorem DeclaredClass.Written.isPath {k : DeclaredClass} (h : k.Written) : IsPath k.name := by
  have hname : IsPath k.decl.name.name := IsPathOf.single h.decl.name
  unfold DeclaredClass.name
  split
  · rename_i n hn
    exact IsPathOf.append (h.space n hn).isPath hname
  · exact hname

namespace Document

variable {d : Document} {n : Name} {S : String → Prop}

/-- What a document makes of a name consists of segments of the name and of words. -/
theorem isPathOf_qualify (hS : ∀ w, IsWord w → S w) (hd : ∀ s ∈ d.statements, s.Written)
    (hne : n.parts ≠ []) (hn : ∀ p ∈ n.parts, S p) : IsPathOf S (d.qualify n) := by
  have hjoined : IsPathOf S n.joined := ⟨n.parts, hne, hn, rfl⟩
  have hlast : IsPathOf S n.last := by
    refine .single (hn _ ?_)
    rw [Name.last, List.getLastD_eq_getLast?, List.getLast?_eq_some_getLast hne]
    exact List.getLast_mem hne
  unfold qualify
  split
  · exact hjoined
  · split
    · rename_i u hu
      have hmem : u ∈ d.imports := List.mem_reverse.mp (List.mem_of_find?_eq_some hu)
      have hname := written_imports hd u hmem
      split
      · exact IsPathOf.mono hname.isPath hS
      · refine ⟨_, by simp [hname.ne_nil], List.forall_mem_append.mpr ⟨?_, ?_⟩, rfl⟩
        · exact fun w hw ↦ hS w (hname.words w hw)
        · exact fun w hw ↦ hn w (List.mem_of_mem_drop hw)
    · split
      · split
        · rename_i space hfound
          obtain ⟨m, hm, rfl⟩ := written_namespaceName hd hfound
          exact (IsPathOf.mono hm.isPath hS).append hlast
        · exact hlast
      · exact hjoined

theorem isPath_qualify (hd : ∀ s ∈ d.statements, s.Written) (hn : n.Written) :
    IsPath (d.qualify n) := isPathOf_qualify (fun _ hw ↦ hw) hd hn.ne_nil hn.words

theorem resolveName?_of_not_keyword (h : isClassKeyword n = false) :
    d.resolveName? n = some (d.qualify n) := by
  rw [isClassKeyword, Bool.or_eq_false_iff] at h
  rw [resolveName?, h.1, h.2]
  rfl

theorem exists_parent_of_parentName? {q : String} (h : d.parentName? = some q) :
    ∃ k ∈ d.classes, ∃ p ∈ k.decl.parents, d.qualify p = q := by
  unfold parentName? at h
  obtain ⟨c, hc, hkind⟩ := Option.bind_eq_some_iff.mp h
  obtain ⟨_, -, hparents⟩ := Option.bind_eq_some_iff.mp hkind
  obtain ⟨p, hp, hkeyword⟩ := Option.bind_eq_some_iff.mp hparents
  obtain ⟨_, -, hname⟩ := Option.bind_eq_some_iff.mp hkeyword
  obtain ⟨k, hk, rfl⟩ := Option.map_eq_some_iff.mp hc
  exact ⟨k, List.mem_of_head? hk, p, List.mem_of_head? hp, Option.some_inj.mp hname⟩

theorem isPath_resolveName?_keyword {id : Nat} {uri : String} {source : List Char} {version : Int}
    (hd : parse id uri source version = .ok d) (h : isClassKeyword n = true) {q : String}
    (hq : d.resolveName? n = some q) : IsPath q := by
  unfold resolveName? at hq
  split at hq
  · obtain ⟨k, hk, rfl⟩ := Option.map_eq_some_iff.mp hq
    exact (written_classes hd k (List.mem_of_head? hk)).isPath
  · rw [isClassKeyword, Bool.or_eq_true_iff] at h
    rw [if_pos (h.resolve_left ‹_›)] at hq
    obtain ⟨k, hk, p, hp, rfl⟩ := exists_parent_of_parentName? hq
    exact isPath_qualify (written_of_parse hd) ((written_classes hd k hk).decl.parents p hp)

theorem isPathOf_resolveText? {id : Nat} {uri : String} {source : List Char} {version : Int}
    (hd : parse id uri source version = .ok d) {text q : String}
    (hq : d.resolveText? text = some q) :
    IsPathOf (fun w ↦ IsSegment w ∧
      ∀ c ∈ w.toList, isWordChar c = true ∨ c ∈ trimChars text.toList) q := by
  obtain ⟨n, hn, hq⟩ := Option.bind_eq_some_iff.mp hq
  obtain ⟨hsegmented, -, hchars⟩ := Name.parse?_eq_some hn
  have hword (w : String) (hw : IsWord w) : IsSegment w ∧
      ∀ c ∈ w.toList, isWordChar c = true ∨ c ∈ trimChars text.toList :=
    ⟨hw.isSegment, fun c hc ↦ .inl (hw.chars c hc)⟩
  cases hkeyword : isClassKeyword n with
  | true => exact IsPathOf.mono (isPath_resolveName?_keyword hd hkeyword hq) hword
  | false =>
    rw [resolveName?_of_not_keyword hkeyword] at hq
    cases hq
    exact isPathOf_qualify hword (written_of_parse hd) hsegmented.ne_nil fun p hp ↦
      ⟨hsegmented.segments p hp, fun c hc ↦ .inr (hchars p hp c hc)⟩

theorem resolveText?_backslash (d : Document) (s : String) :
    d.resolveText? ("\\" ++ s) =
      (Name.ofBody? true (dropBlanksEnd s.toList) default).map Name.joined := by
  have htext : ("\\" ++ s).toList = '\\' :: s.toList := by simp
  have htrim : trimChars ("\\" ++ s).toList = '\\' :: dropBlanksEnd s.toList := by
    rw [htext, trimChars_cons (by decide)]
  rw [resolveText?, Name.parse?_backslash htrim, Name.ofBody?]
  split <;> rfl

/-- A class name is read back as it is exactly if no blank ends it. -/
theorem resolveText?_segmented_iff (d : Document) {q : String} (hq : IsSegmented q) :
    d.resolveText? ("\\" ++ q) = some q ↔ ∀ ch ∈ q.toList.getLast?, isBlank ch = false := by
  rw [resolveText?_backslash]
  constructor
  · -- What is read back has no blank at its end, so that a name with one comes back shorter.
    intro hread ch hlast
    obtain ⟨n, hn, hjoined⟩ := Option.map_eq_some_iff.mp hread
    obtain ⟨rfl, -⟩ := Name.ofBody?_eq_some hn
    have hle := Name.length_path_segments_le (dropBlanksEnd q.toList)
    have hlength : ("\\".intercalate (Name.segments (dropBlanksEnd q.toList))).toList.length =
        q.toList.length := congrArg (fun s : String ↦ s.toList.length) hjoined
    cases hblank : isBlank ch with
    | false => rfl
    | true =>
      have hshorter := length_dropBlanksEnd_lt hlast hblank
      omega
  · intro hlast
    obtain ⟨ws, hne, hws, rfl⟩ := hq
    rw [dropBlanksEnd_eq_self hlast, Name.ofBody?_path hne hws]
    rfl

theorem resolveText?_path (d : Document) {q : String} (hq : IsPath q)
    (h : ∀ ch ∈ q.toList.getLast?, isBlank ch = false) : d.resolveText? ("\\" ++ q) = some q :=
  (d.resolveText?_segmented_iff hq.isSegmented).mpr h

theorem resolveText?_dropBlanksEnd (d : Document) (q : String) :
    d.resolveText? ("\\" ++ String.ofList (dropBlanksEnd q.toList)) =
      d.resolveText? ("\\" ++ q) := by
  have htwice : dropBlanksEnd (dropBlanksEnd q.toList) = dropBlanksEnd q.toList :=
    dropBlanksEnd_eq_self fun _ hc ↦ not_isBlank_of_mem_getLast? hc
  rw [resolveText?_backslash, resolveText?_backslash, String.toList_ofList, htwice]

theorem resolveText?_trimmed_iff (d : Document) {q : String} (hq : IsPath q) :
    d.resolveText? ("\\" ++ String.ofList (dropBlanksEnd q.toList)) = some q ↔
      ∀ ch ∈ q.toList.getLast?, isBlank ch = false := by
  rw [resolveText?_dropBlanksEnd, d.resolveText?_segmented_iff hq.isSegmented]

end Document

namespace ClassInfo

open TypeText

theorem isMember_backslash {s : String} (hs : ∀ ch ∈ s.toList, ch = '\\' ∨ isWordChar ch = true)
    (hlast : ∀ ch ∈ s.toList.getLast?, isBlank ch = false) : IsMember ("\\" ++ s) := by
  have htext : ("\\" ++ s).toList = '\\' :: s.toList := by simp
  refine ⟨⟨by simp [htext], ?_, ?_⟩, ?_⟩
  · rw [htext]
    rintro _ ⟨⟩
    decide
  · rw [htext]
    intro ch hch
    cases hcs : s.toList with
    | nil =>
      rw [hcs] at hch
      cases hch
      decide
    | cons c cs =>
      rw [hcs, List.getLast?_cons_cons, ← hcs] at hch
      exact hlast ch hch
  · have hword (x : Char) (hx : isWordChar x = false) (hx' : x ≠ '\\') :
        ∀ ch ∈ ("\\" ++ s).toList, ch ≠ x := by
      rw [htext, List.forall_mem_cons]
      refine ⟨hx'.symm, fun ch hch he ↦ ?_⟩
      rcases hs ch hch with h | h
      · exact hx' (he ▸ h)
      · rw [he, hx] at h
        cases h
    intro ch hch
    refine ⟨hword '|' (by decide) (by decide) ch hch, ?_, ?_⟩
    · simp [isOpeningBracket, hword '<' (by decide) (by decide) ch hch,
        hword '(' (by decide) (by decide) ch hch, hword '\x7b' (by decide) (by decide) ch hch,
        hword '[' (by decide) (by decide) ch hch]
    · simp [isClosingBracket, hword '>' (by decide) (by decide) ch hch,
        hword ')' (by decide) (by decide) ch hch, hword '\x7d' (by decide) (by decide) ch hch,
        hword ']' (by decide) (by decide) ch hch]

theorem ofList_backslash (cs : List Char) :
    String.ofList ('\\' :: cs) = "\\" ++ String.ofList cs := by
  rw [← String.toList_inj]
  simp

theorem withoutMark_backslash (q : String) :
    withoutMark ("\\" ++ q) = "\\" ++ String.ofList (dropBlanksEnd q.toList) := by
  have htext : ("\\" ++ q).toList = '\\' :: q.toList := by simp
  unfold withoutMark
  rw [htext, trimChars_cons (by decide)]
  exact ofList_backslash _

theorem withoutMark_marked_backslash (q : String) :
    withoutMark ("?" ++ ("\\" ++ q)) = "\\" ++ String.ofList (dropBlanksEnd q.toList) := by
  have htext : ("?" ++ ("\\" ++ q)).toList = '?' :: '\\' :: q.toList := by simp
  unfold withoutMark
  rw [htext, trimChars_cons (by decide), dropBlanksEnd_cons (by decide)]
  exact ofList_backslash _

end ClassInfo

end PhpInsight

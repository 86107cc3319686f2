import PhpInsight.Document.NameResolution
import PhpInsight.Proofs.Lines.Splitting

namespace PhpInsight

open Text

structure IsSegment (w : String) : Prop where
  ne_nil : w.toList ≠ []
  whole : '\\' ∉ w.toList

/-- Pieces with a property, with single backslashes between them. -/
def IsPathOf (S : String → Prop) (q : String) : Prop :=
  ∃ ws : List String, ws ≠ [] ∧ (∀ w ∈ ws, S w) ∧ q = "\\".intercalate ws

def IsSegmented (q : String) : Prop := IsPathOf IsSegment q

theorem toList_path (ws : List String) :
    ("\\".intercalate ws).toList = ['\\'].intercalate (ws.map String.toList) :=
  String.toList_intercalate

namespace IsPathOf

variable {S T : String → Prop} {p q : String}

theorem single (h : S q) : IsPathOf S q := ⟨[q], by simp, by simpa using h, by simp⟩

theorem mono (h : IsPathOf S q) (hS : ∀ w, S w → T w) : IsPathOf T q := by
  obtain ⟨ws, hne, hws, rfl⟩ := h
  exact ⟨ws, hne, fun w hw ↦ hS w (hws w hw), rfl⟩

theorem append (hp : IsPathOf S p) (hq : IsPathOf S q) : IsPathOf S (p ++ "\\" ++ q) := by
  obtain ⟨vs, hvs, hv, rfl⟩ := hp
  obtain ⟨ws, hws, hw, rfl⟩ := hq
  exact ⟨vs ++ ws, by simp [hvs], List.forall_mem_append.mpr ⟨hv, hw⟩,
    (String.intercalate_append_of_ne_nil hvs hws).symm⟩

theorem chars {P : Char → Prop} (h : IsPathOf S q) (hS : ∀ w, S w → ∀ c ∈ w.toList, P c) :
    ∀ c ∈ q.toList, c = '\\' ∨ P c := by
  obtain ⟨ws, _, hws, rfl⟩ := h
  intro c hc
  rw [toList_path] at hc
  refine (mem_of_mem_intercalate hc).imp_right ?_
  rintro ⟨_, hl, hmem⟩
  obtain ⟨w, hw, rfl⟩ := List.mem_map.mp hl
  exact hS w (hws w hw) c hmem

end IsPathOf

theorem IsSegmented.head_ne {q : String} (h : IsSegmented q) : q.toList.head? ≠ some '\\' := by
  obtain ⟨ws, hne, hws, rfl⟩ := h
  obtain ⟨w, ws, rfl⟩ := List.exists_cons_of_ne_nil hne
  obtain ⟨c, cs, hw⟩ := List.exists_cons_of_ne_nil (hws w List.mem_cons_self).ne_nil
  have hhead : ("\\".intercalate (w :: ws)).toList.head? = some c := by
    rw [toList_path, List.map_cons, hw]
    cases ws with
    | nil => simp
    | cons v ws =>
      rw [List.intercalate_cons_of_ne_nil (by simp)]
      rfl
  rw [hhead]
  rintro ⟨⟩
  exact (hws w List.mem_cons_self).whole (hw ▸ List.mem_cons_self)

namespace Name

variable {cs : List Char} {text : String} {span : Span} {n : Name}

def segments (cs : List Char) : List String :=
  ((splitBy (· == '\\') cs).filter (!·.isEmpty)).map String.ofList

theorem isSegment_of_mem_segments {w : String} (h : w ∈ segments cs) : IsSegment w := by
  obtain ⟨l, hl, rfl⟩ := List.mem_map.mp h
  obtain ⟨hmem, hne⟩ := List.mem_filter.mp hl
  refine ⟨by simpa using hne, ?_⟩
  rw [String.toList_ofList]
  intro hslash
  have hcut := not_mem_of_mem_splitBy hmem '\\' hslash
  simp at hcut

theorem mem_of_mem_segments {w : String} {c : Char} (h : w ∈ segments cs) (hc : c ∈ w.toList) :
    c ∈ cs := by
  obtain ⟨l, hl, rfl⟩ := List.mem_map.mp h
  rw [String.toList_ofList] at hc
  exact mem_of_mem_splitBy (List.mem_filter.mp hl).1 hc

theorem segments_path {ws : List String} (hne : ws ≠ []) (h : ∀ w ∈ ws, IsSegment w) :
    segments ("\\".intercalate ws).toList = ws := by
  have hsplit :
      splitBy (· == '\\') (['\\'].intercalate (ws.map String.toList)) = ws.map String.toList := by
    rw [splitBy_eq_splitOn]
    refine List.splitOn_intercalate _ ?_ (by simpa using hne)
    rintro _ hl
    obtain ⟨w, hw, rfl⟩ := List.mem_map.mp hl
    exact (h w hw).whole
  have hkeep : (ws.map String.toList).filter (!·.isEmpty) = ws.map String.toList := by
    rw [List.filter_eq_self]
    rintro _ hl
    obtain ⟨w, hw, rfl⟩ := List.mem_map.mp hl
    simpa using (h w hw).ne_nil
  rw [segments, toList_path, hsplit, hkeep, List.map_map]
  simp

theorem segments_append_slash (cs ds : List Char) :
    segments (cs ++ '\\' :: ds) = segments cs ++ segments ds := by
  rw [segments, splitBy_append_cons, List.filter_append, List.map_append]
  rfl

theorem segments_ne_nil {c : Char} (hc : c ∈ cs) (hslash : c ≠ '\\') : segments cs ≠ [] := by
  have hjoin : ['\\'].intercalate (cs.splitOn '\\') = cs := List.intercalate_splitOn '\\'
  obtain ⟨piece, hpiece, hmem⟩ := (mem_of_mem_intercalate (hjoin ▸ hc)).resolve_left hslash
  rw [segments, splitBy_eq_splitOn]
  have hkept : piece ∈ (cs.splitOn '\\').filter (!·.isEmpty) := by
    simpa [hpiece] using List.ne_nil_of_mem hmem
  simpa using List.ne_nil_of_mem hkept

theorem length_path_segments_le (cs : List Char) :
    ("\\".intercalate (segments cs)).toList.length ≤ cs.length := by
  have hle := length_intercalate_filter_le '\\' (!·.isEmpty) (cs.splitOn '\\')
  rw [List.intercalate_splitOn] at hle
  rw [toList_path, segments, splitBy_eq_splitOn, List.map_map]
  simpa using hle

/-- A name as it is read: of segments, and of the kind that its notation says. -/
structure Segmented (n : Name) : Prop where
  ne_nil : n.parts ≠ []
  segments : ∀ p ∈ n.parts, IsSegment p
  kind : ∃ full, n.kind = kindOf full n.parts

theorem Segmented.isSegmented (h : n.Segmented) : IsSegmented n.joined :=
  ⟨n.parts, h.ne_nil, h.segments, rfl⟩

theorem isFullyQualified_ofParts (full : Bool) (parts : List String) :
    (ofParts full parts span).isFullyQualified = full := by
  cases full with
  | true => rfl
  | false =>
    by_cases h : parts.length ≤ 1 <;> simp [ofParts, isFullyQualified, kindOf, h]

def ofBody? (full : Bool) (body : List Char) (span : Span) : Option Name :=
  if (segments body).isEmpty then none else some (ofParts full (segments body) span)

theorem parse?_backslash {body : List Char} (h : trimChars text.toList = '\\' :: body) :
    parse? text span = ofBody? true body span := by
  rw [parse?, h]
  rfl

theorem parse?_plain (h : (trimChars text.toList).head? ≠ some '\\') :
    parse? text span = ofBody? false (trimChars text.toList) span := by
  rw [parse?]
  split
  rename_i full body hbody
  split at hbody
  · rename_i htrim
    exact absurd (by rw [htrim]; rfl) h
  · cases hbody
    rfl

theorem ofBody?_eq_some {full : Bool} {body : List Char} (h : ofBody? full body span = some n) :
    n = ofParts full (segments body) span ∧ n.Segmented := by
  obtain ⟨hne, hn⟩ := Option.ite_none_left_eq_some.mp h
  cases hn
  exact ⟨rfl, fun hnil ↦ hne (List.isEmpty_iff.mpr hnil), fun _ ↦ isSegment_of_mem_segments,
    full, rfl⟩

theorem ofBody?_path {full : Bool} {ws : List String} (hne : ws ≠ [])
    (h : ∀ w ∈ ws, IsSegment w) :
    ofBody? full ("\\".intercalate ws).toList span = some (ofParts full ws span) := by
  rw [ofBody?, segments_path hne h, if_neg (by simpa using hne)]

theorem display_ofParts (full : Bool) (parts : List String) :
    (ofParts full parts span).display.toList =
      if full then '\\' :: ("\\".intercalate parts).toList
      else ("\\".intercalate parts).toList := by
  rw [display, isFullyQualified_ofParts]
  cases full with
  | true => simp [joined, ofParts]
  | false => simp [joined, ofParts]

/-- A name consists of segments of the text, and it is no longer than the text without the blanks
around it. -/
theorem parse?_eq_some (h : parse? text span = some n) :
    n.Segmented ∧ n.display.toList.length ≤ (trimChars text.toList).length ∧
      ∀ p ∈ n.parts, ∀ c ∈ p.toList, c ∈ trimChars text.toList := by
  by_cases hfull : (trimChars text.toList).head? = some '\\'
  · obtain ⟨body, hbody⟩ := List.head?_eq_some_iff.mp hfull
    rw [parse?_backslash hbody] at h
    obtain ⟨rfl, hn⟩ := ofBody?_eq_some h
    refine ⟨hn, ?_, fun p hp c hc ↦ ?_⟩
    · rw [display_ofParts, hbody]
      exact Nat.succ_le_succ (length_path_segments_le body)
    · rw [hbody]
      exact List.mem_cons_of_mem _ (mem_of_mem_segments hp hc)
  · rw [parse?_plain hfull] at h
    obtain ⟨rfl, hn⟩ := ofBody?_eq_some h
    refine ⟨hn, ?_, fun p hp c hc ↦ mem_of_mem_segments hp hc⟩
    rw [display_ofParts]
    exact length_path_segments_le _

theorem one_lt_length_segments (hhead : cs.head? ≠ some '\\') (hend : cs.getLast? ≠ some '\\')
    (hslash : '\\' ∈ cs) : 1 < (segments cs).length := by
  obtain ⟨before, behind, rfl⟩ := List.append_of_mem hslash
  rw [segments_append_slash, List.length_append]
  have hbefore : segments before ≠ [] := by
    cases before with
    | nil => exact absurd rfl hhead
    | cons c _ => exact segments_ne_nil List.mem_cons_self (by simpa using hhead)
  have hbehind : segments behind ≠ [] := by
    have hne : behind ≠ [] := fun hnil ↦ hend (by simp [hnil])
    have hlast : behind.getLast hne ≠ '\\' := by
      simpa [List.getLast?_append, List.getLast?_cons, List.getLast?_eq_some_getLast hne] using hend
    exact segments_ne_nil (List.getLast_mem hne) hlast
  have := List.length_pos_iff.mpr hbefore
  have := List.length_pos_iff.mpr hbehind
  omega

theorem last_of_isUnqualified (htrim : Trimmed text.toList)
    (hend : text.toList.getLast? ≠ some '\\') (h : parse? text span = some n)
    (hn : n.isUnqualified = true) : n.last = text := by
  have htext := htrim.trimChars
  by_cases hfull : text.toList.head? = some '\\'
  · obtain ⟨body, hbody⟩ := List.head?_eq_some_iff.mp hfull
    rw [parse?_backslash (htext.trans hbody)] at h
    obtain ⟨rfl, -⟩ := ofBody?_eq_some h
    cases hn
  · rw [parse?_plain (htext.symm ▸ hfull), htext] at h
    obtain ⟨rfl, hsegmented⟩ := ofBody?_eq_some h
    have hwhole : '\\' ∉ text.toList := fun hslash ↦ by
      have := one_lt_length_segments hfull hend hslash
      simp [isUnqualified, ofParts, kindOf, Nat.not_le.mpr this] at hn
    have hsegment : IsSegment text :=
      ⟨fun hnil ↦ hsegmented.ne_nil (by rw [hnil]; rfl), hwhole⟩
    have hone : segments text.toList = [text] := by
      have := segments_path (List.cons_ne_nil text []) (by simpa using hsegment)
      rwa [String.intercalate_singleton] at this
    rw [hone]
    rfl

theorem Segmented.exists_eq_ofParts (h : n.Segmented) (span : Span) :
    ∃ full, { n with span := span } = ofParts full n.parts span := by
  obtain ⟨full, hkind⟩ := h.kind
  exact ⟨full, by rw [ofParts, ← hkind]⟩

/-- A name is read back from its text exactly if no blank starts or ends the text. -/
theorem parse?_display_iff (h : n.Segmented) (span : Span) :
    parse? n.display span = some { n with span := span } ↔ Trimmed n.display.toList := by
  rw [← trimChars_eq_self_iff]
  constructor
  · -- Trimming keeps an end of the text, so a text that is as long after it is the same.
    intro hread
    have hlength : n.display.toList.length ≤ (trimChars n.display.toList).length :=
      (parse?_eq_some hread).2.1
    exact (trimChars_sublist _).eq_of_length_le hlength
  · intro htrim
    obtain ⟨full, hn⟩ := h.exists_eq_ofParts span
    have hdisplay : n.display = (ofParts full n.parts span).display := by rw [← hn]; rfl
    rw [hn]
    cases full with
    | true =>
      have hbody : trimChars n.display.toList = '\\' :: ("\\".intercalate n.parts).toList := by
        rw [htrim, hdisplay, display_ofParts]
        rfl
      rw [parse?_backslash hbody, ofBody?_path h.ne_nil h.segments]
    | false =>
      have hbody : trimChars n.display.toList = ("\\".intercalate n.parts).toList := by
        rw [htrim, hdisplay, display_ofParts]
        rfl
      rw [parse?_plain (hbody ▸ h.isSegmented.head_ne), hbody,
        ofBody?_path h.ne_nil h.segments]

end Name

end PhpInsight

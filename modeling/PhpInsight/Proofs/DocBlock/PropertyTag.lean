import PhpInsight.Proofs.DocBlock.Layout
import PhpInsight.Proofs.Types.Members

namespace PhpInsight

namespace TypeText

open Text

/-- A type that closes its brackets ends at the blank behind it. -/
theorem splitTypeFrom_append {d : Nat} {cs ds : List Char} (hblanks : blanksInside d cs = true)
    (hclosed : depthBehind d cs = 0) : splitTypeFrom d (cs ++ ' ' :: ds) = (cs, ' ' :: ds) := by
  induction cs generalizing d with
  | nil =>
    obtain rfl : d = 0 := hclosed
    rfl
  | cons c cs ih =>
    obtain ⟨hc, hblanks⟩ := blanksInside_cons.mp hblanks
    rw [List.cons_append, splitTypeFrom, if_neg (by simpa using hc), ih hblanks hclosed]

end TypeText

namespace DocBlock

open Text TypeText

structure PropertyType where
  text : List Char
  ne_nil : text ≠ []
  unnamed : text.head? ≠ some '$'
  whole : '\n' ∉ text
  inside : blanksInside 0 text = true
  closed : depthBehind 0 text = 0

namespace PropertyType

theorem first (t : PropertyType) : ∃ c cs, t.text = c :: cs ∧ isBlank c = false ∧ c ≠ '$' := by
  obtain ⟨c, cs, htext⟩ := List.exists_cons_of_ne_nil t.ne_nil
  have hinside := t.inside
  have hunnamed := t.unnamed
  rw [htext] at hinside hunnamed
  exact ⟨c, cs, htext, by simpa using (blanksInside_cons.mp hinside).1, by simpa using hunnamed⟩

theorem splitType_append (t : PropertyType) (ds : List Char) :
    splitType (t.text ++ ' ' :: ds) = (t.text, ' ' :: ds) := by
  obtain ⟨c, cs, htext, hc, -⟩ := t.first
  have hdrop : dropBlanks (t.text ++ ' ' :: ds) = t.text ++ ' ' :: ds := by
    rw [htext, List.cons_append, dropBlanks, List.dropWhile_cons_of_neg (by simp [hc])]
  rw [splitType, hdrop, splitTypeFrom_append t.inside t.closed]

end PropertyType

/-- A property tag on one line, with blanks behind it. -/
structure PropertyLine where
  tagName : String
  type : Option PropertyType
  name : List Char
  description : List Char
  after : List Char := []
  known : tagName ∈ ["property", "property-read", "property-write"]
  unbroken : ∀ c ∈ name, isBlank c = false
  trimmed : Trimmed description
  whole : '\n' ∉ description ++ after
  blank : ∀ c ∈ after, isBlank c = true

namespace PropertyLine

def named (p : PropertyLine) : List Char :=
  '$' :: p.name ++ if p.description.isEmpty then [] else ' ' :: p.description

def body (p : PropertyLine) : List Char :=
  (p.type.map fun t ↦ t.text ++ [' ']).getD [] ++ p.named

def tag (p : PropertyLine) : PropertyTag :=
  ⟨(p.type.map fun t ↦ String.ofList t.text).getD "", String.ofList p.name,
    String.ofList p.description⟩

theorem propertyTagOf_named (p : PropertyLine) {body type rest : List Char}
    (hsplit : (if body.head? = some '$' then ([], body) else splitType body) = (type, rest))
    (hrest : dropBlanks rest = p.named) :
    propertyTagOf body =
      ⟨String.ofList type, String.ofList p.name, String.ofList p.description⟩ := by
  have hnamed : (splitFirst? isBlank
      (p.name ++ if p.description.isEmpty then [] else ' ' :: p.description)).getD
      (p.name ++ if p.description.isEmpty then [] else ' ' :: p.description, []) =
        (p.name, p.description) := by
    by_cases hnone : p.description = []
    · simp [hnone, splitFirst?_eq_none p.unbroken]
    · rw [if_neg (by simpa using hnone), splitFirst?_append p.unbroken (by decide)]
      rfl
  simp only [propertyTagOf, hsplit, hrest, named, List.cons_append, hnamed, p.trimmed.trimChars]

/-- A type is told from the name by its brackets, and a missing one by the dollar sign. -/
theorem propertyTagOf_body (p : PropertyLine) : propertyTagOf p.body = p.tag := by
  have hnamed : dropBlanks p.named = p.named := List.dropWhile_cons_of_neg (by decide)
  cases htype : p.type with
  | none =>
    have hbody : p.body = p.named := by simp [body, htype]
    rw [hbody, p.propertyTagOf_named (if_pos rfl) hnamed, tag, htype]
    rfl
  | some t =>
    have hbody : p.body = t.text ++ ' ' :: p.named := by simp [body, htype]
    have hhead : (t.text ++ ' ' :: p.named).head? ≠ some '$' := by
      obtain ⟨c, cs, htext, -, hc⟩ := t.first
      simpa [htext] using hc
    have hrest : dropBlanks (' ' :: p.named) = p.named :=
      (List.dropWhile_cons_of_pos (by decide)).trans hnamed
    rw [hbody, p.propertyTagOf_named ((if_neg hhead).trans (t.splitType_append _)) hrest, tag,
      htype]
    rfl

theorem trimmed_body (p : PropertyLine) : Trimmed p.body := by
  refine ⟨?_, ?_⟩
  · cases htype : p.type with
    | none =>
      simp only [body, htype]
      rintro _ ⟨⟩
      decide
    | some t =>
      obtain ⟨c, cs, htext, hc, -⟩ := t.first
      have hbody : p.body = c :: (cs ++ ' ' :: p.named) := by simp [body, htype, htext]
      rw [hbody]
      rintro _ ⟨⟩
      exact hc
  · rw [body, List.getLast?_append_of_ne_nil _ (by simp [named]), named]
    by_cases hnone : p.description = []
    · have hname : ∀ c ∈ '$' :: p.name, isBlank c = false :=
        List.forall_mem_cons.mpr ⟨by decide, p.unbroken⟩
      simpa [hnone] using fun c hc ↦ hname c (List.mem_of_getLast? hc)
    · rw [if_neg (by simpa using hnone), List.append_cons, List.getLast?_append_of_ne_nil _ hnone]
      exact p.trimmed.last

theorem whole_body (p : PropertyLine) : '\n' ∉ p.body ++ p.after := by
  have hname : '\n' ∉ p.name := fun hmem ↦ absurd (p.unbroken _ hmem) (by decide)
  have hwhole := p.whole
  rw [List.mem_append, not_or] at hwhole
  have htype : '\n' ∉ (p.type.map fun t ↦ t.text ++ [' ']).getD [] := by
    cases p.type with
    | none => exact List.not_mem_nil
    | some t => simpa using t.whole
  have hnamed : '\n' ∉ p.named := by
    rw [named]
    split <;> simp [hname, hwhole.1]
  simp [body, htype, hnamed, hwhole.2]

def lines (p : PropertyLine) : TagLines where
  name := p.tagName.toList
  first := ⟨p.body, p.after, by simp [body, named], p.trimmed_body, p.blank, p.whole_body⟩
  more := []
  unbroken := by
    have hnames : ∀ w ∈ ["property", "property-read", "property-write"],
        w.toList.all (!isBlank ·) = true := by decide +kernel
    simpa using hnames p.tagName p.known

theorem tag_lines (p : PropertyLine) : p.lines.tag = ⟨p.tagName, p.body⟩ := by
  simp [lines, TagLines.tag, texts]

end PropertyLine

/-- The property tags of a comment are those that it was laid out from. -/
theorem propertyTags_layout (l : Layout) (ps : List PropertyLine) :
    (ofComment { l with tags := ps.map PropertyLine.lines }.comment).propertyTags =
      ps.map PropertyLine.tag := by
  obtain ⟨i, hblock⟩ := Layout.ofComment_comment { l with tags := ps.map PropertyLine.lines }
  have htags : (ps.map PropertyLine.lines).map TagLines.tag =
      ps.map fun p ↦ ⟨p.tagName, p.body⟩ := by
    rw [List.map_map]
    exact List.map_congr_left fun p _ ↦ p.tag_lines
  have hknown : ∀ t ∈ ps.map fun p ↦ (⟨p.tagName, p.body⟩ : DocTag),
      ["property", "property-read", "property-write"].contains t.name = true :=
    List.forall_mem_map.mpr fun p _ ↦ List.contains_iff_mem.mpr p.known
  rw [propertyTags, bodies, hblock, htags, List.filter_eq_self.mpr hknown, List.map_map,
    List.map_map]
  exact List.map_congr_left fun p _ ↦ p.propertyTagOf_body

example :
    let map : PropertyType := ⟨"array<int, string>".toList, by decide, by decide, by decide,
      by decide, by decide⟩
    let line : PropertyLine := ⟨"property-read", some map, "map".toList, "By number.".toList, [],
      by decide, by
        simpa using List.all_eq_true.mp (by decide : "map".toList.all (!isBlank ·) = true),
      by decide +kernel, by decide, nofun⟩
    (Layout.mk [] [] 0 [line.lines] nofun).comment =
      "/**\n * @property-read array<int, string> $map By number.\n */" := by
  decide +kernel

end DocBlock

end PhpInsight

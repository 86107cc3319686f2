import PhpInsight.Completion.Tags
import PhpInsight.Proofs.DocBlock.Layout
import PhpInsight.Proofs.Lines.Location

namespace PhpInsight

namespace Text

variable {before line : List Char}

theorem splitAround?_append {x : Char} {xs : List Char} (hx : x ∉ xs)
    (h : ¬ x :: xs <:+: before) (after : List Char) :
    splitAround? (x :: xs) (before ++ (x :: xs ++ after)) = some (before, after) := by
  induction before with
  | nil =>
    rw [List.nil_append, List.cons_append, splitAround?, ← List.cons_append, dropStart?_append]
  | cons c before ih =>
    have hnone : dropStart? (x :: xs) (c :: before ++ (x :: xs ++ after)) = none := by
      refine Option.eq_none_iff_forall_not_mem.mpr fun rest hrest ↦ ?_
      obtain ⟨ds, hpiece, hbehind⟩ | ⟨ds, hpiece, -⟩ :=
        List.append_eq_append_iff.mp (eq_append_of_dropStart? hrest)
      · cases ds with
        | nil => exact h ⟨[], [], by simpa using hpiece⟩
        | cons d ds =>
          -- the piece would start in `before` and reach into the piece behind it
          obtain ⟨rfl, -⟩ := List.cons.inj hbehind
          obtain ⟨-, hxs⟩ := List.cons.inj hpiece
          exact hx (hxs ▸ List.mem_append_right before List.mem_cons_self)
      · exact h ⟨[], ds, hpiece.symm⟩
    have hbefore : ¬ x :: xs <:+: before :=
      fun hin ↦ h (hin.trans (List.suffix_cons c before).isInfix)
    rw [List.cons_append] at hnone
    rw [List.cons_append, splitAround?, hnone, ih hbefore]
    rfl

theorem splitBy_of_not_mem {x : Char} (h : x ∉ line) : splitBy (· == x) line = [line] := by
  rw [splitBy_eq_splitOn, List.splitOn_eq_singleton h]

theorem lines_append (h : '\n' ∉ line) (rest : List Char) :
    lines (line ++ '\n' :: rest) = dropCarriageReturn line :: lines rest := by
  obtain ⟨w, ws, hrest⟩ := List.exists_cons_of_ne_nil (splitBy_ne_nil (· == '\n') rest)
  rw [lines, lines, splitBy_append_cons, splitBy_of_not_mem h, hrest]
  rfl

theorem lines_of_not_mem (h : '\n' ∉ line) (hne : line ≠ []) : lines line = [line] := by
  rw [lines, splitBy_of_not_mem h, linesOfPieces, if_neg (by simpa using hne)]

end Text

namespace Completion

open Text

namespace TagsFile

def doubled (cs : List Char) : List Char :=
  cs.flatMap fun c ↦ if c = '\\' then ['\\', '\\'] else [c]

def IsCell (cs : List Char) : Prop := '\t' ∉ cs ∧ '\n' ∉ cs

instance (cs : List Char) : Decidable (IsCell cs) := inferInstanceAs (Decidable (_ ∧ _))

/-- The field of the kind, which needs no name: `c`, or `kind:class`. -/
structure KindField where
  isNamed : Bool
  value : List Char
  cell : IsCell value
  bare : isNamed = false → ':' ∉ value

structure Field where
  key : List Char
  value : List Char
  key_cell : IsCell key
  value_cell : IsCell value
  named : ':' ∉ key
  ne_kind : key ≠ "kind".toList

/-- The line of a name that is declared in a file. -/
structure Entry where
  name : List Char
  path : List Char
  address : List Char
  kind : KindField
  fields : List Field
  name_cell : '\t' ∉ name
  plain : ¬ "!_TAG_".toList <+: name
  whole : '\n' ∉ name ++ '\t' :: (path ++ '\t' :: address)
  first : ¬ [';', '"', '\t'] <:+: name ++ '\t' :: (path ++ '\t' :: address)

def KindField.text (k : KindField) : List Char :=
  if k.isNamed then "kind:".toList ++ k.value else k.value

def KindField.offered? (k : KindField) : Option ItemKind :=
  if k.value = "c".toList ∨ k.value = "class".toList then some .class
  else if k.value = "i".toList ∨ k.value = "interface".toList then some .interface
  else none

def Field.IsNamespace (f : Field) : Prop := f.key = "namespace".toList

instance (f : Field) : Decidable f.IsNamespace := inferInstanceAs (Decidable (_ = _))

def Field.text (f : Field) : List Char :=
  f.key ++ ':' :: (if f.IsNamespace then doubled f.value else f.value)

namespace Entry

def head (e : Entry) : List Char := e.name ++ '\t' :: (e.path ++ '\t' :: e.address)

def text (e : Entry) : List Char :=
  e.head ++ ([';', '"', '\t'] ++ ['\t'].intercalate (e.kind.text :: e.fields.map Field.text))

/-- The namespace of an entry, which is empty when no field says it. -/
def namespaceName (e : Entry) : List Char :=
  ((e.fields.filter (·.IsNamespace)).getLast?.map Field.value).getD []

def item? (e : Entry) : Option Item :=
  e.kind.offered?.map fun k ↦
    { label := String.ofList e.name, kind := k, detail := some (String.ofList e.namespaceName) }

/-- The name starts as asked for, letter case aside. -/
def IsFor (start : String) (e : Entry) : Prop := lowerCase start.toList <+: lowerCase e.name

instance (start : String) (e : Entry) : Decidable (e.IsFor start) :=
  inferInstanceAs (Decidable (_ <+: _))

end Entry

inductive Line
  | header (rest : List Char) (whole : '\n' ∉ rest)
  | entry (e : Entry)

def Line.text : Line → List Char
  | header rest _ => "!_TAG_".toList ++ rest
  | entry e => e.text

def Line.entry? : Line → Option Entry
  | header _ _ => none
  | entry e => some e

structure EndedLine where
  line : Line
  hasReturn : Bool
  unmistaken : hasReturn = false → line.text.getLast? ≠ some '\r'

def EndedLine.text (l : EndedLine) : List Char :=
  l.line.text ++ (if l.hasReturn then ['\r', '\n'] else ['\n'])

/-- A file whose last line may have no line end. -/
structure Written where
  ended : List EndedLine
  last? : Option Line

namespace Written

def text (w : Written) : List Char :=
  w.ended.flatMap EndedLine.text ++ (w.last?.map Line.text).getD []

def lines (w : Written) : List Line := w.ended.map EndedLine.line ++ w.last?.toList

def entries (w : Written) : List Entry := w.lines.filterMap Line.entry?

end Written

theorem undoubled_doubled (cs : List Char) : undoubled (doubled cs) = cs := by
  induction cs with
  | nil => rfl
  | cons c cs ih =>
    rw [doubled, List.flatMap_cons, ← doubled]
    by_cases hc : c = '\\'
    · rw [if_pos hc, hc]
      exact congrArg ('\\' :: ·) ih
    · rw [if_neg hc, List.singleton_append, undoubled]
      · rw [ih]
      · rintro _ rfl -
        exact hc rfl

theorem mem_of_mem_doubled {c : Char} {cs : List Char} (h : c ∈ doubled cs) : c ∈ cs := by
  obtain ⟨d, hd, hc⟩ := List.mem_flatMap.mp h
  split at hc
  next hslash =>
    obtain rfl : c = d := by simpa [hslash] using hc
    exact hd
  next => exact List.mem_singleton.mp hc ▸ hd

variable {found : Option ItemKind × List Char}

theorem ofList_eq_iff {cs : List Char} {s : String} : String.ofList cs = s ↔ cs = s.toList := by
  rw [← String.toList_inj, String.toList_ofList]

theorem tagKind?_value (k : KindField) : tagKind? k.value = k.offered? := by
  have hpair (s t : String) :
      [s, t].contains (String.ofList k.value) = true ↔
        k.value = s.toList ∨ k.value = t.toList := by
    simp only [List.contains_cons, List.contains_nil, Bool.or_false, Bool.or_eq_true, beq_iff_eq,
      ofList_eq_iff]
  simp only [tagKind?, KindField.offered?, hpair]

theorem readField_kind (k : KindField) : readField found k.text = (k.offered?, found.2) := by
  have hsplit : splitFirst? (· == ':') ("kind:".toList ++ k.value) =
      some ("kind".toList, k.value) := by
    have hword : ∀ c ∈ "kind".toList, (c == ':') = false := by simp
    exact splitFirst?_append hword rfl
  rw [readField, KindField.text]
  cases hnamed : k.isNamed with
  | true =>
    rw [if_pos rfl, hsplit]
    exact congrArg (·, found.2) (tagKind?_value k)
  | false =>
    have hbare : splitFirst? (· == ':') k.value = none := splitFirst?_eq_none fun c hc ↦ by
      simpa using fun heq : c = ':' ↦ k.bare hnamed (heq ▸ hc)
    rw [if_neg (by simp), hbare]
    exact congrArg (·, found.2) (tagKind?_value k)

theorem readField_field (f : Field) :
    readField found f.text = (found.1, if f.IsNamespace then f.value else found.2) := by
  have hkey (value : List Char) :
      splitFirst? (· == ':') (f.key ++ ':' :: value) = some (f.key, value) :=
    splitFirst?_append (fun c hc ↦ by simpa using fun heq : c = ':' ↦ f.named (heq ▸ hc)) rfl
  rw [readField, Field.text, hkey]
  simp only [ofList_eq_iff, if_neg f.ne_kind]
  by_cases hspace : f.IsNamespace
  · rw [if_pos hspace, if_pos hspace, if_pos (show f.key = _ from hspace), undoubled_doubled]
  · rw [if_neg hspace, if_neg hspace, if_neg (show ¬ f.key = _ from hspace)]

theorem foldl_readField (fs : List Field) :
    (fs.map Field.text).foldl readField found =
      (found.1, ((fs.filter (·.IsNamespace)).getLast?.map Field.value).getD found.2) := by
  induction fs generalizing found with
  | nil => rfl
  | cons f fs ih =>
    rw [List.map_cons, List.foldl_cons, readField_field, ih]
    by_cases hspace : f.IsNamespace
    · cases hlast : (fs.filter (·.IsNamespace)).getLast? <;>
        simp [hspace, hlast, List.getLast?_cons]
    · simp [hspace]

theorem IsCell.kindField (k : KindField) : IsCell k.text := by
  rw [KindField.text]
  split
  · exact ⟨by simp [k.cell.1], by simp [k.cell.2]⟩
  · exact k.cell

theorem IsCell.field (f : Field) : IsCell f.text := by
  have hvalue : IsCell (if f.IsNamespace then doubled f.value else f.value) := by
    split
    · exact ⟨fun h ↦ f.value_cell.1 (mem_of_mem_doubled h),
        fun h ↦ f.value_cell.2 (mem_of_mem_doubled h)⟩
    · exact f.value_cell
  rw [Field.text]
  exact ⟨by simp [f.key_cell.1, hvalue.1], by simp [f.key_cell.2, hvalue.2]⟩

theorem Entry.cells (e : Entry) : ∀ cs ∈ e.kind.text :: e.fields.map Field.text, IsCell cs :=
  List.forall_mem_cons.mpr ⟨.kindField e.kind, List.forall_mem_map.mpr fun f _ ↦ .field f⟩

def Entry.tag? (e : Entry) : Option Tag :=
  e.kind.offered?.map fun k ↦ ⟨e.name, k, e.namespaceName⟩

theorem Entry.ofLine?_text (e : Entry) : Tag.ofLine? e.text = e.tag? := by
  obtain ⟨more, hname⟩ : ∃ more, splitFirst? (· == '\t') e.text = some (e.name, more) := by
    rw [Entry.text, Entry.head, List.append_assoc, List.cons_append]
    refine ⟨_, splitFirst?_append (fun c hc ↦ ?_) rfl⟩
    simpa using fun heq : c = '\t' ↦ e.name_cell (heq ▸ hc)
  have hfields (fields : List Char) := splitAround?_append (x := ';') (by decide) e.first fields
  have hcells : splitBy (· == '\t') (['\t'].intercalate (e.kind.text :: e.fields.map Field.text)) =
      e.kind.text :: e.fields.map Field.text := by
    rw [splitBy_eq_splitOn]
    exact List.splitOn_intercalate _ (fun cs hcs ↦ (e.cells cs hcs).1) (List.cons_ne_nil _ _)
  rw [Tag.ofLine?, hname, Entry.text, Entry.head, hfields]
  simp only [Option.bind_eq_bind, Option.bind_some, hcells, List.foldl_cons, readField_kind,
    foldl_readField]
  rw [Entry.tag?]
  cases e.kind.offered? <;> rfl

theorem Entry.isHeader_text (e : Entry) : isHeader e.text = false := by
  refine Bool.eq_false_iff.mpr fun hheader ↦ ?_
  obtain ⟨rest, hrest⟩ := List.isPrefixOf_iff_prefix.mp hheader
  rw [Entry.text, Entry.head, List.append_assoc] at hrest
  obtain ⟨more, hname, -⟩ | ⟨more, hheader, hmore⟩ := List.append_eq_append_iff.mp hrest
  · exact e.plain ⟨more, hname.symm⟩
  · cases more with
    | nil => exact e.plain ⟨[], by simpa using hheader⟩
    | cons c more =>
      obtain ⟨rfl, -⟩ := List.cons.inj hmore
      have htab : '\t' ∉ "!_TAG_".toList := by decide
      exact htab (hheader ▸ List.mem_append_right e.name List.mem_cons_self)

theorem Line.isHeader_text (l : Line) : isHeader l.text = l.entry?.isNone := by
  cases l with
  | header rest whole => exact List.isPrefixOf_iff_prefix.mpr (List.prefix_append _ rest)
  | entry e => exact e.isHeader_text

theorem Line.text_header (rest : List Char) (whole : '\n' ∉ rest) :
    (header rest whole).text = "!_TAG_".toList ++ rest := rfl

theorem Line.text_entry (e : Entry) : (entry e).text = e.text := rfl

theorem Line.text_ne_nil (l : Line) : l.text ≠ [] := by
  cases l with
  | header rest whole =>
    rw [Line.text_header]
    exact List.append_ne_nil_of_left_ne_nil (by decide) rest
  | entry e =>
    rw [Line.text_entry, Entry.text, Entry.head]
    simp

theorem Line.whole_text (l : Line) : '\n' ∉ l.text := by
  cases l with
  | header rest whole =>
    have hmark : '\n' ∉ "!_TAG_".toList := by decide
    rw [Line.text_header, List.mem_append]
    exact fun h ↦ h.elim hmark whole
  | entry e =>
    have hcells : '\n' ∉ ['\t'].intercalate (e.kind.text :: e.fields.map Field.text) := by
      intro h
      obtain h | ⟨cs, hcs, h⟩ := mem_of_mem_intercalate h
      · cases h
      · exact (e.cells cs hcs).2 h
    rw [Line.text_entry, Entry.text, List.mem_append, List.mem_append]
    rintro (h | h | h)
    · exact e.whole h
    · exact absurd h (by decide)
    · exact hcells h

theorem lines_endedLine (l : EndedLine) (rest : List Char) :
    Text.lines (l.text ++ rest) = l.line.text :: Text.lines rest := by
  have hwhole := l.line.whole_text
  rw [EndedLine.text]
  cases hreturn : l.hasReturn with
  | true =>
    rw [if_pos rfl, List.append_cons _ '\r', List.append_assoc, List.singleton_append,
      lines_append (by simpa using hwhole), dropCarriageReturn_concat]
  | false =>
    rw [if_neg (by simp), List.append_assoc, List.singleton_append, lines_append hwhole,
      dropCarriageReturn_eq_self (l.unmistaken hreturn)]

theorem Written.lines_text (w : Written) : Text.lines w.text = w.lines.map Line.text := by
  rw [Written.text, Written.lines]
  induction w.ended with
  | nil =>
    cases w.last? with
    | none => rfl
    | some last => exact lines_of_not_mem last.whole_text last.text_ne_nil
  | cons l ls ih =>
    rw [List.flatMap_cons, List.append_assoc, lines_endedLine, ih]
    rfl

theorem tagsOf_text (w : Written) : tagsOf w.text = w.entries.filterMap Entry.tag? := by
  rw [tagsOf, w.lines_text, Written.entries, List.filterMap_filter, List.filterMap_map,
    List.filterMap_filterMap]
  refine List.filterMap_congr fun l _ ↦ ?_
  rw [Function.comp_apply, l.isHeader_text]
  cases l with
  | header rest whole => rfl
  | entry e => exact e.ofLine?_text

/-- The classes and interfaces whose name starts as asked for, in the order of the file. -/
theorem lookup_written (w : Written) (minLength : Nat) (start : String) :
    TagsIndex.lookup ⟨.text w.text, minLength⟩ start =
      (w.entries.filter (·.IsFor start)).filterMap Entry.item? := by
  have htags : TagsIndex.tags ⟨.text w.text, minLength⟩ = w.entries.filterMap Entry.tag? :=
    tagsOf_text w
  rw [TagsIndex.lookup, htags, List.filter_filterMap, List.map_filterMap, List.filterMap_filter]
  refine List.filterMap_congr fun e _ ↦ ?_
  have hstart : startsWith (lowerCase start.toList) (lowerCase e.name) = decide (e.IsFor start) :=
    Bool.eq_iff_iff.mpr (List.isPrefixOf_iff_prefix.trans decide_eq_true_iff.symm)
  cases hkind : e.kind.offered? with
  | none => simp [Entry.tag?, Entry.item?, hkind]
  | some k =>
    by_cases hfor : e.IsFor start <;>
      simp [Entry.tag?, Entry.item?, hkind, hstart, hfor, TagsIndex.itemOf]

def namespacedClass : Entry where
  name := ['K']
  path := ['p']
  address := ['7']
  kind := ⟨false, ['c'], by decide, by decide⟩
  fields := [⟨"namespace".toList, "A\\B".toList, by decide +kernel, by decide, by decide +kernel,
    by decide +kernel⟩]
  name_cell := by decide
  plain := mt List.IsPrefix.length_le (by decide)
  whole := by decide
  first := by decide

example :
    (Written.mk [⟨.header "FILE_SORTED\t1".toList (by decide +kernel), true, nofun⟩]
      (some (.entry namespacedClass))).text =
        "!_TAG_FILE_SORTED\t1\r\nK\tp\t7;\"\tc\tnamespace:A\\\\B".toList := by
  decide +kernel

end TagsFile

end Completion

end PhpInsight

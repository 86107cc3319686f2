import PhpInsight.Grammar.File
import PhpInsight.Proofs.Imports.Resolution
import PhpInsight.Proofs.Reading.Lexical

namespace PhpInsight

open Peg Peg.Parser Text

namespace Grammar

structure ImportItem where
  parts : List String
  aliasName : Option String

namespace ImportItem

def isWritten (i : ImportItem) : Bool :=
  isPathOfWords i.parts && i.aliasName.all (isWordText ·.toList)

def aliasText : Option String → List Char
  | none => []
  | some a => ' ' :: ("as".toList ++ ' ' :: a.toList)

def text (full : Bool) (i : ImportItem) : List Char :=
  pathText full i.parts ++ aliasText i.aliasName

def under (group : List String) (i : ImportItem) : ImportItem :=
  { i with parts := group ++ i.parts }

def imported (kind : NameKind) (i : ImportItem) : Imported where
  parts := i.parts
  kind := kind
  aliasName := i.aliasName
  localName := i.aliasName.getD (i.parts.getLastD "")

end ImportItem

open ImportItem

def kindText : UseKind → List Char
  | .normal => []
  | .function => "function".toList ++ [' ']
  | .const => "const".toList ++ [' ']

def othersText (full : Bool) (items : List ImportItem) : List Char :=
  items.flatMap fun i ↦ ',' :: ' ' :: i.text full

def itemsText (full : Bool) : List ImportItem → List Char
  | [] => []
  | i :: items => i.text full ++ othersText full items

def trailingText (trailing : Bool) : List Char := if trailing then [','] else []

/-- Items in braces, behind the name that they are under. -/
def groupClause (full : Bool) (group : List String) (items : List ImportItem) (trailing : Bool) :
    List Char :=
  pathText full group ++ '\\' :: '\x7b' ::
    (itemsText false items ++ (trailingText trailing ++ ['\x7d']))

/-- The same items with the name written in front of each of them. -/
def expandedClause (full : Bool) (group : List String) (items : List ImportItem) : List Char :=
  itemsText full (items.map (under group))

def useText (kind : UseKind) (clause : List Char) : List Char :=
  "use".toList ++ ' ' :: (kindText kind ++ (clause ++ [';']))

variable {full : Bool} {rest : List Char} {items : List ImportItem}

structure ImportItem.Reads (full : Bool) (i : ImportItem) (u : UseItem) : Prop where
  parts : u.name.parts = i.parts
  kind : u.name.kind = Name.kindOf full i.parts
  aliasName : u.aliasName.map Identifier.name = i.aliasName

def itemEnds : List Char := [',', ';', '\x7d']

theorem endsWord_of_heads {heads : List Char} (h : Heads heads rest)
    (hheads : heads.all (!isWordChar ·) = true) : EndsWord rest := fun x hx ↦ by
  simpa using List.all_eq_true.mp hheads x (h x hx)

theorem endsName_of_heads {heads : List Char} (h : Heads heads rest)
    (hheads : heads.all (!isWordChar ·) = true) (hslash : '\\' ∉ heads) : EndsName rest :=
  ⟨endsWord_of_heads h hheads, fun x hx he ↦ hslash (he ▸ h x hx)⟩

theorem solid_word {text : List Char} (h : isWordText text = true) : Solid (text ++ rest) := by
  have hpath : isPathOfWords [String.ofList text] = true := by
    simpa [isPathOfWords, String.toList_ofList] using h
  have hsolid : Solid (pathText false [String.ofList text] ++ rest) := solid_pathText hpath
  simpa [pathText, segmentsText, String.toList_ofList] using hsolid

theorem yields_identifier {text : List Char} (hw : isWordText text = true)
    (hrest : EndsWord rest) : Yields identifier text rest (·.name.toList = text) := by
  refine .bind_nil .position fun _ _ ↦ ?_
  refine .map (yields_word hw hrest) fun _ h ↦ ?_
  exact .bind_nil .position fun _ _ ↦ .pure h

theorem yields_alias {a : Option String} (ha : a.all (isWordText ·.toList) = true)
    (hrest : Heads itemEnds rest) :
    Yields (optionalAfter do keyword "as"; trivia; identifier) (aliasText a) rest
      (·.map Identifier.name = a) := by
  cases a with
  | none =>
    have hsolid : Solid rest := hrest.solid (by decide)
    refine .imp (.optional_none (.bind_nil (accepts_trivia_nil hsolid) fun _ _ ↦
      .bind (hrest.rejects_keyword (by decide)))) fun o ho ↦ ?_
    rw [ho]
    rfl
  | some a =>
    have hword : isWordText a.toList = true := ha
    have hsolid : Solid ("as".toList ++ ' ' :: a.toList ++ rest) :=
      (heads_cons (List.mem_singleton_self 'a')).solid (by decide)
    refine .imp (.optional (.bind_head (accepts_trivia_blank hsolid) fun _ _ ↦
      .bind (accepts_keyword (by decide) (endsWord_cons (by decide)) (by decide)) fun _ _ ↦
      .bind_head (accepts_trivia_blank (solid_word hword)) fun _ _ ↦
      yields_identifier hword (endsWord_of_heads hrest (by decide)))) fun o ho ↦ ?_
    obtain ⟨i, rfl, hi⟩ := ho
    exact congrArg some (String.toList_inj.mp hi)

theorem endsName_aliasText {a : Option String} (hrest : Heads itemEnds rest) :
    EndsName (aliasText a ++ rest) := by
  cases a with
  | none => exact endsName_of_heads hrest (by decide) (by decide)
  | some a =>
    exact endsName_of_heads (heads_cons (List.mem_singleton_self ' ')) (by decide) (by decide)

theorem yields_useItem {i : ImportItem} (hi : i.isWritten = true) (hrest : Heads itemEnds rest) :
    Yields useItem (i.text full) rest (i.Reads full) := by
  obtain ⟨hparts, halias⟩ := Bool.and_eq_true_iff.mp hi
  refine .bind_nil .position fun start _ ↦ ?_
  refine .bind (yields_name hparts (endsName_aliasText hrest)) fun n hn ↦ ?_
  obtain ⟨span, rfl⟩ := hn
  refine .map (yields_alias halias hrest) fun a ha ↦ ?_
  exact .bind_nil .position fun stop _ ↦ .pure ⟨rfl, rfl, ha⟩

theorem heads_othersText (hrest : Heads itemEnds rest) :
    Heads itemEnds (othersText full items ++ rest) := by
  cases items with
  | nil => exact hrest
  | cons i items => exact heads_cons (by decide)

theorem solid_comma : Solid (',' :: rest) :=
  (heads_cons (List.mem_singleton_self ',')).solid (by decide)

theorem accepts_comma (h : Solid rest) : Accepts comma [',', ' '] rest := by
  refine .bind_nil (accepts_trivia_nil solid_comma) fun _ _ ↦ ?_
  refine .bind_head (.literal ",") fun _ _ ↦ ?_
  exact accepts_trivia_blank h

theorem solid_text {i : ImportItem} (hi : i.isWritten = true) : Solid (i.text full ++ rest) := by
  rw [ImportItem.text, List.append_assoc]
  exact solid_pathText (Bool.and_eq_true_iff.mp hi).1

theorem repeats_others (hitems : ∀ i ∈ items, i.isWritten = true) (hrest : Heads itemEnds rest)
    (hstop : Rejects (do comma; useItem) rest) :
    Repeats (do comma; useItem) (othersText full items) rest
      (List.Forall₂ (ImportItem.Reads full) items) := by
  induction items with
  | nil => exact .stop hstop .nil
  | cons i items ih =>
    have hi := hitems i List.mem_cons_self
    have hstep : Yields (do comma; useItem) (',' :: ' ' :: i.text full)
        (othersText full items ++ rest) (i.Reads full) :=
      @Yields.bind _ _ _ _ [',', ' '] _ _ _ _ (accepts_comma (solid_text hi)) fun _ _ ↦
        yields_useItem hi (heads_othersText hrest)
    refine .next (List.cons_ne_nil _ _) hstep fun u hu ↦ ?_
    intro fuel n hlength
    obtain ⟨us, f, hm, hus⟩ :=
      ih (fun j hj ↦ hitems j (List.mem_cons_of_mem _ hj)) fuel n hlength
    exact ⟨us, f, hm, .cons hu hus⟩

theorem yields_items (hne : items ≠ []) (hitems : ∀ i ∈ items, i.isWritten = true)
    (hrest : Heads itemEnds rest) (hstop : Rejects (do comma; useItem) rest) :
    Yields (sepBy1 useItem comma) (itemsText full items) rest
      (List.Forall₂ (ImportItem.Reads full) items) := by
  cases items with
  | nil => exact absurd rfl hne
  | cons i items =>
    have hothers : Repeats (do comma; useItem) (othersText full items) rest
        (List.Forall₂ (ImportItem.Reads full) items) :=
      repeats_others (fun j hj ↦ hitems j (List.mem_cons_of_mem _ hj)) hrest hstop
    have hfirst := hitems i List.mem_cons_self
    refine .bind (yields_useItem hfirst (heads_othersText hrest)) fun u hu ↦ ?_
    exact .map hothers.many fun us hus ↦ .pure (.cons hu hus)

/-- What the items of an import under a name are read as. -/
def importedUnder (full : Bool) (group : List String) (items : List ImportItem) : List Imported :=
  items.map fun i ↦ (i.under group).imported (if full then .fullyQualified else .qualified)

theorem imported_eq {u : UseItem} {i : ImportItem} {kind : NameKind}
    (hparts : u.name.parts = i.parts) (hkind : u.name.kind = kind)
    (halias : u.aliasName.map Identifier.name = i.aliasName) :
    u.imported = i.imported kind := by
  rw [UseItem.imported, UseItem.localName_eq, Name.last, hparts, hkind, halias,
    ImportItem.imported]

section

variable {group : List String} (hgroup : isPathOfWords group = true)
  (hitems : ∀ i ∈ items, i.isWritten = true)

theorem isWritten_under {i : ImportItem} (hgroup : isPathOfWords group = true)
    (hi : i.isWritten = true) : (i.under group).isWritten = true := by
  obtain ⟨hparts, halias⟩ := Bool.and_eq_true_iff.mp hi
  obtain ⟨hne, hwords⟩ := Bool.and_eq_true_iff.mp hgroup
  refine Bool.and_eq_true_iff.mpr ⟨Bool.and_eq_true_iff.mpr ⟨?_, ?_⟩, halias⟩
  · simpa [under] using fun h ↦ absurd h (by simpa using hne)
  · rw [under, List.all_append, hwords, (Bool.and_eq_true_iff.mp hparts).2]
    rfl

theorem kindOf_append {parts : List String} (hgroup : isPathOfWords group = true)
    (hparts : isPathOfWords parts = true) :
    Name.kindOf full (group ++ parts) = if full then .fullyQualified else .qualified := by
  cases group with
  | nil => cases hgroup
  | cons g gs =>
    cases parts with
    | nil => cases hparts
    | cons p ps => simp [Name.kindOf]

theorem isFullyQualified_ofParts (parts : List String) (span : Span) :
    (Name.ofParts full parts span).isFullyQualified = full := by
  cases full
  · simp only [Name.isFullyQualified, Name.ofParts, Name.kindOf, Bool.false_eq_true, if_false]
    split <;> rfl
  · rfl

theorem imported_grouped (span : Span) {us : List UseItem}
    (h : List.Forall₂ (ImportItem.Reads false) items us) :
    (us.map (groupedUse (.ofParts full group span))).map UseItem.imported =
      importedUnder full group items := by
  rw [List.map_map]
  induction h with
  | nil => rfl
  | cons hread _ ih =>
    rw [List.map_cons, ih, importedUnder, importedUnder, List.map_cons]
    refine congrArg (· :: _) (imported_eq ?_ ?_ hread.aliasName)
    · exact congrArg (group ++ ·) hread.parts
    · rw [groupedUse, isFullyQualified_ofParts]

include hgroup hitems

theorem imported_expanded {us : List UseItem}
    (h : List.Forall₂ (ImportItem.Reads full) (items.map (under group)) us) :
    us.map UseItem.imported = importedUnder full group items := by
  induction items generalizing us with
  | nil =>
    cases h
    rfl
  | cons i items ih =>
    cases h with
    | cons hread hreads =>
      have hi := Bool.and_eq_true_iff.mp (hitems i List.mem_cons_self)
      rw [List.map_cons, ih (fun j hj ↦ hitems j (List.mem_cons_of_mem _ hj)) hreads,
        importedUnder, importedUnder, List.map_cons]
      exact congrArg (· :: _)
        (imported_eq hread.parts (hread.kind.trans (kindOf_append hgroup hi.1)) hread.aliasName)

end

theorem heads_brace : Heads ['\x7d'] ('\x7d' :: rest) := heads_cons (List.mem_singleton_self _)

theorem solid_brace : Solid ('\x7d' :: rest) := heads_brace.solid (by decide)

theorem rejects_useItem : Rejects useItem ('\x7d' :: rest) := by
  have hslash : Accepts (isPresent (literal "\\")) [] ('\x7d' :: rest) :=
    .map (.optional_none (heads_brace.rejects_literal (by decide))) fun _ _ ↦ .pure trivial
  have hname : Rejects name ('\x7d' :: rest) := by
    refine .bind_nil .position fun _ _ ↦ ?_
    refine .bind_nil hslash fun _ _ ↦ ?_
    exact .bind (heads_brace.rejects_word (by decide))
  exact .bind_nil .position fun _ _ ↦ .bind hname

theorem rejects_next (trailing : Bool) :
    Rejects (do comma; useItem) (trailingText trailing ++ '\x7d' :: rest) := by
  cases trailing with
  | false =>
    exact .bind (.bind_nil (accepts_trivia_nil solid_brace) fun _ _ ↦
      .bind (heads_brace.rejects_literal (by decide)))
  | true =>
    have hcomma : Accepts comma [','] ('\x7d' :: rest) := by
      refine .bind_nil (accepts_trivia_nil solid_comma) fun _ _ ↦ ?_
      refine .map (.literal ",") fun _ _ ↦ ?_
      exact accepts_trivia_nil solid_brace
    exact .bind_of_yields hcomma fun _ _ ↦ rejects_useItem

theorem accepts_trailingComma (trailing : Bool) :
    Accepts trailingComma (trailingText trailing) ('\x7d' :: rest) := by
  cases trailing with
  | false =>
    have hnone : Rejects (do trivia; literal ",") ('\x7d' :: rest) :=
      .bind_nil (accepts_trivia_nil solid_brace) fun _ _ ↦ heads_brace.rejects_literal (by decide)
    exact .map (.optional_none hnone) fun _ _ ↦ .pure trivial
  | true =>
    have hcomma : Accepts (do trivia; literal ",") [','] ('\x7d' :: rest) :=
      .bind_nil (accepts_trivia_nil solid_comma) fun _ _ ↦ .literal ","
    exact .map (.optional hcomma) fun _ _ ↦ .pure trivial

theorem solid_itemsText (hne : items ≠ []) (hitems : ∀ i ∈ items, i.isWritten = true) :
    Solid (itemsText full items ++ rest) := by
  cases items with
  | nil => exact absurd rfl hne
  | cons i items =>
    rw [itemsText, List.append_assoc]
    exact solid_text (hitems i List.mem_cons_self)

section

variable {group : List String} (hgroup : isPathOfWords group = true) (hne : items ≠ [])
  (hitems : ∀ i ∈ items, i.isWritten = true)

include hgroup hne hitems

/-- The name gives back the separator in front of the brace. -/
theorem yields_groupClause (trailing : Bool) :
    Yields useClause (groupClause full group items trailing) (';' :: rest)
      (·.map UseItem.imported = importedUnder full group items) := by
  have hslash (more : List Char) : EndsWord ('\\' :: more) := endsWord_cons (by decide)
  have hbrace (more : List Char) : Heads ['\x7b'] ('\x7b' :: more) :=
    heads_cons (List.mem_singleton_self _)
  have hstop (more : List Char) :
      Rejects (do literal "\\"; word) ('\\' :: '\x7b' :: more) :=
    .bind_head (.literal "\\") fun _ _ ↦ (hbrace more).rejects_word (by decide)
  refine .orElse (.bind (yields_name_before hgroup (hslash _) (hstop _)) fun n hn ↦ ?_)
  obtain ⟨span, rfl⟩ := hn
  refine .bind_head (.literal "\\") fun _ _ ↦
    .bind_nil (accepts_trivia_nil ((hbrace _).solid (by decide))) fun _ _ ↦
    .bind_head (.literal "\x7b") fun _ _ ↦ .bind_nil (accepts_trivia_nil ?_) fun _ _ ↦
    .bind (yields_items hne hitems ?_ ?_) fun us hus ↦
    .bind (accepts_trailingComma trailing) fun _ _ ↦
    .bind_nil (accepts_trivia_nil solid_brace) fun _ _ ↦
    .map (.literal "\x7d") fun _ _ ↦ .pure (imported_grouped span hus)
  · rw [List.append_assoc]
    exact solid_itemsText hne hitems
  · cases trailing <;> exact heads_cons (by decide)
  · rw [List.append_assoc]
    exact rejects_next trailing

theorem yields_expandedClause :
    Yields useClause (expandedClause full group items) (';' :: rest)
      (·.map UseItem.imported = importedUnder full group items) := by
  have hends : Heads itemEnds (';' :: rest) := heads_cons (by decide)
  have hsemicolon : Heads [';'] (';' :: rest) := heads_cons (List.mem_singleton_self _)
  have hunder : ∀ i ∈ items.map (under group), i.isWritten = true := by
    intro i hi
    obtain ⟨j, hj, rfl⟩ := List.mem_map.mp hi
    exact isWritten_under hgroup (hitems j hj)
  have hcomma : Rejects (do comma; useItem) (';' :: rest) :=
    .bind (.bind_nil (accepts_trivia_nil (hsemicolon.solid (by decide))) fun _ _ ↦
      .bind (hsemicolon.rejects_literal (by decide)))
  have hitemsText : Yields (sepBy1 useItem comma) (expandedClause full group items) (';' :: rest)
      (·.map UseItem.imported = importedUnder full group items) :=
    (yields_items (by simpa using hne) hunder hends hcomma).imp fun _ h ↦
      imported_expanded hgroup hitems h
  refine .orElse_of_rejects ?_ hitemsText
  -- The whole path is read as the name of a group, and no separator stands behind it.
  obtain ⟨i, more, hmore⟩ := List.exists_cons_of_ne_nil hne
  have hi : isPathOfWords (i.under group).parts = true :=
    (Bool.and_eq_true_iff.mp (hunder _ (by rw [hmore]; exact List.mem_cons_self))).1
  have hend : EndsName (aliasText i.aliasName ++ (othersText full (more.map (under group)) ++
      ';' :: rest)) := endsName_aliasText (heads_othersText hends)
  have htext : expandedClause full group items ++ ';' :: rest =
      pathText full (i.under group).parts ++ (aliasText i.aliasName ++
        (othersText full (more.map (under group)) ++ ';' :: rest)) := by
    simp only [expandedClause, hmore, List.map_cons, itemsText, ImportItem.text, List.append_assoc,
      under]
  rw [htext]
  exact .bind_of_yields (yields_name hi hend) fun _ _ ↦ .bind (.literal_head rfl hend.segment)

end

def startsImport (parts : List String) : Bool :=
  !sameIgnoringCase (parts.headD "") "function" && !sameIgnoringCase (parts.headD "") "const"

theorem startsImport_append {group parts : List String} (hgroup : isPathOfWords group = true)
    (h : startsImport group = true) : startsImport (group ++ parts) = true := by
  cases group with
  | nil => cases hgroup
  | cons g gs => exact h

theorem rejects_useKind {parts : List String} {more : List Char}
    (hparts : isPathOfWords parts = true) (hstart : startsImport parts = true)
    (hmore : EndsWord more) : Rejects useKind (pathText full parts ++ more) := by
  cases parts with
  | nil => cases hparts
  | cons first others =>
    cases full with
    | true =>
      have hheads : Heads ['\\'] (pathText true (first :: others) ++ more) :=
        heads_cons (List.mem_singleton_self _)
      exact .orElse (.bind (hheads.rejects_keyword (by decide)))
        (.bind (hheads.rejects_keyword (by decide)))
    | false =>
      have hword : isWordText first.toList = true := by
        simp only [isPathOfWords, List.all_cons, Bool.and_eq_true] at hparts
        exact hparts.2.1
      have hend : EndsWord (segmentsText others ++ more) := endsWord_segmentsText hmore
      obtain ⟨hfunction, hconst⟩ := Bool.and_eq_true_iff.mp hstart
      have hother {s : String} (h : (!sameIgnoringCase first s) = true) :
          Rejects (keyword s) (pathText false (first :: others) ++ more) := by
        have hreject : Rejects (keyword s) (first.toList ++ (segmentsText others ++ more)) :=
          rejects_keyword hword hend (by rwa [String.ofList_toList, ← Bool.not_eq_true'])
        simpa [pathText] using hreject
      exact .orElse (.bind (hother hfunction)) (.bind (hother hconst))

theorem solid_kindText {kind : UseKind} {clause : List Char} (h : Solid clause) :
    Solid (kindText kind ++ clause) := by
  cases kind with
  | normal => exact h
  | function =>
    have hword : isSolid ("function".toList ++ [' ']) = true := by decide
    exact solid_append hword clause
  | const =>
    have hword : isSolid ("const".toList ++ [' ']) = true := by decide
    exact solid_append hword clause

theorem yields_kind {kind : UseKind} {clause : List Char} (hsolid : Solid clause)
    (hnormal : Rejects useKind clause) :
    Yields (optional useKind) (kindText kind) clause (·.getD .normal = kind) := by
  have hword {s : String} {text : List Char} (hw : isWordText text = true)
      (hs : sameIgnoringCase (String.ofList text) s = true) (k : UseKind) :
      Yields (do keyword s; trivia; return k) (text ++ [' ']) clause (· = k) := by
    refine .bind (accepts_keyword hw (endsWord_cons (by decide)) hs) fun _ _ ↦ ?_
    exact .map (accepts_trivia_blank hsolid) fun _ _ ↦ .pure rfl
  have hgetD {k : UseKind} (o : Option UseKind) (h : ∃ a, o = some a ∧ a = k) :
      o.getD .normal = k := by
    obtain ⟨_, rfl, rfl⟩ := h
    rfl
  cases kind with
  | normal =>
    refine (Yields.optional_none hnormal).imp fun o ho ↦ ?_
    rw [ho]
    rfl
  | function =>
    exact (Yields.optional (.orElse (hword (by decide) (by decide) _))).imp hgetD
  | const =>
    refine (Yields.optional (.orElse_of_rejects (.bind ?_)
      (hword (by decide) (by decide) _))).imp hgetD
    have hreject : Rejects (keyword "function") ("const".toList ++ ' ' :: clause) :=
      rejects_keyword (by decide) (endsWord_cons (by decide)) (by decide)
    exact hreject

theorem yields_use {g : Rules} {kind : UseKind} {clause : List Char} {imports : List Imported}
    (hsolid : Solid (clause ++ ';' :: rest)) (hkind : Rejects useKind (clause ++ ';' :: rest))
    (h : Yields useClause clause (';' :: rest) (·.map UseItem.imported = imports)) :
    Yields (statement g) (useText kind clause) rest (Stmt.Imports kind imports) := by
  have hblank : EndsWord (' ' :: (kindText kind ++ (clause ++ [';'])) ++ rest) :=
    endsWord_cons (by decide)
  have hbehind : Solid (kindText kind ++ (clause ++ [';']) ++ rest) := by
    rw [List.append_assoc, List.append_assoc]
    exact solid_kindText hsolid
  have hsemicolon : Solid (';' :: rest) :=
    (heads_cons (List.mem_singleton_self ';')).solid (by decide)
  have huse : Yields useStatement (useText kind clause) rest
      fun k ↦ ∃ us, k = .use kind us ∧ us.map UseItem.imported = imports := by
    refine .bind (accepts_keyword (by decide) hblank (by decide)) fun _ _ ↦
      .bind_head (accepts_trivia_blank hbehind) fun _ _ ↦ .bind ?_ fun o ho ↦
      .bind h fun us hus ↦ .bind_nil (accepts_trivia_nil hsemicolon) fun _ _ ↦
      .map (.literal ";") fun _ _ ↦ .pure ⟨us, congrArg (StmtKind.use · us) ho, hus⟩
    rw [List.append_assoc]
    exact yields_kind hsolid hkind
  have hnamespace : Rejects (namespaceStatement g) (useText kind clause ++ rest) := by
    have hother : Rejects (keyword "namespace") (useText kind clause ++ rest) := by
      rw [useText, List.append_assoc]
      exact rejects_keyword (by decide) hblank (by decide)
    exact .orElse (.bind hother) (.bind hother)
  refine .bind_nil .position fun _ _ ↦ ?_
  refine .map (.orElse_of_rejects hnamespace (.orElse huse)) fun k hk ↦ ?_
  exact .bind_nil .position fun _ _ ↦ .pure hk

section

variable {group : List String} (hgroup : isPathOfWords group = true)
  (hstart : startsImport group = true) (hne : items ≠ [])
  (hitems : ∀ i ∈ items, i.isWritten = true)

include hgroup hstart hne hitems

theorem yields_group (g : Rules) (kind : UseKind) (trailing : Bool) :
    Yields (statement g) (useText kind (groupClause full group items trailing)) rest
      (Stmt.Imports kind (importedUnder full group items)) := by
  refine yields_use ?_ ?_ (yields_groupClause hgroup hne hitems trailing)
  · rw [groupClause, List.append_assoc]
    exact solid_pathText hgroup
  · rw [groupClause, List.append_assoc]
    exact rejects_useKind hgroup hstart (endsWord_cons (by decide))

theorem yields_expanded (g : Rules) (kind : UseKind) :
    Yields (statement g) (useText kind (expandedClause full group items)) rest
      (Stmt.Imports kind (importedUnder full group items)) := by
  obtain ⟨i, more, hmore⟩ := List.exists_cons_of_ne_nil hne
  have hunder : isPathOfWords (group ++ i.parts) = true :=
    (Bool.and_eq_true_iff.mp (isWritten_under hgroup (hitems i (by rw [hmore]; simp)))).1
  have hends : Heads itemEnds (';' :: rest) := heads_cons (by decide)
  have htext : expandedClause full group items ++ ';' :: rest =
      pathText full (group ++ i.parts) ++ (aliasText i.aliasName ++
        (othersText full (more.map (under group)) ++ ';' :: rest)) := by
    simp only [expandedClause, hmore, List.map_cons, itemsText, ImportItem.text, List.append_assoc,
      under]
  refine yields_use ?_ ?_ (yields_expandedClause hgroup hne hitems) <;> rw [htext]
  · exact solid_pathText hunder
  · exact rejects_useKind hunder (startsImport_append hgroup hstart)
      (endsName_aliasText (heads_othersText hends)).word

end

end Grammar

end PhpInsight

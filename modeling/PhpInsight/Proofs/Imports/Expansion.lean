import PhpInsight.Proofs.Imports.Group
import PhpInsight.Proofs.Reading.Names
import PhpInsight.Proofs.Span.Quoting
import PhpInsight.Proofs.SyntaxError.Position

namespace PhpInsight

open Peg Peg.Parser Text

/-- Statements of two files are alike up to a place where a statement starts in both: one of their
own, or one of a namespace in braces. -/
inductive AlikeUpTo (place : Nat) : List Stmt → List Stmt → Prop
  | here {before before' after after' : List Stmt} {s s' : Stmt}
    (alike : List.Forall₂ (Stmt.Like sameTexts) before before') (start : s.span.start = place)
    (start' : s'.span.start = place) :
    AlikeUpTo place (before ++ s :: after) (before' ++ s' :: after')
  | within {before before' after after' b b' : List Stmt} {n n' : Option Name} {span span' : Span}
    (alike : List.Forall₂ (Stmt.Like sameTexts) before before')
    (name : Option.Rel (Name.Like sameTexts) n n') (body : AlikeUpTo place b b') :
    AlikeUpTo place (before ++ ⟨.namespace n (some b), span⟩ :: after)
      (before' ++ ⟨.namespace n' (some b'), span'⟩ :: after')

namespace Grammar

theorem start_document (source : List Char) (s : Stmt) :
    (document source s).span.start = s.span.start :=
  congrArg Span.start (span_documented source (.stmt s))

theorem document_eq_namespace {source : List Char} {s : Stmt} {n : Option Name} {b : List Stmt}
    {span : Span} (h : document source s = ⟨.namespace n (some b), span⟩) :
    ∃ b₀, s = ⟨.namespace n (some b₀), span⟩ ∧ documentAll source b₀ = b := by
  obtain ⟨k, _⟩ := s
  cases k with
  | «namespace» _ body =>
    cases body <;> cases h
    exact ⟨_, rfl, rfl⟩
  | _ => cases h

theorem documentAll_eq_append {source : List Char} {ss before after : List Stmt} {s : Stmt}
    (h : documentAll source ss = before ++ s :: after) :
    ∃ before₀ s₀ after₀, ss = before₀ ++ s₀ :: after₀ ∧ document source s₀ = s ∧
      documentAll source after₀ = after := by
  rw [documentAll_eq_map] at h
  obtain ⟨before₀, more, rfl, -, hmore⟩ := List.map_eq_append_iff.mp h
  obtain ⟨s₀, after₀, rfl, hs, hafter⟩ := List.map_eq_cons_iff.mp hmore
  exact ⟨before₀, s₀, after₀, rfl, hs, (documentAll_eq_map _ _).trans hafter⟩

theorem document_of_imports {source : List Char} {s : Stmt} {kind : UseKind}
    {imports : List Imported} (h : s.Imports kind imports) : document source s = s := by
  obtain ⟨k, span⟩ := s
  obtain ⟨us, rfl, -⟩ := h
  rfl

variable {source front text back : List Char} {n : Nat} {c mid : Cursor} {s : Stmt} {f : Failures}

theorem start_of_statement (h : (Rules.ofDepth n).statement c = .matched s mid f) :
    s.span.start = c.offset := by
  cases n with
  | zero => cases h
  | succ n =>
    obtain ⟨start, next, _, _, hstart, hrest⟩ := bind_eq_matched h
    cases hstart
    have hspan : Gives (do
        let kind ← statementKind (Rules.ofDepth n)
        return (⟨kind, ⟨c.offset, ← position⟩⟩ : Stmt)) fun s ↦ s.span.start = c.offset := by
      exact .after fun _ ↦ .after fun _ ↦ .pure rfl
    exact hspan _ _ _ _ hrest

theorem reads_at {Q : Stmt → Prop} (hread : ∀ g, Yields (statement g) text back Q)
    (hsource : source = front ++ (text ++ back)) (hc : c.In source)
    (h : (trivia >>= fun _ ↦ (Rules.ofDepth n).statement) c = .matched s mid f)
    (hstart : s.span.start = byteLength front) : Q s ∧ mid.rest = back := by
  obtain ⟨_, c₁, _, _, htrivia, hs⟩ := bind_eq_matched h
  obtain ⟨before, hbefore, hoffset⟩ := (Located.of_matched hc htrivia).1
  have hlength : byteLength front = byteLength before := by
    rw [hoffset, ← start_of_statement hs, hstart]
  obtain ⟨-, hrest⟩ := append_inj_of_byteLength (hsource.symm.trans hbefore) hlength
  cases n with
  | zero => cases hs
  | succ n =>
    obtain ⟨a, g, hm, ha⟩ := hread (.ofDepth n) c₁.offset
    rw [hrest] at hm
    have hm' : (Rules.ofDepth (n + 1)).statement c₁ = _ := hm
    rw [hs] at hm'
    cases hm'
    exact ⟨ha, rfl⟩

def braceOpening : Parser (Option Name) := do
  keyword "namespace"
  trivia
  let n ← optionalBefore name
  literal "\x7b"
  return n

def braceEnd : Parser Unit := do
  trivia
  literal "\x7d"

instance (source : List Char) : Located source braceOpening := by
  unfold braceOpening
  infer_instance

theorem braceOpening_takes (k : Nat) : TakesBelow (k + 1) braceOpening := by
  refine takesBelow_of_firm (d := []) (e := []) (R := Option.Rel (Name.Like .shape)) ?_
  refine .token (Frame.firm_keyword _) ?_
  refine (Frame.steady_optionalBefore Frame.firm_name.steady).bind fun _ _ hname ↦ ?_
  exact (Frame.firm_literal (by decide)).steady.bind_eq fun _ ↦ .pure hname

theorem reads_braces {g : Rules} {name : Option Name} {b : List Stmt}
    (h : namespaceStatement g c = .matched (.namespace name (some b)) mid f) :
    ∃ start stop f₁ f₂ f₃, braceOpening c = .matched name start f₁ ∧
      statements g start = .matched b stop f₂ ∧ braceEnd stop = .matched () mid f₃ := by
  obtain ⟨_, h | h⟩ := orElse_eq_matched h
  · have hopen : Gives (do
        keyword "namespace"
        trivia
        let n ← Grammar.name
        trivia
        literal ";"
        return StmtKind.namespace (some n) none) fun k ↦ ∀ n b, k ≠ .namespace n (some b) :=
      .after fun _ ↦ .after fun _ ↦ .after fun _ ↦ .after fun _ ↦ .after fun _ ↦ .pure nofun
    exact absurd rfl (hopen _ _ _ _ h _ _)
  · obtain ⟨_, c₂, _, _, hkeyword, h⟩ := bind_eq_matched h
    obtain ⟨_, c₃, _, _, htrivia, h⟩ := bind_eq_matched h
    obtain ⟨_, c₄, _, _, hname, h⟩ := bind_eq_matched h
    obtain ⟨_, c₅, _, _, hblock, h⟩ := bind_eq_matched h
    cases h
    obtain ⟨_, c₆, _, _, hbrace, hblock⟩ := bind_eq_matched hblock
    obtain ⟨_, c₇, _, _, hbody, hblock⟩ := bind_eq_matched hblock
    obtain ⟨_, c₈, _, _, hskip, hblock⟩ := bind_eq_matched hblock
    obtain ⟨_, c₉, _, _, hclose, hblock⟩ := bind_eq_matched hblock
    cases hblock
    have hopening : ∃ f, braceOpening c = .matched name c₆ f :=
      ⟨_, bind_of_matched hkeyword (bind_of_matched htrivia
        (bind_of_matched hname (bind_of_matched hbrace rfl)))⟩
    obtain ⟨_, hopening⟩ := hopening
    exact ⟨c₆, c₇, _, _, _, hopening, hbody, bind_of_matched hskip hclose⟩

theorem namespaceStatement_of_statementKind {g : Rules} {name : Option Name}
    {b : Option (List Stmt)} (h : statementKind g c = .matched (.namespace name b) mid f) :
    ∃ f', namespaceStatement g c = .matched (.namespace name b) mid f' := by
  have hnone {p : Parser StmtKind} (hp : Gives p fun k ↦ ∀ n b, k ≠ .namespace n b) (f : Failures)
      (hm : p c = .matched (.namespace name b) mid f) :
      ∃ f', namespaceStatement g c = .matched (.namespace name b) mid f' :=
    absurd rfl (hp _ _ _ _ hm name b)
  revert f
  apply statementKind_of_forms (M := fun p ↦ ∀ {f}, p c = .matched (.namespace name b) mid f →
    ∃ f', namespaceStatement g c = .matched (.namespace name b) mid f')
  case orElse =>
    intro p q hp hq f hm
    obtain ⟨_, hm | hm⟩ := orElse_eq_matched hm
    · exact hp hm
    · exact hq hm
  case space => exact fun h ↦ ⟨_, h⟩
  case use =>
    refine hnone (.after fun _ ↦ .after fun _ ↦ .after fun _ ↦ .after fun _ ↦ ?_) _
    exact .after fun _ ↦ .after fun _ ↦ .pure fun _ _ ↦ nofun
  case simple =>
    rintro p hp f hm
    exact (hp _ _ _ _ hm).elim
  all_goals exact hnone (.after fun _ ↦ .pure fun _ _ h ↦ StmtKind.noConfusion h) _

theorem reads_namespace {name : Option Name} {b : List Stmt} {span : Span}
    (h : (Rules.ofDepth (n + 1)).statement c = .matched ⟨.namespace name (some b), span⟩ mid f) :
    ∃ start stop f₁ f₂ f₃, braceOpening c = .matched name start f₁ ∧
      statements (.ofDepth n) start = .matched b stop f₂ ∧ braceEnd stop = .matched () mid f₃ := by
  obtain ⟨_, _, _, _, hstart, h⟩ := bind_eq_matched h
  cases hstart
  obtain ⟨k, c₁, _, _, hkind, h⟩ := bind_eq_matched h
  obtain ⟨_, _, _, _, hstop, h⟩ := bind_eq_matched h
  cases hstop
  cases h
  obtain ⟨_, hspace⟩ := namespaceStatement_of_statementKind hkind
  exact reads_braces hspace

theorem reads_body {name : Option Name} {b : List Stmt} {span : Span} (hc : c.In source)
    (hk : c.rest.length < n)
    (h : (trivia >>= fun _ ↦ (Rules.ofDepth n).statement) c =
      .matched ⟨.namespace name (some b), span⟩ mid f) :
    ∃ m start stop f₁ f₂, start.In source ∧ start.rest.length < m ∧
      statements (.ofDepth m) start = .matched b stop f₁ ∧ braceEnd stop = .matched () mid f₂ := by
  obtain ⟨_, c₁, _, _, htrivia, hs⟩ := bind_eq_matched h
  obtain ⟨text, hrest, -⟩ := consumes_trivia _ _ _ _ htrivia
  have hle : c₁.rest.length ≤ c.rest.length := by
    rw [hrest, List.length_append]
    exact Nat.le_add_left _ _
  cases n with
  | zero => cases hs
  | succ m =>
    obtain ⟨start, stop, _, f₁, f₂, hopening, hbody, hend⟩ := reads_namespace hs
    have hin := (Located.of_matched (Located.of_matched hc htrivia).1 hopening).1
    have hlt := braceOpening_takes _ _ _ _ _ (Nat.lt_succ_self _) hopening
    exact ⟨m, start, stop, f₁, f₂, hin, by omega, hbody, hend⟩

theorem reads_among {before after : List Stmt} {next : Cursor} (hc : c.In source)
    (hk : c.rest.length < n)
    (h : statements (.ofDepth n) c = .matched (before ++ s :: after) next f) :
    ∃ c₁ mid f₁ f₂, c₁.In source ∧ c₁.rest.length < n ∧ mid.rest.length < n ∧
      (trivia >>= fun _ ↦ (Rules.ofDepth n).statement) c₁ = .matched s mid f₁ ∧
      statements (.ofDepth n) mid = .matched after next f₂ := by
  obtain ⟨c₁, mid, f₁, f₂, hin, hle, hs, hafter⟩ := many_split (statement_takes n)
    (fun _ _ _ _ hc hm ↦ (Located.of_matched hc hm).1) hc hk h
  have hk₁ := Nat.lt_of_le_of_lt hle hk
  exact ⟨c₁, mid, f₁, f₂, hin, hk₁, Nat.lt_trans (statement_takes n _ _ _ _ hk₁ hs) hk₁, hs, hafter⟩

variable {c' next next' : Cursor} {ss ss' : List Stmt} {f' : Failures} {n' : Nat}

theorem like_behind (hrest : c.rest = c'.rest) (hk : c.rest.length < n) (hk' : c'.rest.length < n')
    (h : statements (.ofDepth n) c = .matched ss next f)
    (h' : statements (.ofDepth n') c' = .matched ss' next' f') :
    List.Forall₂ (Stmt.Like sameTexts) ss ss' ∧ next.rest = next'.rest := by
  have hmoved : Moved sameTexts c c' := ⟨hrest, fun _ _ _ ↦ trivial, fun _ _ _ _ ↦ trivial⟩
  have htied := tied_moved sameTexts (Nat.succ_le_of_lt hk) (Nat.succ_le_of_lt (hrest ▸ hk'))
  have hagree := Frame.steady_statements (d := []) htied c c' ⟨hmoved, trivial⟩ (Nat.lt_succ_self _)
  obtain ⟨hlike, hnext⟩ := hagree.both_matched h h'
  exact ⟨hlike, hnext.1.rest⟩

theorem rest_braceEnd {c c' next next' : Cursor} {f f' : Failures} (hrest : c.rest = c'.rest)
    (h : braceEnd c = .matched () next f) (h' : braceEnd c' = .matched () next' f') :
    next.rest = next'.rest := by
  have hread : Unplaced braceEnd := .bind unplaced_trivia fun _ ↦ .literal _
  exact ((hread c c' hrest).both_matched h h').2

/-- Two texts that are read as the same imports stand between the same texts. -/
theorem regrouped_of_alikeUpTo {source source' text' : List Char} {kind : UseKind}
    {imports : List Imported}
    (hread : ∀ g, Yields (statement g) text back (Stmt.Imports kind imports))
    (hread' : ∀ g, Yields (statement g) text' back (Stmt.Imports kind imports))
    (hsource : source = front ++ (text ++ back)) (hsource' : source' = front ++ (text' ++ back))
    {ds ds' : List Stmt} (halike : AlikeUpTo (byteLength front) ds ds')
    (hc : c.In source) (hc' : c'.In source') (hk : c.rest.length < n) (hk' : c'.rest.length < n')
    (h : statements (.ofDepth n) c = .matched ss next f)
    (h' : statements (.ofDepth n') c' = .matched ss' next' f')
    (hds : documentAll source ss = ds) (hds' : documentAll source' ss' = ds') :
    List.Forall₂ Stmt.Regrouped ds ds' ∧ next.rest = next'.rest := by
  have hdocumented {ss ss' : List Stmt} (h : List.Forall₂ (Stmt.Like sameTexts) ss ss') :
      List.Forall₂ Stmt.Regrouped (documentAll source ss) (documentAll source' ss') :=
    (like_documentAll (fun _ _ ↦ trivial) ss ss' h).imp fun _ _ ↦ .alike
  induction halike generalizing n n' c c' next next' ss ss' f f' with
  | here alike start start' =>
    obtain ⟨_, s₀, after₀, rfl, rfl, rfl⟩ := documentAll_eq_append hds
    obtain ⟨_, s₀', after₀', rfl, rfl, rfl⟩ := documentAll_eq_append hds'
    rw [start_document] at start start'
    obtain ⟨c₁, mid, _, _, hc₁, -, hmid, hs, hafter⟩ := reads_among hc hk h
    obtain ⟨c₁', mid', _, _, hc₁', -, hmid', hs', hafter'⟩ := reads_among hc' hk' h'
    obtain ⟨himports, hrest⟩ := reads_at hread hsource hc₁ hs start
    obtain ⟨himports', hrest'⟩ := reads_at hread' hsource' hc₁' hs' start'
    obtain ⟨hbehind, hnext⟩ :=
      like_behind (hrest.trans hrest'.symm) hmid hmid' hafter hafter'
    refine ⟨List.rel_append (alike.imp fun _ _ ↦ .alike) (.cons ?_ (hdocumented hbehind)), hnext⟩
    rw [document_of_imports himports, document_of_imports himports']
    exact himports.regrouped himports'
  | within alike name _ ih =>
    obtain ⟨_, s₀, after₀, rfl, hs₀, rfl⟩ := documentAll_eq_append hds
    obtain ⟨_, s₀', after₀', rfl, hs₀', rfl⟩ := documentAll_eq_append hds'
    obtain ⟨b₀, rfl, hb⟩ := document_eq_namespace hs₀
    obtain ⟨b₀', rfl, hb'⟩ := document_eq_namespace hs₀'
    obtain ⟨c₁, mid, _, _, hc₁, hk₁, hmid, hs, hafter⟩ := reads_among hc hk h
    obtain ⟨c₁', mid', _, _, hc₁', hk₁', hmid', hs', hafter'⟩ := reads_among hc' hk' h'
    obtain ⟨_, _, _, _, _, hin, hlt, hbody, hend⟩ := reads_body hc₁ hk₁ hs
    obtain ⟨_, _, _, _, _, hin', hlt', hbody', hend'⟩ := reads_body hc₁' hk₁' hs'
    obtain ⟨hinner, hstop⟩ := ih hin hin' hlt hlt' hbody hbody' hb hb'
    obtain ⟨hbehind, hnext⟩ :=
      like_behind (rest_braceEnd hstop hend hend') hmid hmid' hafter hafter'
    exact ⟨List.rel_append (alike.imp fun _ _ ↦ .alike)
      (.cons (.namespace name hinner) (hdocumented hbehind)), hnext⟩

theorem statements_of_parseFile {ds : List Stmt} (h : parseFile source = .ok ds) :
    ∃ start ss stop f, start.In source ∧ start.rest.length < source.length + 1 ∧
      statements (.ofDepth (source.length + 1)) start = .matched ss stop f ∧
      documentAll source ss = ds := by
  unfold parseFile at h
  cases hm : file (.forText source) ⟨source, 0⟩ with
  | failed f =>
    rw [hm] at h
    cases h
  | matched ss next f =>
    rw [hm] at h
    cases h
    obtain ⟨start, _, _, hopen, hm⟩ := file_eq_matched hm
    obtain ⟨ss', stop, _, _, hstatements, hm⟩ := bind_eq_matched hm
    have hin : start.In source := (Located.of_matched ⟨[], rfl, rfl⟩ hopen).1
    have hsame : Gives (do
        trivia
        let _ ← optional closingTag
        endOfText
        return ss') (· = ss') := by
      exact .after fun _ ↦ .after fun _ ↦ .after fun _ ↦ .pure rfl
    obtain rfl : ss = ss' := hsame _ _ _ _ hm
    refine ⟨start, ss, stop, _, hin, ?_, hstatements, rfl⟩
    obtain ⟨before, hsource, -⟩ := hin
    rw [hsource, List.length_append]
    omega

end Grammar

open Grammar

/-- An import of a group under a name is read as the same imports as its expansion. Names mean the
same in documents that differ only in how their imports are written, and so they do in two files
that differ only in one import, which is of the group in one and expanded in the other. -/
theorem group_import_expands {full : Bool} {group : List String} {items : List ImportItem}
    (hgroup : isPathOfWords group = true) (hstart : startsImport group = true) (hne : items ≠ [])
    (hitems : ∀ i ∈ items, i.isWritten = true) (kind : UseKind) (trailing : Bool) :
    (∀ g rest,
      Yields (statement g) (useText kind (groupClause full group items trailing)) rest
        (Stmt.Imports kind (importedUnder full group items)) ∧
      Yields (statement g) (useText kind (expandedClause full group items)) rest
        (Stmt.Imports kind (importedUnder full group items))) ∧
    (∀ d d' : Document, List.Forall₂ Stmt.Regrouped d.statements d'.statements →
      d.ResolvesAs d') ∧
    ∀ front back id uri version d id' uri' version' d',
      Document.parse id uri
        (front ++ (useText kind (groupClause full group items trailing) ++ back)) version = .ok d →
      Document.parse id' uri'
        (front ++ (useText kind (expandedClause full group items) ++ back)) version' = .ok d' →
      AlikeUpTo (byteLength front) d.statements d'.statements → d.ResolvesAs d' := by
  have hread (g : Rules) (rest : List Char) :
      Yields (statement g) (useText kind (groupClause full group items trailing)) rest
        (Stmt.Imports kind (importedUnder full group items)) :=
    yields_group hgroup hstart hne hitems g kind trailing
  have hread' (g : Rules) (rest : List Char) :
      Yields (statement g) (useText kind (expandedClause full group items)) rest
        (Stmt.Imports kind (importedUnder full group items)) :=
    yields_expanded hgroup hstart hne hitems g kind
  refine ⟨fun g rest ↦ ⟨hread g rest, hread' g rest⟩,
    fun _ _ ↦ Document.resolvesAs_of_regrouped, ?_⟩
  intro front back id uri version d id' uri' version' d' hd hd' halike
  obtain ⟨_, _, _, _, hin, hk, hss, hds⟩ := statements_of_parseFile (Document.parseFile_of_parse hd)
  obtain ⟨_, _, _, _, hin', hk', hss', hds'⟩ :=
    statements_of_parseFile (Document.parseFile_of_parse hd')
  exact Document.resolvesAs_of_regrouped (regrouped_of_alikeUpTo (hread · back) (hread' · back) rfl
    rfl halike hin hin' hk hk' hss hss' hds hds').1

/-- The parent of the class is imported under another name, and a comma ends the group. -/
theorem group_import_expands_alias :
    ∃ d d',
      Document.parse 0 "a.php"
        "<?php use A\\B\\\x7bC, D\\E as F,\x7d; class G extends F \x7b\x7d".toList 1 = .ok d ∧
      Document.parse 1 "b.php"
        "<?php use A\\B\\C, A\\B\\D\\E as F; class G extends F \x7b\x7d".toList 1 = .ok d' ∧
      d.parentName? = some "A\\B\\D\\E" ∧ d.ResolvesAs d' := by
  have hread : (Document.parse 0 "a.php"
      "<?php use A\\B\\\x7bC, D\\E as F,\x7d; class G extends F \x7b\x7d".toList 1).toOption.map
        (fun d ↦ (d.statements.head?.map fun s ↦ s.span.start, d.parentName?)) =
      some (some 6, some "A\\B\\D\\E") := by
    decide +kernel
  have hread' : (Document.parse 1 "b.php"
      "<?php use A\\B\\C, A\\B\\D\\E as F; class G extends F \x7b\x7d".toList 1).toOption.map
        (fun d ↦ d.statements.head?.map fun s ↦ s.span.start) = some (some 6) := by
    decide +kernel
  have hfirst {ss : List Stmt} (h : (ss.head?.map fun s ↦ s.span.start) = some 6) :
      ∃ s after, ss = [] ++ s :: after ∧ s.span.start = byteLength "<?php ".toList := by
    obtain ⟨s, hs, hstart⟩ := Option.map_eq_some_iff.mp h
    obtain ⟨after, rfl⟩ := List.head?_eq_some_iff.mp hs
    exact ⟨s, after, rfl, hstart⟩
  obtain ⟨d, hd, hfound⟩ := Option.map_eq_some_iff.mp hread
  obtain ⟨d', hd', hstart'⟩ := Option.map_eq_some_iff.mp hread'
  obtain ⟨hstart, hparent⟩ := Prod.mk.inj hfound
  obtain ⟨s, after, hs, hplace⟩ := hfirst hstart
  obtain ⟨s', after', hs', hplace'⟩ := hfirst hstart'
  have halike : AlikeUpTo (byteLength "<?php ".toList) d.statements d'.statements := by
    rw [hs, hs']
    exact .here .nil hplace hplace'
  have hp := Document.parse_of_toOption hd
  have hp' := Document.parse_of_toOption hd'
  have hsource : "<?php use A\\B\\\x7bC, D\\E as F,\x7d; class G extends F \x7b\x7d".toList =
      "<?php ".toList ++ (useText .normal (groupClause false ["A", "B"]
        [⟨["C"], none⟩, ⟨["D", "E"], some "F"⟩] true) ++ " class G extends F \x7b\x7d".toList) := by
    decide +kernel
  have hsource' : "<?php use A\\B\\C, A\\B\\D\\E as F; class G extends F \x7b\x7d".toList =
      "<?php ".toList ++ (useText .normal (expandedClause false ["A", "B"]
        [⟨["C"], none⟩, ⟨["D", "E"], some "F"⟩]) ++ " class G extends F \x7b\x7d".toList) := by
    decide +kernel
  exact ⟨d, d', hp, hp', hparent, (group_import_expands (by decide) (by decide) (by decide)
    (by decide) .normal true).2.2 _ _ _ _ _ _ _ _ _ _ (hsource ▸ hp) (hsource' ▸ hp') halike⟩

end PhpInsight

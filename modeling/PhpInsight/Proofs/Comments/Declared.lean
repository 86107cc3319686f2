import PhpInsight.Proofs.Comments.Finished
import PhpInsight.Proofs.Comments.Search
import PhpInsight.Proofs.Operators.RoundTrip

namespace PhpInsight

open Text

namespace Grammar

open Peg Peg.Parser

variable {source : List Char} {g : Rules}

mutual

/-- The declarations that are given doc comments, by where they start. -/
def declarationsOf : Stmt → List (Nat × Option String)
  | ⟨.classLike d, span⟩ => (span.start, d.doc) :: d.members.map fun m ↦ (m.span.start, m.doc)
  | ⟨.function d, span⟩ => [(span.start, d.doc)]
  | ⟨.namespace _ (some body), _⟩ => declarationsOfAll body
  | ⟨.block body, _⟩ => declarationsOfAll body
  | _ => []

def declarationsOfAll : List Stmt → List (Nat × Option String)
  | [] => []
  | s :: ss => declarationsOf s ++ declarationsOfAll ss

end

theorem declarationsOfAll_eq_flatMap (ss : List Stmt) :
    declarationsOfAll ss = ss.flatMap declarationsOf := by
  induction ss with
  | nil => rfl
  | cons s ss ih => rw [declarationsOfAll, ih, List.flatMap_cons]

mutual

theorem declarationsOf_document (s : Stmt) :
    declarationsOf (document source s) =
      (declarationsOf s).map fun d ↦ (d.1, docCommentBefore source d.1) := by
  match s with
  | ⟨.classLike d, span⟩ =>
    simp [document, declarationsOf, documentClass, documentMember]
  | ⟨.function d, span⟩ => rfl
  | ⟨.namespace name (some body), span⟩ => exact declarationsOfAll_documentAll body
  | ⟨.block body, span⟩ => exact declarationsOfAll_documentAll body
  | ⟨.namespace _ none, _⟩ | ⟨.use .., _⟩ | ⟨.const .., _⟩ | ⟨.expression .., _⟩
  | ⟨.return .., _⟩ | ⟨.echo .., _⟩ | ⟨.if .., _⟩ | ⟨.while .., _⟩ | ⟨.doWhile .., _⟩
  | ⟨.for .., _⟩ | ⟨.foreach .., _⟩ | ⟨.switch .., _⟩ | ⟨.try .., _⟩ | ⟨.global .., _⟩
  | ⟨.static .., _⟩ | ⟨.break, _⟩ | ⟨.continue, _⟩ | ⟨.nop, _⟩ => rfl

theorem declarationsOfAll_documentAll (ss : List Stmt) :
    declarationsOfAll (documentAll source ss) =
      (declarationsOfAll ss).map fun d ↦ (d.1, docCommentBefore source d.1) := by
  match ss with
  | [] => rfl
  | s :: ss =>
    rw [documentAll, declarationsOfAll, declarationsOfAll, List.map_append,
      declarationsOf_document s, declarationsOfAll_documentAll ss]

end

/-- Code in front of trivia: it ends with a semicolon or a brace, or is the opening tag. -/
def endsCode (cs : List Char) : Bool :=
  cs.getLast?.any (· ∈ [';', '\x7b', '\x7d']) || "<?php".toList.isSuffixOf cs

theorem endsCode_append (cs : List Char) {ds : List Char} (h : endsCode ds = true) :
    endsCode (cs ++ ds) = true := by
  rcases Bool.or_eq_true_iff.mp h with h | h
  · obtain ⟨x, hx, hmem⟩ := (Option.any_eq_true _ _).mp h
    refine Bool.or_eq_true_iff.mpr (.inl ?_)
    rw [List.getLast?_append, hx]
    exact hmem
  · have hsuffix := List.isSuffixOf_iff_suffix.mp h
    refine Bool.or_eq_true_iff.mpr (.inr (List.isSuffixOf_iff_suffix.mpr ?_))
    exact hsuffix.trans (List.suffix_append cs ds)

theorem endsCode_last {cs : List Char} (h : endsCode cs = true) :
    ∃ x ∈ cs.getLast?, isBlank x = false ∧ x ≠ '/' := by
  rcases Bool.or_eq_true_iff.mp h with h | h
  · obtain ⟨x, hx, hmem⟩ := (Option.any_eq_true _ _).mp h
    refine ⟨x, hx, ?_⟩
    have hcases : x = ';' ∨ x = '\x7b' ∨ x = '\x7d' := by simpa using hmem
    rcases hcases with rfl | rfl | rfl <;> decide
  · obtain ⟨front, rfl⟩ := List.isSuffixOf_iff_suffix.mp h
    exact ⟨'p', by simp, by decide⟩

/-- The trivia behind code up to a position have these comments among them. -/
def Precedes (source : List Char) (comments : List (List Char)) (start : Nat) : Prop :=
  ∃ code after next, source = code ++ after ∧ endsCode code = true ∧
    Skips ⟨after, byteLength code⟩ comments next ∧ next.offset = start

def Introduced (source : List Char) (start : Nat) : Prop :=
  ∃ comments, Precedes source comments start

structure Opens (source : List Char) (n : Nat) : Prop where
  settled : Settled source n
  sign : ∃ code after, source = code ++ after ∧ byteLength code = n ∧
    (endsCode code = true ∨ ['?', '>'] <+: after)

theorem opens_of_finished {n : Nat} (h : Finished source n) : Opens source n := by
  obtain ⟨hsettled, code, after, hsplit, hlen, hsign⟩ := h
  refine ⟨hsettled, code, after, hsplit, hlen, hsign.imp ?_ id⟩
  rintro ⟨x, hx, hmem⟩
  refine Bool.or_eq_true_iff.mpr (.inl ((Option.any_eq_true _ _).mpr ⟨x, hx, ?_⟩))
  simp only [List.mem_cons, List.not_mem_nil, or_false] at hmem
  rcases hmem with rfl | rfl <;> decide

theorem literal_opens {text : String} (hsign : isSign text = true)
    (h : endsCode text.toList = true) :
    Leads source (Settled source) (literal text) fun _ ↦ Opens source := by
  intro c a next f hc hP hm
  obtain ⟨hnext, hsettled⟩ := (reads_literal hsign).settled c a next f hc hP hm
  obtain ⟨hrest, hoffset⟩ := dropText?_eq_some (literal_eq_matched hm)
  obtain ⟨before, rfl, hbefore⟩ := hc
  refine ⟨hnext, hsettled, before ++ text.toList, next.rest, ?_, ?_, .inl (endsCode_append _ h)⟩
  · rw [hrest, List.append_assoc]
  · rw [byteLength_append, hbefore, hoffset]

def Results {α : Type} (source : List Char) (P : Nat → Prop) (p : Parser α) (V : α → Prop) : Prop :=
  ∀ c a next f, c.In source → P c.offset → p c = .matched a next f → V a

namespace Results

variable {α β : Type} {P : Nat → Prop} {p q : Parser α} {V : α → Prop}

theorem of_gives (h : Gives p V) : Results source P p V :=
  fun c a next f _ _ hm ↦ h c a next f hm

theorem imp {P' : Nat → Prop} {V' : α → Prop} (h : Results source P p V)
    (hP : ∀ n, P' n → P n) (hV : ∀ a, V a → V' a) : Results source P' p V' :=
  fun c a next f hc hP' hm ↦ hV a (h c a next f hc (hP _ hP') hm)

theorem orElse (hp : Results source P p V) (hq : Results source P q V) :
    Results source P (p <|> q) V := by
  intro c a next f hc hP hm
  obtain ⟨g, hm | hm⟩ := orElse_eq_matched hm
  · exact hp c a next g hc hP hm
  · exact hq c a next g hc hP hm

theorem bind {R : α → Nat → Prop} {f : α → Parser β} {W : β → Prop} (hp : Leads source P p R)
    (hf : ∀ a, Results source (R a) (f a) W) : Results source P (p >>= f) W := by
  intro c b next g hc hP hm
  obtain ⟨a, mid, g₁, g₂, hpm, hfm⟩ := bind_eq_matched hm
  obtain ⟨hmid, hR⟩ := hp c a mid g₁ hc hP hpm
  exact hf a mid b next g₂ hmid hR hfm

theorem map {f : α → Parser β} {W : β → Prop} (hp : Results source P p V)
    (hf : ∀ a, V a → Gives (f a) W) : Results source P (p >>= f) W := by
  intro c b next g hc hP hm
  obtain ⟨a, mid, g₁, g₂, hpm, hfm⟩ := bind_eq_matched hm
  exact hf a (hp c a mid g₁ hc hP hpm) mid b next g₂ hfm

end Results

/-- Parsers that read in a row behind code, each behind trivia of its own. None of them can read
the closing tag. -/
theorem manyAfter_leads {α : Type} {p : Parser α} {V : α → Prop}
    (hmark : ∀ more, Rejects p ('?' :: '>' :: more)) (hends : Finishes source p)
    (hp : Results source (fun n ↦ Settled source n ∧ Introduced source n) p V) :
    Leads source (Opens source) (manyAfter p) fun as n ↦ (∀ a ∈ as, V a) ∧ Opens source n := by
  refine .many fun c a next f hc hopens hm ↦ ?_
  obtain ⟨_, mid, _, _, htrivia, hpm⟩ := bind_eq_matched hm
  obtain ⟨hmid, hsettled⟩ := reads_trivia.settled _ _ _ _ hc hopens.settled htrivia
  obtain ⟨hnext, hfinished⟩ := hends _ _ _ _ hmid hsettled hpm
  obtain ⟨before, hsplit, hbefore⟩ := hc
  obtain ⟨-, code, after, hsplit', hlen, hsign⟩ := hopens
  obtain ⟨rfl, rfl⟩ :=
    append_inj_of_byteLength (hsplit.symm.trans hsplit') (hbefore.trans hlen.symm)
  rcases hsign with hcode | ⟨more, hmore⟩
  · obtain ⟨comments, hskips⟩ := skips_of_trivia htrivia
    have hintroduced : Introduced source mid.offset := by
      refine ⟨comments, before, c.rest, mid, hsplit, hcode, ?_, rfl⟩
      rw [hbefore]
      exact hskips
    exact ⟨hnext, hp _ _ _ _ hmid ⟨hsettled, hintroduced⟩ hpm, opens_of_finished hfinished⟩
  · have hsolid : Solid ('?' :: '>' :: more) :=
      (heads_cons (List.mem_singleton_self '?')).solid (by decide)
    have hnone : Rejects (do trivia; p) ('?' :: '>' :: more) :=
      .bind_nil (accepts_trivia_nil hsolid) fun _ _ ↦ hmark more
    obtain ⟨_, hfailed⟩ := hnone c.offset
    obtain ⟨rest, offset⟩ := c
    obtain rfl : '?' :: '>' :: more = rest := hmore
    rw [hfailed] at hm
    cases hm

theorem rejects_member (more : List Char) : Rejects (member g) ('?' :: '>' :: more) := by
  have hmark : Heads ['?'] ('?' :: '>' :: more) := heads_cons (List.mem_singleton_self _)
  have hstop : Heads ['>'] ('>' :: more) := heads_cons (List.mem_singleton_self _)
  have hkeyword (s : String) : Rejects (keyword s) ('?' :: '>' :: more) :=
    hmark.rejects_keyword (by decide)
  have hmodifiers : Accepts modifiers [] ('?' :: '>' :: more) := by
    have hnone : Rejects (do let m ← modifier; trivia; return m) ('?' :: '>' :: more) := by
      refine .bind (.firstOf fun p hp ↦ ?_)
      simp only [List.mem_cons, List.not_mem_nil, or_false] at hp
      rcases hp with rfl | rfl | rfl | rfl | rfl | rfl | rfl | rfl
      all_goals exact .bind (hkeyword _)
    exact .map (Repeats.stop (Q := fun _ ↦ True) hnone trivial).many fun _ _ ↦ .pure trivial
  have hname {c : Char} {text : List Char} (h : Heads [c] text)
      (hc : [c].all (fun x ↦ !wordStart.contains x) = true)
      (hslash : "\\".toList.head?.any (· ∉ [c]) = true) : Rejects simpleType text := by
    have hfull : Accepts (isPresent (literal "\\")) [] text :=
      .map (.optional_none (h.rejects_literal hslash)) fun _ _ ↦ .pure trivial
    exact .bind (.bind_nil .position fun _ _ ↦ .bind_nil hfull fun _ _ ↦ .bind (h.rejects_word hc))
  have hhint : Rejects typeHint ('?' :: '>' :: more) := by
    refine .orElse (.bind_nil .position fun _ _ ↦ .bind_head (.literal "?") fun _ _ ↦ ?_)
      (.bind_nil .position fun _ _ ↦ .bind (hname hmark (by decide) (by decide)))
    exact .bind_nil (accepts_trivia_nil (hstop.solid (by decide))) fun _ _ ↦
      .bind (hname hstop (by decide) (by decide))
  refine .bind_nil .position fun _ _ ↦ .bind (.orElse (.bind (hkeyword _)) (.orElse
    (.bind_nil hmodifiers fun _ _ ↦ .bind (hkeyword _)) (.orElse
    (.bind_nil hmodifiers fun _ _ ↦ .bind (hkeyword _))
    (.bind_nil hmodifiers fun _ _ ↦ .bind_nil (.optional_none (.bind hhint)) fun _ _ ↦ ?_))))
  exact .bind (.bind (.bind_nil .position fun _ _ ↦ .bind (.bind_nil .position fun _ _ ↦
    .bind (hmark.rejects_literal (by decide)))))

theorem results_braced {α β : Type} {p : Parser α} {V : α → Prop} {W : β → Prop}
    {f : List α → Parser β} (hmark : ∀ more, Rejects p ('?' :: '>' :: more))
    (hends : Finishes source p)
    (hp : Results source (fun n ↦ Settled source n ∧ Introduced source n) p V)
    (hf : ∀ as, (∀ a ∈ as, V a) → Gives (f as) W) :
    Results source (Settled source) (do literal "\x7b"; let as ← manyAfter p; f as) W := by
  refine .bind (literal_opens (by decide) (by decide)) fun _ ↦ .map ?_ hf
  intro c as next f hc hopens hm
  exact (manyAfter_leads hmark hends hp c as next f hc hopens hm).2.1

theorem results_member :
    Results source (fun n ↦ Settled source n ∧ Introduced source n) (member g) fun m ↦
      Introduced source m.span.start := by
  intro c m next f hc hP hm
  obtain ⟨start, mid, _, _, hstart, hrest⟩ := bind_eq_matched hm
  cases hstart
  have hspan : Gives (do
      let kind ← traitUse <|> method g <|> constantMember g <|> propertyMember g
      return (⟨kind, ⟨c.offset, ← position⟩, none⟩ : Member)) fun m ↦ m.span.start = c.offset := by
    exact .after fun _ ↦ .after fun _ ↦ .pure rfl
  rw [hspan _ _ _ _ hrest]
  exact hP.2

theorem results_classBody (hg : g.Sound source) :
    Results source (Settled source) (classBody g) fun ms ↦
      ∀ m ∈ ms, Introduced source m.span.start := by
  refine results_braced rejects_member (finishes_member hg) results_member fun _ hms ↦ ?_
  exact .after fun _ ↦ .after fun _ ↦ .pure hms

theorem results_classLike (hg : g.Sound source) :
    Results source (Settled source) (classLike g) fun d ↦
      ∀ m ∈ d.members, Introduced source m.span.start := by
  have hbody {f : List Member → ClassDecl} (hf : ∀ ms, (f ms).members = ms) :
      Results source (Settled source) (do return f (← classBody g)) fun d ↦
        ∀ m ∈ d.members, Introduced source m.span.start :=
    .map (results_classBody hg) fun ms hms ↦ .pure (by rwa [hf ms])
  have hlist {word : String} {p : Parser (List Name)} (h : Reads source p) :
      Leads source (Settled source) (listAfter word p) fun _ ↦ Settled source :=
    (Reads.bind (reads_optionalAfter (.token (takes_keyword _).reads h)) fun _ ↦ .pure _).settled
  have hskip : Leads source (Settled source) trivia fun _ ↦ Settled source := reads_trivia.settled
  refine .orElse ?_ (.orElse ?_ ?_)
  · refine .bind (reads_modifiersOf reads_classModifier).settled fun _ ↦ ?_
    refine .bind (takes_keyword _).reads.settled fun _ ↦ ?_
    refine .bind hskip fun _ ↦ ?_
    refine .bind takes_identifier.reads.settled fun _ ↦ ?_
    refine .bind (hlist (.bind lays_name.reads fun _ ↦ .pure _)) fun _ ↦ ?_
    refine .bind (hlist lays_nameList.reads) fun _ ↦ ?_
    refine .bind hskip fun _ ↦ ?_
    exact hbody fun _ ↦ rfl
  · refine .bind (takes_keyword _).reads.settled fun _ ↦ ?_
    refine .bind hskip fun _ ↦ ?_
    refine .bind takes_identifier.reads.settled fun _ ↦ ?_
    refine .bind (hlist lays_nameList.reads) fun _ ↦ ?_
    refine .bind hskip fun _ ↦ ?_
    exact hbody fun _ ↦ rfl
  · refine .bind (takes_keyword _).reads.settled fun _ ↦ ?_
    refine .bind hskip fun _ ↦ ?_
    refine .bind takes_identifier.reads.settled fun _ ↦ ?_
    refine .bind hskip fun _ ↦ ?_
    exact hbody fun _ ↦ rfl

def Listed (source : List Char) (s : Stmt) : Prop :=
  ∀ d ∈ declarationsOf s, Introduced source d.1

theorem listed_of_simple {kind : StmtKind} (h : kind.Simple) (span : Span) :
    Listed source ⟨kind, span⟩ := by
  cases kind with
  | classLike _ | function _ | block _ | «namespace» _ _ => exact h.elim
  | _ => exact nofun

structure Rules.Introducing (source : List Char) (g : Rules) : Prop where
  sound : g.Sound source
  finishes : Finishes source g.statement
  mark : ∀ more, Rejects g.statement ('?' :: '>' :: more)
  listed : Results source (fun n ↦ Settled source n ∧ Introduced source n) g.statement
    (Listed source)

theorem results_block (hg : g.Introducing source) :
    Results source (Settled source) (block g) fun ss ↦ ∀ s ∈ ss, Listed source s := by
  refine results_braced hg.mark hg.finishes hg.listed fun _ hss ↦ ?_
  exact .after fun _ ↦ .after fun _ ↦ .pure hss

theorem listed_of_body {kind : StmtKind} {span : Span} {ss : List Stmt}
    (hkind : declarationsOf ⟨kind, span⟩ = declarationsOfAll ss) (h : ∀ s ∈ ss, Listed source s) :
    Listed source ⟨kind, span⟩ := by
  intro d hd
  rw [hkind, declarationsOfAll_eq_flatMap] at hd
  obtain ⟨s, hs, hd⟩ := List.mem_flatMap.mp hd
  exact h s hs d hd

theorem results_namespaceStatement (hg : g.Introducing source) :
    Results source (Settled source) (namespaceStatement g) fun kind ↦
      ∀ span, Listed source ⟨kind, span⟩ := by
  refine .orElse (.of_gives (.after fun _ ↦ .after fun _ ↦ .after fun _ ↦ .after fun _ ↦
    .after fun _ ↦ .pure fun _ ↦ nofun)) ?_
  refine .bind (takes_keyword _).reads.settled fun _ ↦ ?_
  refine .bind reads_trivia.settled fun _ ↦ ?_
  refine .bind (reads_optionalBefore lays_name.reads).settled fun _ ↦ ?_
  exact .map (results_block hg) fun _ hss ↦ .pure fun _ ↦ listed_of_body rfl hss

theorem results_statementKind (hg : g.Introducing source) {start : Nat}
    (hstart : Introduced source start) :
    Results source (Settled source) (statementKind g) fun kind ↦
      ∀ stop, Listed source ⟨kind, ⟨start, stop⟩⟩ := by
  apply statementKind_of_forms (M := fun p ↦ Results source (Settled source) p fun kind ↦
    ∀ stop, Listed source ⟨kind, ⟨start, stop⟩⟩)
  case orElse => exact Results.orElse
  case space => exact (results_namespaceStatement hg).imp (fun _ h ↦ h) fun _ h _ ↦ h _
  case use =>
    refine .of_gives (.after fun _ ↦ .after fun _ ↦ .after fun _ ↦ .after fun _ ↦ ?_)
    exact .after fun _ ↦ .after fun _ ↦ .pure fun _ ↦ nofun
  case classLike =>
    refine .map (results_classLike hg.sound) fun d hd ↦ .pure fun stop ↦ ?_
    refine List.forall_mem_cons.mpr ⟨hstart, fun d' hd' ↦ ?_⟩
    obtain ⟨m, hm, rfl⟩ := List.mem_map.mp hd'
    exact hd m hm
  case function =>
    exact .of_gives (.after fun _ ↦ .pure fun _ ↦ List.forall_mem_singleton.mpr hstart)
  case block => exact .map (results_block hg) fun _ hss ↦ .pure fun _ ↦ listed_of_body rfl hss
  case simple => exact fun h ↦ .of_gives (h.imp fun _ hkind _ ↦ listed_of_simple hkind _)

theorem results_statement (hg : g.Introducing source) :
    Results source (fun n ↦ Settled source n ∧ Introduced source n)
      (PhpInsight.Grammar.statement g) (Listed source) := by
  intro c s next f hc hP hm
  obtain ⟨start, mid, _, _, hposition, hrest⟩ := bind_eq_matched hm
  cases hposition
  have hstatement : Results source (Settled source)
      (do let kind ← statementKind g; return ⟨kind, ⟨c.offset, ← position⟩⟩) (Listed source) := by
    refine (results_statementKind hg hP.2).map fun kind hkind ↦ ?_
    exact .after fun _ ↦ .pure (hkind _)
  exact hstatement c s next _ hc hP.1 hrest

theorem introducing_ofDepth (source : List Char) (n : Nat) :
    (Rules.ofDepth n).Introducing source := by
  have hidle (more : List Char) : Heads barrenHeads ('?' :: '>' :: more) := heads_cons (by decide)
  induction n with
  | zero => exact ⟨Rules.sound_empty source, .fail, fun _ ↦ .fail, .of_gives .fail⟩
  | succ n ih =>
    exact ⟨Rules.sound_ofDepth source _, finishes_statement_ofDepth source _,
      fun more ↦ OpTree.rejects_statement (hidle more) _, results_statement ih⟩

theorem results_file (hg : g.Introducing source) :
    Results source (Settled source) (file g) fun ss ↦ ∀ s ∈ ss, Listed source s := by
  refine .bind (reads_literal (by decide)).optional.settled fun _ ↦ .bind reads_trivia.settled
    fun _ ↦ .bind (literal_opens (by decide) (by decide)) fun _ ↦ .bind (.notAhead _) fun _ ↦
    .map (fun c ss next f hc hopens hm ↦ ?_) fun ss hss ↦ .after fun _ ↦ .after fun _ ↦
    .after fun _ ↦ .pure hss
  exact (manyAfter_leads hg.mark hg.finishes hg.listed c ss next f hc hopens hm).2.1

/-- Every declaration that is given a doc comment stands behind trivia that follow code. -/
theorem introduced_of_parseFile {ss : List Stmt} (h : parseFile source = .ok ss)
    {start : Nat} {doc : Option String} (hd : (start, doc) ∈ declarationsOfAll ss) :
    Introduced source start ∧ doc = docCommentBefore source start := by
  unfold parseFile at h
  split at h
  · rename_i parsed next f hm
    cases h
    rw [declarationsOfAll_documentAll] at hd
    obtain ⟨⟨start', doc'⟩, hd', he⟩ := List.mem_map.mp hd
    cases he
    have hin : Cursor.In source ⟨source, 0⟩ := ⟨[], rfl, rfl⟩
    have hlisted := results_file (introducing_ofDepth source _) _ _ _ _ hin (settled_zero source) hm
    rw [declarationsOfAll_eq_flatMap] at hd'
    obtain ⟨s, hs, hd'⟩ := List.mem_flatMap.mp hd'
    exact ⟨hlisted s hs _ hd', rfl⟩
  · cases h

theorem docCommentBefore_byteLength (before after : List Char) :
    docCommentBefore (before ++ after) (byteLength before) = trailingDocComment before := by
  rw [docCommentBefore, headBytes?, dropBytes?_append, Option.map_some, Option.bind_some,
    Consumes.takeBytes_byteLength]

/-- The search back from a position finds the last comment of the trivia before it, as long as that
comment is plain; and it finds a doc comment as it is written just when no sign in its text opens
another one. -/
theorem docCommentBefore_of_precedes {comments : List (List Char)} {start : Nat}
    (h : Precedes source comments start) :
    ((∀ last ∈ comments.getLast?, isPlain last = true) →
      docCommentBefore source start = docOf comments) ∧
    ∀ last ∈ comments.getLast?, isDocComment last = true →
      (docCommentBefore source start = some (String.ofList last) ↔
        ¬ ['/', '*'] <:+: commentBody last) := by
  obtain ⟨code, after, next, rfl, hcode, hskips, hnext⟩ := h
  obtain ⟨between, hrest, hoffset, hends⟩ := hskips.endsWith
  simp only at hrest hoffset
  have hdoc : docCommentBefore (code ++ after) start = trailingDocComment (code ++ between) := by
    rw [← hnext, hoffset, hrest, ← List.append_assoc, ← byteLength_append,
      docCommentBefore_byteLength]
  rw [hdoc]
  refine ⟨trailingDocComment_eq (endsCode_last hcode) hends, fun last hlast hcomment ↦ ?_⟩
  rw [Option.mem_def.mp hlast] at hends
  exact trailingDocComment_iff hends hcomment

/-- Trivia that follow code precede every declaration, and its doc comment is what their last
comment makes, unless signs inside that comment mislead. -/
theorem doc_declared {ss : List Stmt} (h : parseFile source = .ok ss)
    {start : Nat} {doc : Option String} (hd : (start, doc) ∈ declarationsOfAll ss) :
    (∃ comments, Precedes source comments start) ∧
    ∀ comments, Precedes source comments start →
      ((∀ last ∈ comments.getLast?, isPlain last = true) → doc = docOf comments) ∧
      ∀ last ∈ comments.getLast?, isDocComment last = true →
        (doc = some (String.ofList last) ↔ ¬ ['/', '*'] <:+: commentBody last) := by
  obtain ⟨hintroduced, rfl⟩ := introduced_of_parseFile h hd
  exact ⟨hintroduced, fun _ ↦ docCommentBefore_of_precedes⟩

theorem exists_declarations {text : String} {found : List (Nat × Option String)}
    (h : (parseFile text.toList).toOption.map declarationsOfAll = some found) :
    ∃ ss, parseFile text.toList = .ok ss ∧ declarationsOfAll ss = found := by
  obtain ⟨ss, hss, hfound⟩ := Option.map_eq_some_iff.mp h
  cases hp : parseFile text.toList with
  | error e =>
    rw [hp] at hss
    cases hss
  | ok ss' =>
    rw [hp] at hss
    cases hss
    exact ⟨ss, rfl, hfound⟩

theorem doc_declared_behind_comments :
    ∃ comments, Precedes "<?php /* a */ /** b */ class A {}".toList comments 23 ∧
      (∀ last ∈ comments.getLast?, isPlain last = true → docOf comments = some "/** b */") := by
  have hlisted : (parseFile "<?php /* a */ /** b */ class A {}".toList).toOption.map
      declarationsOfAll = some [(23, some "/** b */")] := by decide +kernel
  obtain ⟨ss, hparse, hfound⟩ := exists_declarations hlisted
  have hd : (23, some "/** b */") ∈ declarationsOfAll ss := by simp [hfound]
  obtain ⟨⟨comments, hprecedes⟩, hdoc⟩ := doc_declared hparse hd
  refine ⟨comments, hprecedes, fun last hlast hplain ↦ ?_⟩
  refine ((hdoc comments hprecedes).1 fun last' hlast' ↦ ?_).symm
  obtain rfl := Option.mem_unique hlast hlast'
  exact hplain

/-- A doc comment is missed when an opening sign stands in its text. -/
theorem doc_declared_inner_sign :
    isDocComment "/** a /* b */".toList = true ∧
      ∃ ss, parseFile "<?php /** a /* b */ class A {}".toList = .ok ss ∧
        declarationsOfAll ss = [(20, none)] :=
  ⟨by decide, exists_declarations (by decide +kernel)⟩

end Grammar

end PhpInsight

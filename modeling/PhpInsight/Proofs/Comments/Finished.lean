import PhpInsight.Proofs.Span.File

namespace PhpInsight

open Text

/-- A statement may just have ended at a position. -/
structure Finished (source : List Char) (n : Nat) : Prop where
  settled : Settled source n
  sign : ∃ before after, source = before ++ after ∧ byteLength before = n ∧
    ((∃ x ∈ before.getLast?, x ∈ [';', '\x7d']) ∨ ['?', '>'] <+: after)

namespace Peg.Parser

variable {α β : Type} {source : List Char} {p q : Parser α} {s : Parser Unit}

theorem Leads.many {P : Nat → Prop} {V : α → Prop}
    (h : Leads source P p fun a n ↦ V a ∧ P n) :
    Leads source P (many p) fun as n ↦ (∀ a ∈ as, V a) ∧ P n := by
  have hfrom : ∀ fuel, Leads source P (manyFrom p fuel) fun as n ↦ (∀ a ∈ as, V a) ∧ P n := by
    intro fuel
    induction fuel with
    | nil =>
      intro c as next f hc hP hm
      unfold manyFrom at hm
      cases hpc : p c with
      | failed g =>
        simp only [hpc] at hm
        cases hm
        exact ⟨hc, List.forall_mem_nil _, hP⟩
      | matched a mid g =>
        simp only [hpc] at hm
        cases hm
        obtain ⟨hmid, hV, hP'⟩ := h c _ _ _ hc hP hpc
        exact ⟨hmid, by simpa using hV, hP'⟩
    | cons x fuel ih =>
      intro c as next f hc hP hm
      unfold manyFrom at hm
      cases hpc : p c with
      | failed g =>
        simp only [hpc] at hm
        cases hm
        exact ⟨hc, List.forall_mem_nil _, hP⟩
      | matched a mid g =>
        obtain ⟨hmid, hV, hP'⟩ := h c _ _ _ hc hP hpc
        cases hr : manyFrom p fuel mid with
        | failed g' => simp [hpc, hr] at hm
        | matched as' last g' =>
          simp only [hpc, hr] at hm
          cases hm
          obtain ⟨hlast, has, hP''⟩ := ih mid _ _ _ hmid hP' hr
          exact ⟨hlast, List.forall_mem_cons.mpr ⟨hV, has⟩, hP''⟩
  exact fun c as next f hc hP hm ↦ hfrom c.rest c as next f hc hP hm

/-- From a settled position to one at which a statement may have ended. -/
def Finishes (source : List Char) (p : Parser α) : Prop :=
  Leads source (Settled source) p fun _ ↦ Finished source

theorem Reads.settled (h : Reads source p) :
    Leads source (Settled source) p fun _ ↦ Settled source :=
  (h 0).imp (fun _ hn ↦ ⟨Nat.zero_le _, hn⟩) fun _ _ hn ↦ hn.2

namespace Finishes

open Grammar

theorem after {f : α → Parser β} (hp : Reads source p) (hf : ∀ a, Finishes source (f a)) :
    Finishes source (p >>= f) := hp.settled.bind hf

theorem gap (h : Finishes source p) : Finishes source (do trivia; p) :=
  .after reads_trivia fun _ ↦ h

theorem token (hs : Reads source s) (h : Finishes source p) :
    Finishes source (do s; trivia; p) := .after hs fun _ ↦ h.gap

theorem orElse (hp : Finishes source p) (hq : Finishes source q) : Finishes source (p <|> q) :=
  Leads.orElse hp hq

theorem bind {f : α → Parser β} (hp : Finishes source p)
    (hf : ∀ a, Leads source (Finished source) (f a) fun _ ↦ Finished source) :
    Finishes source (p >>= f) := Leads.bind hp hf

theorem map {f : α → β} (hp : Finishes source p) : Finishes source (do return f (← p)) :=
  hp.bind fun _ ↦ .pure _ fun _ _ h ↦ h

theorem more (h : Finishes source p) : Leads source (Finished source) p fun _ ↦ Finished source :=
  h.imp (fun _ hn ↦ hn.settled) fun _ _ hn ↦ hn

theorem many (h : Finishes source p) :
    Leads source (Finished source) (many p) fun _ ↦ Finished source :=
  (Leads.many (V := fun _ ↦ True) (h.more.imp (fun _ hn ↦ hn) fun _ _ hn ↦ ⟨trivial, hn⟩)).imp
    (fun _ hn ↦ hn) fun _ _ hn ↦ hn.2

theorem optional (h : Finishes source p) :
    Leads source (Finished source) (optional p) fun _ ↦ Finished source :=
  h.more.optional.imp (fun _ hn ↦ hn) fun o _ hn ↦ by cases o <;> exact hn

end Finishes

theorem literal_finishes {P : Nat → Prop} {text : String} (hsign : isSign text = true)
    (h : text.toList.getLast?.any (· ∈ [';', '\x7d']) = true) :
    Leads source P (literal text) fun _ ↦ Finished source := by
  intro c a next f hc _ hm
  obtain ⟨hnext, -, hsettled⟩ := takes_literal hsign 0 c a next f hc (Nat.zero_le _) hm
  obtain ⟨hrest, hoffset⟩ := dropText?_eq_some (literal_eq_matched hm)
  obtain ⟨before, rfl, hbefore⟩ := hc
  obtain ⟨x, hx, hmem⟩ := (Option.any_eq_true _ _).mp h
  refine ⟨hnext, hsettled, before ++ text.toList, next.rest, ?_, ?_, .inl ⟨x, ?_, ?_⟩⟩
  · rw [hrest, List.append_assoc]
  · rw [byteLength_append, hbefore, hoffset]
  · rw [List.getLast?_append, hx]
    rfl
  · exact of_decide_eq_true hmem

theorem finishes_literal {text : String} (hsign : isSign text = true)
    (h : text.toList.getLast?.any (· ∈ [';', '\x7d']) = true) : Finishes source (literal text) :=
  literal_finishes hsign h

end Peg.Parser

namespace Grammar

open Peg Peg.Parser

variable {source : List Char} {g : Rules}

theorem finishes_statementEnd : Finishes source statementEnd := by
  refine .orElse (finishes_literal (by decide) (by decide)) ?_
  intro c a next f hc hP hm
  unfold ahead at hm
  cases hl : literal "?>" c with
  | failed e =>
    rw [hl] at hm
    cases hm
  | matched b mid e =>
    rw [hl] at hm
    cases hm
    obtain ⟨hrest, -⟩ := dropText?_eq_some (literal_eq_matched hl)
    obtain ⟨before, hsplit, hbefore⟩ := hc
    exact ⟨⟨before, hsplit, hbefore⟩, hP, before, c.rest, hsplit, hbefore, .inr ⟨_, hrest.symm⟩⟩

variable (hg : g.Sound source)

include hg

theorem finishes_block : Finishes source (block g) := by
  refine .after (reads_literal (by decide)) fun _ ↦ ?_
  refine .after (lays_statements hg).reads fun _ ↦ .gap ?_
  exact .map (finishes_literal (by decide) (by decide))

theorem finishes_methodBody : Finishes source (methodBody g) :=
  .orElse (.map (finishes_block hg))
    (.map (finishes_literal (by decide) (by decide)))

omit hg in
theorem finishes_traitUse : Finishes source traitUse := by
  have hadaptations : Finishes source (do
      literal "\x7b"
      skipMany do
        notAhead (literal "\x7d")
        oneOf .any
      literal "\x7d") := by
    have hany : Moves source (skipMany do notAhead (literal "\x7d"); oneOf .any) :=
      .skipMany (.bind (.notAhead _) fun _ ↦ moves_oneOf _)
    refine (reads_literal (by decide)).settled.bind fun _ ↦ ?_
    refine ((hany 0).imp (fun _ _ ↦ Nat.zero_le _) fun _ _ h ↦ h).bind fun _ ↦ ?_
    exact literal_finishes (by decide) (by decide)
  refine .token (takes_keyword _).reads ?_
  refine .after lays_nameList.reads fun _ ↦ .gap ?_
  exact .map (.orElse (finishes_literal (by decide) (by decide)) hadaptations)

theorem finishes_member : Finishes source (member g) := by
  have hmethod : Finishes source (method g) := by
    refine .after reads_modifiers fun _ ↦ ?_
    refine .token (takes_keyword _).reads ?_
    refine .after reads_byReference fun _ ↦ ?_
    refine .after takes_identifier.reads fun _ ↦ .gap ?_
    refine .after (covers_params hg).lays.reads fun _ ↦ ?_
    refine .after lays_returnType.reads fun _ ↦ .gap ?_
    exact .map (finishes_methodBody hg)
  have hconstant : Finishes source (constantMember g) := by
    refine .after reads_modifiers fun _ ↦ ?_
    refine .token (takes_keyword _).reads ?_
    refine .after (lays_constItems hg).reads fun _ ↦ .gap ?_
    exact .map (finishes_literal (by decide) (by decide))
  have hproperty : Finishes source (propertyMember g) := by
    refine .after reads_modifiers fun mods ↦ ?_
    refine .after (reads_optionalBefore lays_typeHint.reads) fun _ ↦ ?_
    refine .after ((lays_propertyItem hg).sepBy1 reads_comma).reads fun _ ↦ .gap ?_
    refine .bind (finishes_literal (by decide) (by decide)) fun _ ↦ ?_
    split
    · exact .failExpecting _
    · exact .pure _ fun _ _ h ↦ h
  have hkind := finishes_traitUse.orElse (hmethod.orElse (hconstant.orElse hproperty))
  refine .after reads_position fun _ ↦ ?_
  refine .bind hkind fun _ ↦ ?_
  exact .stop fun _ _ h ↦ h

theorem finishes_classBody : Finishes source (classBody g) := by
  refine .after (reads_literal (by decide)) fun _ ↦ ?_
  refine .after (lays_manyAfter (lays_member hg)).reads fun _ ↦ .gap ?_
  exact .map (finishes_literal (by decide) (by decide))

theorem finishes_classLike : Finishes source (classLike g) := by
  have hend {β : Type} {f : List Member → β} :
      Finishes source (do return f (← classBody g)) :=
    .map (finishes_classBody hg)
  have hlist {word : String} {p : Parser (List Name)} (h : Reads source p) :
      Reads source (listAfter word p) :=
    .bind (reads_optionalAfter (.token (takes_keyword _).reads h)) fun _ ↦ .pure _
  refine .orElse ?_ (.orElse ?_ ?_)
  · refine .after (reads_modifiersOf reads_classModifier) fun _ ↦ ?_
    refine .token (takes_keyword _).reads ?_
    refine .after takes_identifier.reads fun _ ↦ ?_
    refine .after (hlist (.bind lays_name.reads fun _ ↦ .pure _)) fun _ ↦ ?_
    refine .after (hlist lays_nameList.reads) fun _ ↦ .gap ?_
    exact hend
  · refine .token (takes_keyword _).reads ?_
    refine .after takes_identifier.reads fun _ ↦ ?_
    refine .after (hlist lays_nameList.reads) fun _ ↦ .gap ?_
    exact hend
  · refine .token (takes_keyword _).reads ?_
    refine .after takes_identifier.reads fun _ ↦ .gap ?_
    exact hend

theorem finishes_body (h : Finishes source g.statement) : Finishes source (body g) :=
  .orElse (finishes_block hg) (.map h)

theorem finishes_ifStatement (h : Finishes source g.statement) :
    Finishes source (ifStatement g) := by
  have hbody := finishes_body hg h
  have helseIf : Finishes source (do trivia; elseIf g) := by
    refine .gap ?_
    refine .token (takes_keyword _).reads ?_
    refine .after (lays_condition hg).reads fun _ ↦ .gap ?_
    exact .map hbody
  have helse : Finishes source (do trivia; keyword "else"; trivia; body g) := by
    refine .gap ?_
    refine .token (takes_keyword _).reads ?_
    exact hbody
  refine .token (takes_keyword _).reads ?_
  refine .after (lays_condition hg).reads fun _ ↦ .gap ?_
  refine .bind hbody fun _ ↦ ?_
  refine helseIf.many.bind fun _ ↦ ?_
  exact helse.optional.bind fun _ ↦ .pure _ fun _ _ h ↦ h

theorem finishes_whileStatement (h : Finishes source g.statement) :
    Finishes source (whileStatement g) := by
  refine .token (takes_keyword _).reads ?_
  refine .after (lays_condition hg).reads fun _ ↦ .gap ?_
  exact .map (finishes_body hg h)

theorem finishes_doWhileStatement : Finishes source (doWhileStatement g) := by
  refine .token (takes_keyword _).reads ?_
  refine .after (lays_body hg).reads fun _ ↦ .gap ?_
  refine .token (takes_keyword _).reads ?_
  refine .after (lays_condition hg).reads fun _ ↦ .gap ?_
  exact .map finishes_statementEnd

theorem finishes_forStatement (h : Finishes source g.statement) :
    Finishes source (forStatement g) := by
  refine .token (takes_keyword _).reads ?_
  refine .token (reads_literal (by decide)) ?_
  refine .after (lays_exprList hg).reads fun _ ↦ .gap ?_
  refine .token (reads_literal (by decide)) ?_
  refine .after (lays_exprList hg).reads fun _ ↦ .gap ?_
  refine .token (reads_literal (by decide)) ?_
  refine .after (lays_exprList hg).reads fun _ ↦ .gap ?_
  refine .token (reads_literal (by decide)) ?_
  exact .map (finishes_body hg h)

theorem finishes_foreachStatement (h : Finishes source g.statement) :
    Finishes source (foreachStatement g) := by
  have hsecond : Reads source (do literal "=>"; trivia; foreachTarget g) :=
    .token (reads_literal (by decide)) (lays_foreachTarget hg).reads
  refine .token (takes_keyword _).reads ?_
  refine .token (reads_literal (by decide)) ?_
  refine .after (lays_anyExpr hg).reads fun _ ↦ .gap ?_
  refine .token (takes_keyword _).reads ?_
  refine .after (lays_foreachTarget hg).reads fun _ ↦ ?_
  refine .after (reads_optionalAfter hsecond) fun _ ↦ .gap ?_
  refine .token (reads_literal (by decide)) ?_
  exact .map (finishes_body hg h)

theorem finishes_switchStatement : Finishes source (switchStatement g) := by
  refine .token (takes_keyword _).reads ?_
  refine .after (lays_condition hg).reads fun _ ↦ .gap ?_
  refine .after (reads_literal (by decide)) fun _ ↦ ?_
  refine .after (lays_manyAfter (lays_case hg)).reads fun _ ↦ .gap ?_
  exact .map (finishes_literal (by decide) (by decide))

theorem finishes_tryStatement : Finishes source (tryStatement g) := by
  have hcatch : Finishes source (do trivia; catchClause g) := by
    have hbar : Reads source (do trivia; literal "|"; trivia) := by
      refine .bind reads_trivia fun _ ↦ ?_
      exact .bind (reads_literal (by decide)) fun _ ↦ reads_trivia
    have htypes := lays_name.reads.sepBy1 hbar
    refine .gap ?_
    refine .token (takes_keyword _).reads ?_
    refine .token (reads_literal (by decide)) ?_
    refine .after htypes fun _ ↦ .gap ?_
    refine .after takes_variableName.reads.optional fun _ ↦ .gap ?_
    refine .token (reads_literal (by decide)) ?_
    exact .map (finishes_block hg)
  have hfinally : Finishes source (do trivia; keyword "finally"; trivia; block g) := by
    refine .gap ?_
    refine .token (takes_keyword _).reads ?_
    exact finishes_block hg
  refine .token (takes_keyword _).reads ?_
  refine .bind (finishes_block hg) fun _ ↦ ?_
  refine hcatch.many.bind fun _ ↦ ?_
  exact hfinally.optional.bind fun _ ↦ .pure _ fun _ _ h ↦ h

theorem finishes_declareStatement : Finishes source (declareStatement g) := by
  have hdirective : Reads source (do
      let _ ← identifier
      trivia
      literal "="
      trivia
      let _ ← anyExpr g) := by
    refine .bind takes_identifier.reads fun _ ↦ ?_
    refine .bind reads_trivia fun _ ↦ ?_
    refine .token (reads_literal (by decide)) ?_
    exact .bind (lays_anyExpr hg).reads fun _ ↦ .pure _
  refine .token (takes_keyword _).reads ?_
  refine .token (reads_literal (by decide)) ?_
  refine .after (hdirective.sepBy reads_comma) fun _ ↦ .gap ?_
  refine .token (reads_literal (by decide)) ?_
  exact .map (finishes_literal (by decide) (by decide))

omit hg in
theorem finishes_jumpStatement (word : String) (kind : StmtKind) :
    Finishes source (jumpStatement word kind) := by
  refine .after (takes_keyword _).reads fun _ ↦ ?_
  refine .after (reads_optionalAfter takes_number.reads) fun _ ↦ .gap ?_
  exact .map finishes_statementEnd

theorem finishes_staticStatement : Finishes source (staticStatement g) := by
  have hvar : Reads source (staticVar g) := by
    refine .bind takes_variableName.reads fun _ ↦ ?_
    exact .bind (lays_defaultValue hg).reads fun _ ↦ .pure _
  refine .token (takes_keyword _).reads ?_
  refine .after (.ahead _) fun _ ↦ ?_
  refine .after (hvar.sepBy1 reads_comma) fun _ ↦ .gap ?_
  exact .map finishes_statementEnd

theorem finishes_statementKind (h : Finishes source g.statement) :
    Finishes source (statementKind g) := by
  have hsign {text : String} (hsign : isSign text = true)
      (hlast : text.toList.getLast?.any (· ∈ [';', '\x7d']) = true) {kind : StmtKind} :
      Finishes source (do literal text; return kind) := .map (finishes_literal hsign hlast)
  have hfunction : Finishes source (functionDecl g) := by
    refine .token (takes_keyword _).reads ?_
    refine .after reads_byReference fun _ ↦ ?_
    refine .after takes_identifier.reads fun _ ↦ .gap ?_
    refine .after (covers_params hg).lays.reads fun _ ↦ ?_
    refine .after lays_returnType.reads fun _ ↦ .gap ?_
    exact .map (finishes_block hg)
  have hnamespace : Finishes source (namespaceStatement g) := by
    refine .orElse ?_ ?_
    · refine .token (takes_keyword _).reads ?_
      refine .after lays_name.reads fun _ ↦ .gap ?_
      exact hsign (by decide) (by decide)
    · refine .token (takes_keyword _).reads ?_
      refine .after (reads_optionalBefore lays_name.reads) fun _ ↦ ?_
      exact .map (finishes_block hg)
  have huse : Finishes source useStatement := by
    refine .token (takes_keyword _).reads ?_
    refine .after reads_useKind.optional fun _ ↦ ?_
    refine .after reads_useClause fun _ ↦ .gap ?_
    exact hsign (by decide) (by decide)
  have hconst : Finishes source (constStatement g) := by
    refine .token (takes_keyword _).reads ?_
    refine .after (lays_constItems hg).reads fun _ ↦ .gap ?_
    exact hsign (by decide) (by decide)
  have hvalue {α : Type} {word : String} {p : Parser α} {kind : α → StmtKind}
      (hp : Reads source p) :
      Finishes source do
        keyword word
        trivia
        let a ← p
        trivia
        statementEnd
        return kind a := by
    refine .token (takes_keyword _).reads ?_
    refine .after hp fun _ ↦ .gap ?_
    exact .map finishes_statementEnd
  have hexpression : Finishes source (expressionStatement g) := by
    refine .after (lays_exprFrom hg 0).reads fun _ ↦ .gap ?_
    exact .map finishes_statementEnd
  refine .orElse hnamespace ?_
  refine .orElse huse ?_
  refine .orElse (.map (finishes_classLike hg)) ?_
  refine .orElse (.map hfunction) ?_
  refine .orElse hconst ?_
  refine .orElse (finishes_declareStatement hg) ?_
  refine .orElse (finishes_ifStatement hg h) ?_
  refine .orElse (finishes_whileStatement hg h) ?_
  refine .orElse (finishes_doWhileStatement hg) ?_
  refine .orElse (finishes_forStatement hg h) ?_
  refine .orElse (finishes_foreachStatement hg h) ?_
  refine .orElse (finishes_switchStatement hg) ?_
  refine .orElse (finishes_tryStatement hg) ?_
  refine .orElse (hvalue (lays_anyExpr hg).reads.optional) ?_
  refine .orElse (hvalue ((lays_anyExpr hg).reads.sepBy1 reads_comma)) ?_
  refine .orElse (hvalue (takes_variableName.reads.sepBy1 reads_comma)) ?_
  refine .orElse (finishes_staticStatement hg) ?_
  refine .orElse (finishes_jumpStatement _ _) ?_
  refine .orElse (finishes_jumpStatement _ _) ?_
  refine .orElse (.map (finishes_block hg)) ?_
  exact .orElse (hsign (by decide) (by decide)) hexpression

theorem finishes_statement (h : Finishes source g.statement) :
    Finishes source (PhpInsight.Grammar.statement g) := by
  refine .after reads_position fun _ ↦ ?_
  refine .bind (finishes_statementKind hg h) fun _ ↦ ?_
  exact .stop fun _ _ h ↦ h

omit hg in
theorem finishes_statement_ofDepth (source : List Char) (n : Nat) :
    Finishes source (Rules.ofDepth n).statement := by
  induction n with
  | zero => exact .fail
  | succ n ih => exact finishes_statement (Rules.sound_ofDepth source n) ih

end Grammar

end PhpInsight

import PhpInsight.Proofs.Span.Declaration

namespace PhpInsight.Grammar

open Peg Peg.Parser Text Node

variable {source : List Char} {g : Rules}

theorem covers_namespaceStatement (hg : g.Sound source) :
    Covers source (namespaceStatement g) StmtKind.children := by
  refine .orElse (fun lo ↦ ?_) (fun lo ↦ ?_)
  · refine .opening (takes_keyword _) ?_
    refine .bind lays_name.reads.within fun _ ↦ .gap ?_
    refine .bind (reads_literal (by decide)).within fun _ ↦ ?_
    exact .pure _ fun _ _ h ↦ h
  · refine .opening (takes_keyword _) ?_
    refine .bind (reads_optionalBefore lays_name.reads).within fun _ ↦ ?_
    refine .bind (covers_block hg).lays.within fun _ ↦ ?_
    exact .pure _ fun _ _ h ↦ h

theorem reads_useKind : Reads source useKind := by
  have hword (word : String) (kind : UseKind) :
      Reads source (do keyword word; trivia; return kind) :=
    .token (takes_keyword _).reads (.pure _)
  exact .orElse (hword _ _) (hword _ _)

theorem reads_useItem : Reads source useItem := by
  have halias : Reads source (do keyword "as"; trivia; identifier) :=
    .token (takes_keyword _).reads takes_identifier.reads
  refine .bind reads_position fun start ↦ ?_
  refine .bind lays_name.reads fun name ↦ ?_
  refine .bind (reads_optionalAfter halias) fun aliasName ↦ ?_
  refine .bind reads_position fun stop ↦ ?_
  exact .pure _

theorem reads_useClause : Reads source useClause := by
  have hitems : Reads source (sepBy1 useItem comma) := reads_useItem.sepBy1 reads_comma
  refine .orElse ?_ hitems
  refine .bind lays_name.reads fun base ↦ ?_
  refine .token (reads_literal (by decide)) ?_
  refine .token (reads_literal (by decide)) ?_
  refine .bind hitems fun items ↦ ?_
  refine .token reads_trailingComma ?_
  refine .bind (reads_literal (by decide)) fun _ ↦ ?_
  exact .pure _

theorem covers_useStatement : Covers source useStatement StmtKind.children := by
  intro lo
  refine .opening (takes_keyword _) ?_
  refine .bind reads_useKind.optional.within fun _ ↦ ?_
  refine .bind reads_useClause.within fun _ ↦ .gap ?_
  refine .bind (reads_literal (by decide)).within fun _ ↦ ?_
  exact .pure _ fun _ _ h ↦ h

theorem covers_declareStatement (hg : g.Sound source) :
    Covers source (declareStatement g) StmtKind.children := by
  intro lo
  have hdirective : Reads source (do
      let _ ← identifier
      trivia
      literal "="
      trivia
      let _ ← anyExpr g) := by
    refine .bind takes_identifier.reads fun name ↦ ?_
    refine .bind reads_trivia fun _ ↦ ?_
    refine .token (reads_literal (by decide)) ?_
    refine .bind (lays_anyExpr hg).reads fun value ↦ ?_
    exact .pure _
  refine .opening (takes_keyword _) ?_
  refine .token (reads_literal (by decide)) ?_
  refine .bind (hdirective.sepBy reads_comma).within fun _ ↦ .gap ?_
  refine .token (reads_literal (by decide)) ?_
  refine .bind (reads_literal (by decide)).within fun _ ↦ ?_
  exact .pure _ fun _ _ h ↦ h

theorem lays_elseIf (hg : g.Sound source) :
    Lays source (elseIf g) fun i ↦ .expr i.condition :: ofStmts i.body := by
  refine Covers.lays fun lo ↦ ?_
  refine .opening (takes_keyword _) ?_
  refine .bind (lays_condition hg).within fun condition ↦ .gap ?_
  refine .bind (lays_body hg).within fun body ↦ ?_
  exact .pure _ fun _ _ h ↦ h

theorem covers_ifStatement (hg : g.Sound source) :
    Covers source (ifStatement g) StmtKind.children := by
  have helse : Lays source (do keyword "else"; trivia; body g) ofStmts :=
    .token (takes_keyword _).reads (lays_body hg)
  intro lo
  refine .opening (takes_keyword _) ?_
  refine .bind (lays_condition hg).within fun c ↦ .gap ?_
  refine .bind (lays_body hg).within fun consequent ↦ ?_
  refine .bind (lays_manyAfter (lays_elseIf hg)).within fun elseIfs ↦ ?_
  refine .bind (lays_optionalAfter helse).within fun otherwise ↦ ?_
  refine .pure _ fun n hn h ↦ ?_
  cases otherwise <;> simpa [StmtKind.children, ofStmts] using h

theorem covers_whileStatement (hg : g.Sound source) :
    Covers source (whileStatement g) StmtKind.children := by
  intro lo
  refine .opening (takes_keyword _) ?_
  refine .bind (lays_condition hg).within fun _ ↦ .gap ?_
  refine .bind (lays_body hg).within fun _ ↦ ?_
  exact .pure _ fun _ _ h ↦ h

theorem covers_doWhileStatement (hg : g.Sound source) :
    Covers source (doWhileStatement g) StmtKind.children := by
  intro lo
  refine .opening (takes_keyword _) ?_
  refine .bind (lays_body hg).within fun _ ↦ .gap ?_
  refine .token (takes_keyword _).reads ?_
  refine .bind (lays_condition hg).within fun _ ↦ .gap ?_
  refine .bind reads_statementEnd.within fun _ ↦ ?_
  exact .pure _ fun _ _ h ↦ h

theorem covers_forStatement (hg : g.Sound source) :
    Covers source (forStatement g) StmtKind.children := by
  intro lo
  refine .opening (takes_keyword _) ?_
  refine .token (reads_literal (by decide)) ?_
  refine .bind (lays_exprList hg).within fun init ↦ .gap ?_
  refine .token (reads_literal (by decide)) ?_
  refine .bind (lays_exprList hg).within fun test ↦ .gap ?_
  refine .token (reads_literal (by decide)) ?_
  refine .bind (lays_exprList hg).within fun step ↦ .gap ?_
  refine .token (reads_literal (by decide)) ?_
  refine .bind (lays_body hg).within fun b ↦ ?_
  refine .pure _ fun n hn h ↦ ?_
  simpa [StmtKind.children] using h

theorem lays_foreachTarget (hg : g.Sound source) :
    Lays source (foreachTarget g) fun e ↦ [.expr e] := by
  intro lo
  refine .bind reads_byReference.laid fun _ ↦ ?_
  exact lays_chain hg lo

theorem covers_foreachStatement (hg : g.Sound source) :
    Covers source (foreachStatement g) StmtKind.children := by
  have hsecond : Lays source (do literal "=>"; trivia; foreachTarget g) fun e ↦ [.expr e] :=
    .token (reads_literal (by decide)) (lays_foreachTarget hg)
  intro lo
  refine .opening (takes_keyword _) ?_
  refine .token (reads_literal (by decide)) ?_
  refine .bind (lays_anyExpr hg).within fun subject ↦ .gap ?_
  refine .token (takes_keyword _).reads ?_
  refine .bind (lays_foreachTarget hg).within fun first ↦ ?_
  refine .bind (lays_optionalAfter hsecond).within fun second ↦ .gap ?_
  refine .token (reads_literal (by decide)) ?_
  refine .bind (lays_body hg).within fun b ↦ ?_
  refine .pure _ fun n hn h ↦ ?_
  cases second <;> simpa [StmtKind.children, ofExprs] using h

theorem lays_case (hg : g.Sound source) :
    Lays source (case g) fun c ↦ ofExprs c.condition.toList ++ ofStmts c.body := by
  have hend : Reads source caseEnd := (takes_oneOf (by decide)).reads
  refine .orElse (Covers.lays fun lo ↦ ?_) (Covers.lays fun lo ↦ ?_)
  · refine .opening (takes_keyword _) ?_
    refine .bind (lays_anyExpr hg).within fun condition ↦ .gap ?_
    refine .bind hend.within fun _ ↦ ?_
    refine .bind (lays_statements hg).within fun body ↦ ?_
    exact .pure _ fun _ _ h ↦ h
  · refine .opening (takes_keyword _) ?_
    refine .bind hend.within fun _ ↦ ?_
    refine .bind (lays_statements hg).within fun body ↦ ?_
    exact .pure _ fun _ _ h ↦ h

theorem covers_switchStatement (hg : g.Sound source) :
    Covers source (switchStatement g) StmtKind.children := by
  intro lo
  refine .opening (takes_keyword _) ?_
  refine .bind (lays_condition hg).within fun _ ↦ .gap ?_
  refine .bind (reads_literal (by decide)).within fun _ ↦ ?_
  refine .bind (lays_manyAfter (lays_case hg)).within fun _ ↦ .gap ?_
  refine .bind (reads_literal (by decide)).within fun _ ↦ ?_
  exact .pure _ fun _ _ h ↦ h

theorem lays_catchClause (hg : g.Sound source) :
    Lays source (catchClause g) fun c ↦ ofNames c.types ++ ofStmts c.body := by
  have hbar : Reads source (do trivia; literal "|"; trivia) :=
    .bind reads_trivia fun _ ↦ .bind (reads_literal (by decide)) fun _ ↦ reads_trivia
  have htypes : Lays source (sepBy1 name (do trivia; literal "|"; trivia)) ofNames :=
    (lays_name.sepBy1 hbar).congr fun _ ↦ List.map_eq_flatMap.symm
  refine Covers.lays fun lo ↦ ?_
  refine .opening (takes_keyword _) ?_
  refine .token (reads_literal (by decide)) ?_
  refine .bind htypes.within fun types ↦ .gap ?_
  refine .bind takes_variableName.reads.optional.within fun binding ↦ .gap ?_
  refine .token (reads_literal (by decide)) ?_
  refine .bind (covers_block hg).lays.within fun body ↦ ?_
  exact .pure _ fun _ _ h ↦ h

theorem covers_tryStatement (hg : g.Sound source) :
    Covers source (tryStatement g) StmtKind.children := by
  have hfinally : Lays source (do keyword "finally"; trivia; block g) ofStmts :=
    .token (takes_keyword _).reads (covers_block hg).lays
  intro lo
  refine .opening (takes_keyword _) ?_
  refine .bind (covers_block hg).lays.within fun b ↦ ?_
  refine .bind (lays_manyAfter (lays_catchClause hg)).within fun catches ↦ ?_
  refine .bind (lays_optionalAfter hfinally).within fun cleanup ↦ ?_
  refine .pure _ fun n hn h ↦ ?_
  cases cleanup <;> simpa [StmtKind.children, ofStmts] using h

theorem covers_constStatement (hg : g.Sound source) :
    Covers source (constStatement g) StmtKind.children := by
  intro lo
  refine .opening (takes_keyword _) ?_
  refine .bind (lays_constItems hg).within fun _ ↦ .gap ?_
  refine .bind (reads_literal (by decide)).within fun _ ↦ ?_
  exact .pure _ fun _ _ h ↦ h

theorem covers_returnStatement (hg : g.Sound source) :
    Covers source (returnStatement g) StmtKind.children := by
  intro lo
  refine .opening (takes_keyword _) ?_
  refine .bind (lays_anyExpr hg).optional.within fun value ↦ .gap ?_
  refine .bind reads_statementEnd.within fun _ ↦ ?_
  refine .pure _ fun n hn h ↦ ?_
  simpa [StmtKind.children, ofExprs, List.map_eq_flatMap] using h

theorem covers_echoStatement (hg : g.Sound source) :
    Covers source (echoStatement g) StmtKind.children := by
  intro lo
  refine .opening (takes_keyword _) ?_
  refine .bind (lays_exprs ((lays_anyExpr hg).sepBy1 reads_comma)).within fun _ ↦ .gap ?_
  refine .bind reads_statementEnd.within fun _ ↦ ?_
  exact .pure _ fun _ _ h ↦ h

theorem covers_globalStatement : Covers source globalStatement StmtKind.children := by
  intro lo
  refine .opening (takes_keyword _) ?_
  refine .bind (takes_variableName.reads.sepBy1 reads_comma).within fun _ ↦ .gap ?_
  refine .bind reads_statementEnd.within fun _ ↦ ?_
  exact .pure _ fun _ _ h ↦ h

theorem covers_staticStatement (hg : g.Sound source) :
    Covers source (staticStatement g) StmtKind.children := by
  have hvar : Lays source (staticVar g) fun v ↦ ofExprs v.default.toList := by
    intro lo
    refine .bind takes_variableName.reads.laid fun _ ↦ ?_
    refine .bind (lays_defaultValue hg).laid fun _ ↦ ?_
    exact .pure _ fun _ _ h ↦ h
  intro lo
  refine .opening (takes_keyword _) ?_
  refine .bind (.ahead _) fun _ ↦ ?_
  refine .bind (hvar.sepBy1 reads_comma).within fun _ ↦ .gap ?_
  refine .bind reads_statementEnd.within fun _ ↦ ?_
  exact .pure _ fun _ _ h ↦ h

theorem covers_jumpStatement (word : String) {kind : StmtKind} (h : kind.children = []) :
    Covers source (jumpStatement word kind) StmtKind.children := by
  intro lo
  refine .bind (takes_keyword _).within fun _ ↦ ?_
  refine .bind (reads_optionalAfter takes_number.reads).within fun _ ↦ .gap ?_
  refine .bind reads_statementEnd.within fun _ ↦ ?_
  exact .pure _ fun _ _ hn ↦ h ▸ hn

theorem covers_nop :
    Covers source (do literal ";"; return StmtKind.nop) StmtKind.children := by
  intro lo
  refine .bind (takes_literal (by decide)).within fun _ ↦ ?_
  exact .pure _ fun _ _ h ↦ h

/-- An expression that ends before a closing tag covers as much as its statement. -/
theorem expressionStatement_leads (hg : g.Sound source) (lo : Nat) :
    Leads source (Laid source lo · []) (expressionStatement g) fun kind n ↦
      Laid source lo n kind.children ∧ lo < n ∧
        ∀ m ∈ kind.children, m.span = ⟨lo, n⟩ → m.rank < 5 := by
  refine .bind (lays_exprFrom hg 0 lo) fun e ↦ ?_
  refine .bind reads_trivia.laid fun _ ↦ ?_
  refine .bind reads_statementEnd.laid fun _ ↦ ?_
  refine .pure _ fun n hn h ↦ ⟨h, ?_, ?_⟩
  · have he := h.mem List.mem_cons_self
    omega
  · simp [StmtKind.children, rank, kind, NodeKind.rank]

theorem statementKind_leads (hg : g.Sound source) (lo : Nat) :
    Leads source (Laid source lo · []) (statementKind g) fun kind n ↦
      Laid source lo n kind.children ∧ lo < n ∧
        ∀ m ∈ kind.children, m.span = ⟨lo, n⟩ → m.rank < 5 := by
  have hcovered {p : Parser StmtKind} (hp : Covers source p StmtKind.children) :
      Leads source (Laid source lo · []) p fun kind n ↦ Laid source lo n kind.children ∧ lo < n ∧
        ∀ m ∈ kind.children, m.span = ⟨lo, n⟩ → m.rank < 5 := by
    refine (hp lo).imp (fun _ h ↦ h) fun kind n h ↦ ⟨h.toLaid, h.moved, fun m hm he ↦ ?_⟩
    exact absurd he (h.ne hm)
  refine .orElse (hcovered (covers_namespaceStatement hg)) ?_
  refine .orElse (hcovered covers_useStatement) ?_
  refine .orElse (hcovered ((covers_classLike hg).map fun _ ↦ rfl)) ?_
  refine .orElse (hcovered ((covers_functionDecl hg).map fun _ ↦ rfl)) ?_
  refine .orElse (hcovered (covers_constStatement hg)) ?_
  refine .orElse (hcovered (covers_declareStatement hg)) ?_
  refine .orElse (hcovered (covers_ifStatement hg)) ?_
  refine .orElse (hcovered (covers_whileStatement hg)) ?_
  refine .orElse (hcovered (covers_doWhileStatement hg)) ?_
  refine .orElse (hcovered (covers_forStatement hg)) ?_
  refine .orElse (hcovered (covers_foreachStatement hg)) ?_
  refine .orElse (hcovered (covers_switchStatement hg)) ?_
  refine .orElse (hcovered (covers_tryStatement hg)) ?_
  refine .orElse (hcovered (covers_returnStatement hg)) ?_
  refine .orElse (hcovered (covers_echoStatement hg)) ?_
  refine .orElse (hcovered covers_globalStatement) ?_
  refine .orElse (hcovered (covers_staticStatement hg)) ?_
  refine .orElse (hcovered (covers_jumpStatement _ rfl)) ?_
  refine .orElse (hcovered (covers_jumpStatement _ rfl)) ?_
  refine .orElse (hcovered ((covers_block hg).map fun _ ↦ rfl)) ?_
  exact .orElse (hcovered covers_nop) (expressionStatement_leads hg lo)

theorem lays_statement (hg : g.Sound source) :
    Lays source (PhpInsight.Grammar.statement g) fun s ↦ [.stmt s] := by
  refine .spanned fun start ↦ ?_
  refine .bind (statementKind_leads hg start) fun kind ↦ ?_
  refine .stop fun n hn h ↦ ?_
  exact h.1.enclose h.2.1 rfl rfl hn h.2.2 trivial

end PhpInsight.Grammar

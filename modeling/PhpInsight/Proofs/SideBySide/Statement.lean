import PhpInsight.Proofs.SideBySide.Operator

namespace PhpInsight.Grammar

open Peg Peg.Parser Text

namespace Frame

variable {F : Frame} {k : Nat} {d : List Char} {g g' : Rules}

theorem steady_statementEnd : F.Steady k d d Eq statementEnd statementEnd :=
  .orElse (firm_literal (by decide)).steady (.ahead (sees_literal (by decide)))

theorem steady_condition (hg : F.Tied k g g') :
    F.Steady k d d (Expr.Like F.toLikeness) (condition g) (condition g') :=
  (firm_enclosed (steady_anyExpr hg)).steady

theorem steady_body (hg : F.Tied k g g') :
    F.Steady k d d (List.Forall₂ (Stmt.Like F.toLikeness)) (body g) (body g') := by
  refine .orElse (firm_block hg).steady ?_
  exact (hg.statement d).steady_of_less.bind fun _ _ h ↦ .pure (.cons h .nil)

theorem steady_constItems (hg : F.Tied k g g') :
    F.Steady k d d (List.Forall₂ (ConstItem.Like F.toLikeness)) (constItems g) (constItems g') := by
  have hitem : F.Steady k d d (ConstItem.Like F.toLikeness) (constItem g) (constItem g') := by
    refine firm_identifier.steady.bind fun _ _ hname ↦ .gap ?_
    refine .token (firm_literal (by decide)) ?_
    refine (steady_anyExpr hg).bind fun _ _ hvalue ↦ ?_
    exact .pure (.mk hname hvalue)
  exact hitem.sepBy1 firm_comma

theorem steady_nameList :
    F.Steady k d d (List.Forall₂ (Name.Like F.toLikeness)) nameList nameList :=
  firm_name.steady.sepBy1 firm_comma

/-- Whatever stands between the braces of a trait use has to be read alike. -/
theorem firm_traitUse (h : F.Steady k d d Eq
      (do literal "\x7b"; skipMany (do notAhead (literal "\x7d"); oneOf .any); literal "\x7d")
      (do literal "\x7b"; skipMany (do notAhead (literal "\x7d"); oneOf .any); literal "\x7d")) :
    F.Firm k d d (MemberKind.Like F.toLikeness) traitUse traitUse := by
  refine Firm.less ?_
  refine .token (firm_keyword _) ?_
  refine steady_nameList.bind fun _ _ hnames ↦ .gap ?_
  refine .bind_eq (.orElse (firm_literal (by decide)).steady h) fun _ ↦ ?_
  exact .pure (.traitUse hnames)

theorem steady_methodBody (hg : F.Tied k g g') :
    F.Steady k d d (Option.Rel (List.Forall₂ (Stmt.Like F.toLikeness))) (methodBody g)
      (methodBody g') := by
  refine .orElse ?_ ?_
  · exact (firm_block hg).steady.bind fun _ _ h ↦ .pure (.some h)
  · exact (firm_literal (by decide)).steady.bind_eq fun _ ↦ .pure .none

theorem firm_method (hg : F.Tied k g g') :
    F.Firm (k + 1) d d (MemberKind.Like F.toLikeness) (method g) (method g') := by
  refine .after_eq steady_modifiers fun _ ↦ ?_
  refine .token (firm_keyword _) ?_
  refine .bind_eq steady_byReference fun _ ↦ ?_
  refine firm_identifier.steady.bind fun _ _ hname ↦ .gap ?_
  refine (firm_params hg).steady.bind fun _ _ hparams ↦ ?_
  refine .bind steady_returnType fun _ _ htype ↦ .gap ?_
  refine (steady_methodBody hg).bind fun _ _ hbody ↦ ?_
  exact .pure (.method (.mk hname hparams htype hbody))

theorem firm_constantMember (hg : F.Tied k g g') :
    F.Firm (k + 1) d d (MemberKind.Like F.toLikeness) (constantMember g) (constantMember g') := by
  refine .after_eq steady_modifiers fun _ ↦ ?_
  refine .token (firm_keyword _) ?_
  refine (steady_constItems hg).bind fun _ _ hitems ↦ .gap ?_
  refine (firm_literal (by decide)).steady.bind_eq fun _ ↦ ?_
  exact .pure (.constant hitems)

theorem firm_propertyItem (hg : F.Tied k g g') :
    F.Firm (k + 1) d d (PropertyItem.Like F.toLikeness) (propertyItem g) (propertyItem g') := by
  refine .position_bind fun _ _ hstart ↦ ?_
  refine firm_variableName.bind fun _ _ hname ↦ ?_
  refine (steady_defaultValue hg).bind fun _ _ hvalue ↦ ?_
  refine .bind .position fun _ _ hstop ↦ ?_
  exact .pure (.mk hname hvalue ⟨hstart, hstop⟩)

theorem firm_propertyItems (hg : F.Tied k g g') :
    F.Firm (k + 1) d d (List.Forall₂ (PropertyItem.Like F.toLikeness))
      (sepBy1 (propertyItem g) comma) (sepBy1 (propertyItem g') comma) := by
  have hmore : F.Firm (k + 1) d d (PropertyItem.Like F.toLikeness) (do comma; propertyItem g)
      (do comma; propertyItem g') :=
    firm_comma.bind_eq fun _ ↦ (firm_propertyItem hg).steady
  refine (firm_propertyItem hg).bind fun _ _ hitem ↦ ?_
  refine .bind (.many hmore.less) fun _ _ hitems ↦ ?_
  exact .pure (.cons hitem hitems)

theorem firm_propertyMember (hg : F.Tied k g g') :
    F.Firm (k + 1) d d (MemberKind.Like F.toLikeness) (propertyMember g) (propertyMember g') := by
  refine .after_eq steady_modifiers fun _ ↦ ?_
  refine .after (steady_optionalBefore firm_typeHint.steady) fun _ _ hhint ↦ ?_
  refine (firm_propertyItems hg).bind fun _ _ hitems ↦ .gap ?_
  refine (firm_literal (by decide)).steady.bind_eq fun _ ↦ ?_
  exact .ite (.failExpecting _) (.pure (.property hhint hitems))

theorem firm_member (hg : F.Tied k g g') :
    F.Firm (k + 1) d d (Member.Like F.toLikeness) (member g) (member g') := by
  have hkind : F.Firm (k + 1) d d (MemberKind.Like F.toLikeness)
      (traitUse <|> method g <|> constantMember g <|> propertyMember g)
      (traitUse <|> method g' <|> constantMember g' <|> propertyMember g') := by
    refine (hg.traitUse d _).orElse ?_
    refine (firm_method hg).orElse ?_
    exact (firm_constantMember hg).orElse (firm_propertyMember hg)
  refine .position_bind fun _ _ hstart ↦ ?_
  refine hkind.bind fun _ _ hkind ↦ ?_
  refine .bind .position fun _ _ hstop ↦ ?_
  exact .pure (.mk hkind ⟨hstart, hstop⟩ F.doc_none)

theorem steady_classBody (hg : F.Tied k g g') :
    F.Steady k d d (List.Forall₂ (Member.Like F.toLikeness)) (classBody g) (classBody g') := by
  refine (firm_literal (by decide)).steady.bind_eq fun _ ↦ ?_
  refine (steady_manyAfter (firm_member hg).less).bind fun _ _ h ↦ .gap ?_
  refine (firm_literal (by decide)).steady.bind_eq fun _ ↦ ?_
  exact .pure h

theorem firm_classModifier : F.Firm (k + 1) d d Eq classModifier classModifier := by
  refine firm_wordsOf fun p hp ↦ ?_
  simp only [List.mem_cons, List.not_mem_nil, or_false] at hp
  rcases hp with rfl | rfl | rfl <;> exact ⟨_, _, rfl⟩

theorem steady_listAfter {α : Type} {R : α → α → Prop} {p : Parser (List α)} (word : String)
    (h : F.Steady k d d (List.Forall₂ R) p p) :
    F.Steady k d d (List.Forall₂ R) (listAfter word p) (listAfter word p) := by
  have hlist : F.Steady k d d (List.Forall₂ R) (do keyword word; trivia; p)
      (do keyword word; trivia; p) := .token (firm_keyword _) h
  exact .bind (steady_optionalAfter hlist) fun _ _ hfound ↦ .pure (forall₂_getD hfound)

theorem firm_classDecl (hg : F.Tied k g g') :
    F.Firm (k + 1) d d (ClassDecl.Like F.toLikeness) (classDecl g) (classDecl g') := by
  have hparent : F.Steady k d d (List.Forall₂ (Name.Like F.toLikeness)) (do return [← name])
      (do return [← name]) := firm_name.steady.bind fun _ _ h ↦ .pure (.cons h .nil)
  refine .after_eq (steady_modifiersOf firm_classModifier) fun _ ↦ ?_
  refine .token (firm_keyword _) ?_
  refine firm_identifier.steady.bind fun _ _ hname ↦ ?_
  refine .bind (steady_listAfter _ hparent) fun _ _ hparents ↦ ?_
  refine .bind (steady_listAfter _ steady_nameList) fun _ _ hinterfaces ↦ .gap ?_
  refine (steady_classBody hg).bind fun _ _ hmembers ↦ ?_
  exact .pure (.mk hname hparents hinterfaces hmembers F.doc_none)

theorem firm_interfaceDecl (hg : F.Tied k g g') :
    F.Firm (k + 1) d d (ClassDecl.Like F.toLikeness) (interfaceDecl g) (interfaceDecl g') := by
  refine .token (firm_keyword _) ?_
  refine firm_identifier.steady.bind fun _ _ hname ↦ ?_
  refine .bind (steady_listAfter _ steady_nameList) fun _ _ hparents ↦ .gap ?_
  refine (steady_classBody hg).bind fun _ _ hmembers ↦ ?_
  exact .pure (.mk hname hparents .nil hmembers F.doc_none)

theorem firm_traitDecl (hg : F.Tied k g g') :
    F.Firm (k + 1) d d (ClassDecl.Like F.toLikeness) (traitDecl g) (traitDecl g') := by
  refine .token (firm_keyword _) ?_
  refine firm_identifier.steady.bind fun _ _ hname ↦ .gap ?_
  refine (steady_classBody hg).bind fun _ _ hmembers ↦ ?_
  exact .pure (.mk hname .nil .nil hmembers F.doc_none)

theorem firm_classLike (hg : F.Tied k g g') :
    F.Firm (k + 1) d d (ClassDecl.Like F.toLikeness) (classLike g) (classLike g') := by
  refine (firm_classDecl hg).orElse ?_
  exact (firm_interfaceDecl hg).orElse (firm_traitDecl hg)

theorem firm_functionDecl (hg : F.Tied k g g') :
    F.Firm (k + 1) d d (FunctionDecl.Like F.toLikeness) (functionDecl g) (functionDecl g') := by
  refine .token (firm_keyword _) ?_
  refine .bind_eq steady_byReference fun _ ↦ ?_
  refine firm_identifier.steady.bind fun _ _ hname ↦ .gap ?_
  refine (firm_params hg).steady.bind fun _ _ hparams ↦ ?_
  refine .bind steady_returnType fun _ _ htype ↦ .gap ?_
  refine (firm_block hg).steady.bind fun _ _ hbody ↦ ?_
  exact .pure (.mk hname hparams htype hbody F.doc_none)

theorem firm_namespaceStatement (hg : F.Tied k g g') :
    F.Firm (k + 1) d d (StmtKind.Like F.toLikeness) (namespaceStatement g)
      (namespaceStatement g') := by
  refine .orElse ?_ ?_
  · refine .token (firm_keyword _) ?_
    refine firm_name.steady.bind fun _ _ hname ↦ .gap ?_
    refine (firm_literal (by decide)).steady.bind_eq fun _ ↦ ?_
    exact .pure (.namespace (.some hname) .none)
  · refine .token (firm_keyword _) ?_
    refine .bind (steady_optionalBefore firm_name.steady) fun _ _ hname ↦ ?_
    refine (firm_block hg).steady.bind fun _ _ hbody ↦ ?_
    exact .pure (.namespace hname (.some hbody))

theorem steady_useItem : F.Steady k d d (UseItem.Like F.toLikeness) useItem useItem := by
  have halias : F.Steady k d d (Identifier.Like F.toLikeness [])
      (do keyword "as"; trivia; identifier) (do keyword "as"; trivia; identifier) :=
    .token (firm_keyword _) firm_identifier.steady
  refine .bind .position fun _ _ hstart ↦ ?_
  refine firm_name.steady.bind fun _ _ hname ↦ ?_
  refine .bind (steady_optionalAfter halias) fun _ _ halias ↦ ?_
  refine .bind .position fun _ _ hstop ↦ ?_
  exact .pure ⟨hname.parts, hname.kind, hname.span, halias, hstart, hstop⟩

theorem like_groupedUse {L : Likeness} {n n' : Name} {u u' : UseItem} (hn : n.Like L n')
    (hu : u.Like L u') : (groupedUse n u).Like L (groupedUse n' u') := by
  have hfull : n.isFullyQualified = n'.isFullyQualified := by
    rw [Name.isFullyQualified, Name.isFullyQualified, hn.kind]
  exact ⟨congrArg₂ _ hn.parts hu.parts, by simp only [groupedUse, hfull], hu.nameSpan,
    hu.aliasName, hu.span⟩

theorem steady_useClause :
    F.Steady k d d (List.Forall₂ (UseItem.Like F.toLikeness)) useClause useClause := by
  have hitems : F.Steady k d d (List.Forall₂ (UseItem.Like F.toLikeness)) (sepBy1 useItem comma)
      (sepBy1 useItem comma) :=
    steady_useItem.sepBy1 firm_comma
  refine .orElse ?_ hitems
  refine firm_name.steady.bind fun _ _ hgroup ↦ ?_
  refine .token (firm_literal (by decide)) ?_
  refine .token (firm_literal (by decide)) ?_
  refine hitems.bind fun _ _ h ↦ ?_
  refine .bind_eq steady_trailingComma fun _ ↦ .gap ?_
  refine (firm_literal (by decide)).steady.bind_eq fun _ ↦ ?_
  exact .pure (List.rel_map (fun _ _ hu ↦ like_groupedUse hgroup hu) h)

theorem firm_useStatement :
    F.Firm (k + 1) d d (StmtKind.Like F.toLikeness) useStatement useStatement := by
  have hkind (word : String) (kind : UseKind) : F.Steady k d d Eq
      (do keyword word; trivia; return kind) (do keyword word; trivia; return kind) :=
    .token (firm_keyword _) (.pure rfl)
  refine .token (firm_keyword _) ?_
  refine .bind (.optional ((hkind _ _).orElse (hkind _ _))) fun kind kind' hkind ↦ ?_
  refine steady_useClause.bind fun _ _ hitems ↦ .gap ?_
  refine (firm_literal (by decide)).steady.bind_eq fun _ ↦ ?_
  refine .pure ?_
  have hsame : kind = kind' := by cases hkind <;> simp_all
  exact hsame ▸ .use hitems

theorem firm_declareStatement (hg : F.Tied k g g') :
    F.Firm (k + 1) d d (StmtKind.Like F.toLikeness) (declareStatement g) (declareStatement g') := by
  have hdirective : F.Steady k (')' :: d) (')' :: d) Eq
      (do let _ ← identifier; trivia; literal "="; trivia; let _ ← anyExpr g)
      (do let _ ← identifier; trivia; literal "="; trivia; let _ ← anyExpr g') := by
    refine firm_identifier.steady.bind fun _ _ _ ↦ .gap ?_
    refine .token (firm_literal (by decide)) ?_
    exact (steady_anyExpr hg).bind fun _ _ _ ↦ .pure rfl
  refine .token (firm_keyword _) ?_
  refine .token firm_parenthesis ?_
  refine (hdirective.sepBy firm_comma).bind fun _ _ _ ↦ .gap ?_
  refine .token firm_parenthesis_end ?_
  refine (firm_literal (by decide)).steady.bind_eq fun _ ↦ ?_
  exact .pure .nop

theorem firm_elseIf (hg : F.Tied k g g') :
    F.Firm (k + 1) d d (ElseIf.Like F.toLikeness) (elseIf g) (elseIf g') := by
  refine .token (firm_keyword _) ?_
  refine (steady_condition hg).bind fun _ _ hc ↦ .gap ?_
  refine (steady_body hg).bind fun _ _ hbody ↦ ?_
  exact .pure (.mk hc hbody)

theorem firm_ifStatement (hg : F.Tied k g g') :
    F.Firm (k + 1) d d (StmtKind.Like F.toLikeness) (ifStatement g) (ifStatement g') := by
  have helse : F.Steady k d d (List.Forall₂ (Stmt.Like F.toLikeness))
      (do keyword "else"; trivia; body g) (do keyword "else"; trivia; body g') :=
    .token (firm_keyword _) (steady_body hg)
  refine .token (firm_keyword _) ?_
  refine (steady_condition hg).bind fun _ _ hc ↦ .gap ?_
  refine (steady_body hg).bind fun _ _ hbody ↦ ?_
  refine .bind (steady_manyAfter (firm_elseIf hg).less) fun _ _ helseIfs ↦ ?_
  refine .bind (steady_optionalAfter helse) fun _ _ hotherwise ↦ ?_
  exact .pure (.if hc hbody helseIfs hotherwise)

theorem firm_whileStatement (hg : F.Tied k g g') :
    F.Firm (k + 1) d d (StmtKind.Like F.toLikeness) (whileStatement g) (whileStatement g') := by
  refine .token (firm_keyword _) ?_
  refine (steady_condition hg).bind fun _ _ hc ↦ .gap ?_
  refine (steady_body hg).bind fun _ _ hbody ↦ ?_
  exact .pure (.while hc hbody)

theorem firm_doWhileStatement (hg : F.Tied k g g') :
    F.Firm (k + 1) d d (StmtKind.Like F.toLikeness) (doWhileStatement g) (doWhileStatement g') := by
  refine .token (firm_keyword _) ?_
  refine (steady_body hg).bind fun _ _ hbody ↦ .gap ?_
  refine .token (firm_keyword _) ?_
  refine (steady_condition hg).bind fun _ _ hc ↦ .gap ?_
  refine steady_statementEnd.bind_eq fun _ ↦ ?_
  exact .pure (.doWhile hbody hc)

theorem firm_forStatement (hg : F.Tied k g g') :
    F.Firm (k + 1) d d (StmtKind.Like F.toLikeness) (forStatement g) (forStatement g') := by
  refine .token (firm_keyword _) ?_
  refine .token firm_parenthesis ?_
  refine (steady_exprList hg).bind fun _ _ hinit ↦ .gap ?_
  refine .token (firm_literal (by decide)) ?_
  refine (steady_exprList hg).bind fun _ _ htest ↦ .gap ?_
  refine .token (firm_literal (by decide)) ?_
  refine (steady_exprList hg).bind fun _ _ hstep ↦ .gap ?_
  refine .token firm_parenthesis_end ?_
  refine (steady_body hg).bind fun _ _ hbody ↦ ?_
  exact .pure (.for hinit htest hstep hbody)

theorem steady_foreachTarget (hg : F.Tied k g g') :
    F.Steady k d d (Expr.Like F.toLikeness) (foreachTarget g) (foreachTarget g') :=
  .bind_eq steady_byReference fun _ ↦ (firm_chain hg).steady

theorem firm_foreachStatement (hg : F.Tied k g g') :
    F.Firm (k + 1) d d (StmtKind.Like F.toLikeness) (foreachStatement g) (foreachStatement g') := by
  have hvalue : F.Steady k (')' :: d) (')' :: d) (Expr.Like F.toLikeness)
      (do literal "=>"; trivia; foreachTarget g) (do literal "=>"; trivia; foreachTarget g') :=
    .token (firm_literal (by decide)) (steady_foreachTarget hg)
  refine .token (firm_keyword _) ?_
  refine .token firm_parenthesis ?_
  refine (steady_anyExpr hg).bind fun _ _ hsubject ↦ .gap ?_
  refine .token (firm_keyword _) ?_
  refine (steady_foreachTarget hg).bind fun _ _ hfirst ↦ ?_
  refine .bind (steady_optionalAfter hvalue) fun _ _ hsecond ↦ .gap ?_
  refine .token firm_parenthesis_end ?_
  refine (steady_body hg).bind fun _ _ hbody ↦ ?_
  refine .pure ?_
  cases hsecond with
  | none => exact .foreach hsubject .none hfirst hbody
  | some hvalue => exact .foreach hsubject (.some hfirst) hvalue hbody

theorem firm_case (hg : F.Tied k g g') :
    F.Firm (k + 1) d d (Case.Like F.toLikeness) (case g) (case g') := by
  have hend : F.Steady k d d Eq caseEnd caseEnd := (firm_oneOf (by decide)).steady_of_less
  refine .orElse ?_ ?_
  · refine .token (firm_keyword _) ?_
    refine (steady_anyExpr hg).bind fun _ _ he ↦ .gap ?_
    refine hend.bind_eq fun _ ↦ ?_
    refine (steady_statements hg).bind fun _ _ hbody ↦ ?_
    exact .pure (.mk (.some he) hbody)
  · refine .token (firm_keyword _) ?_
    refine hend.bind_eq fun _ ↦ ?_
    refine (steady_statements hg).bind fun _ _ hbody ↦ ?_
    exact .pure (.mk .none hbody)

theorem firm_switchStatement (hg : F.Tied k g g') :
    F.Firm (k + 1) d d (StmtKind.Like F.toLikeness) (switchStatement g) (switchStatement g') := by
  refine .token (firm_keyword _) ?_
  refine (steady_condition hg).bind fun _ _ hc ↦ .gap ?_
  refine (firm_literal (by decide)).steady.bind_eq fun _ ↦ ?_
  refine .bind (steady_manyAfter (firm_case hg).less) fun _ _ hcases ↦ .gap ?_
  refine (firm_literal (by decide)).steady.bind_eq fun _ ↦ ?_
  exact .pure (.switch hc hcases)

theorem firm_catchClause (hg : F.Tied k g g') :
    F.Firm (k + 1) d d (Catch.Like F.toLikeness) (catchClause g) (catchClause g') := by
  have hbar : F.Firm (k + 1) (')' :: d) (')' :: d) Eq (do trivia; literal "|"; trivia)
      (do trivia; literal "|"; trivia) :=
    .gap (.bind_eq (firm_literal (by decide)) fun _ ↦ steady_trivia)
  refine .token (firm_keyword _) ?_
  refine .token firm_parenthesis ?_
  refine (firm_name.steady.sepBy1 hbar).bind fun _ _ htypes ↦ .gap ?_
  refine .bind (.optional firm_variableName.steady) fun _ _ hbinding ↦ .gap ?_
  refine .token firm_parenthesis_end ?_
  refine (firm_block hg).steady.bind fun _ _ hbody ↦ ?_
  exact .pure (.mk htypes hbinding hbody)

theorem firm_tryStatement (hg : F.Tied k g g') :
    F.Firm (k + 1) d d (StmtKind.Like F.toLikeness) (tryStatement g) (tryStatement g') := by
  have hfinally : F.Steady k d d (List.Forall₂ (Stmt.Like F.toLikeness))
      (do keyword "finally"; trivia; block g) (do keyword "finally"; trivia; block g') :=
    .token (firm_keyword _) (firm_block hg).steady
  refine .token (firm_keyword _) ?_
  refine (firm_block hg).steady.bind fun _ _ hbody ↦ ?_
  refine .bind (steady_manyAfter (firm_catchClause hg).less) fun _ _ hcatches ↦ ?_
  refine .bind (steady_optionalAfter hfinally) fun _ _ hcleanup ↦ ?_
  exact .pure (.try hbody hcatches hcleanup)

theorem firm_constStatement (hg : F.Tied k g g') :
    F.Firm (k + 1) d d (StmtKind.Like F.toLikeness) (constStatement g) (constStatement g') := by
  refine .token (firm_keyword _) ?_
  refine (steady_constItems hg).bind fun _ _ h ↦ .gap ?_
  refine (firm_literal (by decide)).steady.bind_eq fun _ ↦ ?_
  exact .pure (.const h)

theorem firm_returnStatement (hg : F.Tied k g g') :
    F.Firm (k + 1) d d (StmtKind.Like F.toLikeness) (returnStatement g) (returnStatement g') := by
  refine .token (firm_keyword _) ?_
  refine (steady_anyExpr hg).optional.bind fun _ _ h ↦ .gap ?_
  refine steady_statementEnd.bind_eq fun _ ↦ ?_
  exact .pure (.return h)

theorem firm_echoStatement (hg : F.Tied k g g') :
    F.Firm (k + 1) d d (StmtKind.Like F.toLikeness) (echoStatement g) (echoStatement g') := by
  refine .token (firm_keyword _) ?_
  refine ((steady_anyExpr hg).sepBy1 firm_comma).bind fun _ _ h ↦ .gap ?_
  refine steady_statementEnd.bind_eq fun _ ↦ ?_
  exact .pure (.echo h)

theorem firm_globalStatement :
    F.Firm (k + 1) d d (StmtKind.Like F.toLikeness) globalStatement globalStatement := by
  refine .token (firm_keyword _) ?_
  refine (firm_variableName.steady.sepBy1 firm_comma).bind fun _ _ h ↦ .gap ?_
  refine steady_statementEnd.bind_eq fun _ ↦ ?_
  exact .pure (.global h)

theorem steady_staticVar (hg : F.Tied k g g') :
    F.Steady k d d (StaticVar.Like F.toLikeness) (staticVar g) (staticVar g') := by
  refine firm_variableName.steady.bind fun _ _ hname ↦ ?_
  refine (steady_defaultValue hg).bind fun _ _ hvalue ↦ ?_
  exact .pure (.mk hname hvalue)

theorem firm_staticStatement (hg : F.Tied k g g') :
    F.Firm (k + 1) d d (StmtKind.Like F.toLikeness) (staticStatement g) (staticStatement g') := by
  refine .token (firm_keyword _) ?_
  refine .bind_eq (.ahead (sees_literal (by decide))) fun _ ↦ ?_
  refine ((steady_staticVar hg).sepBy1 firm_comma).bind fun _ _ h ↦ .gap ?_
  refine steady_statementEnd.bind_eq fun _ ↦ ?_
  exact .pure (.static h)

theorem firm_jumpStatement (word : String) {kind : StmtKind}
    (h : kind.Like F.toLikeness kind) :
    F.Firm (k + 1) d d (StmtKind.Like F.toLikeness) (jumpStatement word kind)
      (jumpStatement word kind) := by
  refine (firm_keyword _).bind_eq fun _ ↦ ?_
  refine .bind (steady_optionalAfter firm_number.steady) fun _ _ _ ↦ .gap ?_
  refine steady_statementEnd.bind_eq fun _ ↦ ?_
  exact .pure h

theorem firm_expressionStatement (hg : F.Tied k g g') :
    F.Firm (k + 1) d d (StmtKind.Like F.toLikeness) (expressionStatement g)
      (expressionStatement g') := by
  refine (firm_exprFrom hg 0).bind fun _ _ h ↦ .gap ?_
  refine steady_statementEnd.bind_eq fun _ ↦ ?_
  exact .pure (.expression h)

theorem firm_statementKind (hg : F.Tied k g g') :
    F.Firm (k + 1) d d (StmtKind.Like F.toLikeness) (statementKind g) (statementKind g') := by
  have hclass : F.Firm (k + 1) d d (StmtKind.Like F.toLikeness)
      (do return StmtKind.classLike (← classLike g)) (do return .classLike (← classLike g')) :=
    (firm_classLike hg).bind fun _ _ h ↦ .pure (.classLike h)
  have hfunction : F.Firm (k + 1) d d (StmtKind.Like F.toLikeness)
      (do return StmtKind.function (← functionDecl g))
      (do return .function (← functionDecl g')) :=
    (firm_functionDecl hg).bind fun _ _ h ↦ .pure (.function h)
  have hblock : F.Firm (k + 1) d d (StmtKind.Like F.toLikeness)
      (do return StmtKind.block (← block g)) (do return .block (← block g')) :=
    (firm_block hg).bind fun _ _ h ↦ .pure (.block h)
  have hempty : F.Firm (k + 1) d d (StmtKind.Like F.toLikeness)
      (do literal ";"; return StmtKind.nop) (do literal ";"; return .nop) :=
    (firm_literal (by decide)).bind_eq fun _ ↦ .pure .nop
  refine (firm_namespaceStatement hg).orElse ?_
  refine firm_useStatement.orElse ?_
  refine hclass.orElse ?_
  refine hfunction.orElse ?_
  refine (firm_constStatement hg).orElse ?_
  refine (firm_declareStatement hg).orElse ?_
  refine (firm_ifStatement hg).orElse ?_
  refine (firm_whileStatement hg).orElse ?_
  refine (firm_doWhileStatement hg).orElse ?_
  refine (firm_forStatement hg).orElse ?_
  refine (firm_foreachStatement hg).orElse ?_
  refine (firm_switchStatement hg).orElse ?_
  refine (firm_tryStatement hg).orElse ?_
  refine (firm_returnStatement hg).orElse ?_
  refine (firm_echoStatement hg).orElse ?_
  refine firm_globalStatement.orElse ?_
  refine (firm_staticStatement hg).orElse ?_
  refine (firm_jumpStatement _ .break).orElse ?_
  refine (firm_jumpStatement _ .continue).orElse ?_
  refine hblock.orElse ?_
  exact hempty.orElse (firm_expressionStatement hg)

theorem firm_statement (hg : F.Tied k g g') :
    F.Firm (k + 1) d d (Stmt.Like F.toLikeness) (statement g) (statement g') := by
  refine .position_bind fun _ _ hstart ↦ ?_
  refine (firm_statementKind hg).bind fun _ _ h ↦ ?_
  refine .bind .position fun _ _ hstop ↦ ?_
  exact .pure (.mk h ⟨hstart, hstop⟩)

/-- The depths need not be the same, and only the first text has to be short enough for its own. -/
theorem tied_ofDepth
    (htrait : ∀ d k, F.Firm k d d (MemberKind.Like F.toLikeness) traitUse traitUse)
    {k m n : Nat} (hm : k ≤ m) (hn : k ≤ n) : F.Tied k (.ofDepth m) (.ofDepth n) := by
  have hidle (min : Nat) {xs : List Char} (hxs : ¬ ['<', '<'] <+: xs) (m n : Nat) :
      Rejects ((Rules.ofDepth m).binary min) ('<' :: xs) ∧
        Rejects ((Rules.ofDepth n).binary min) ('<' :: xs) :=
    ⟨rejects_angle hxs m min, rejects_angle hxs n min⟩
  -- A rule refers to another one only behind a character: one level more serves one character more.
  induction k generalizing m n with
  | zero =>
    exact {
      statement := fun _ _ _ _ h ↦ absurd h (Nat.not_lt_zero _)
      expr := fun _ _ _ _ _ h ↦ absurd h (Nat.not_lt_zero _)
      ternary := fun _ _ _ _ h ↦ absurd h (Nat.not_lt_zero _)
      binary := fun _ _ _ _ _ h ↦ absurd h (Nat.not_lt_zero _)
      idle := fun min _ hxs ↦ hidle min hxs m n
      traitUse := htrait }
  | succ k ih =>
    obtain ⟨m, rfl⟩ : ∃ m', m = m' + 1 := ⟨m - 1, by omega⟩
    obtain ⟨n, rfl⟩ : ∃ n', n = n' + 1 := ⟨n - 1, by omega⟩
    have hg : F.Tied k (.ofDepth m) (.ofDepth n) :=
      ih (Nat.le_of_succ_le_succ hm) (Nat.le_of_succ_le_succ hn)
    exact {
      statement := fun _ ↦ firm_statement hg
      expr := fun _ ↦ firm_exprFrom hg
      ternary := fun _ ↦ firm_ternary hg
      binary := fun _ ↦ firm_binaryFrom hg
      idle := fun min _ hxs ↦ hidle min hxs _ _
      traitUse := htrait }

/-- What stands behind the code of a file has to be read alike, and so has its end. -/
theorem steady_file (hg : F.Tied k g g')
    (hbehind : F.Steady k d d Eq (skipMany (oneOf .any)) (skipMany (oneOf .any)))
    (hend : F.Sees d (oneOf .any) (oneOf .any)) :
    F.Steady k d d (List.Forall₂ (Stmt.Like F.toLikeness)) (file g) (file g') := by
  have hmark : F.Steady k d d Eq (literal (String.singleton byteOrderMark))
      (literal (String.singleton byteOrderMark)) := (firm_literal (by decide)).steady
  have hword : F.Sees d (oneOf wordStart <|> oneOf digit) (oneOf wordStart <|> oneOf digit) :=
    fun c c' hc ↦ (sees_oneOf (by decide) c c' hc).orElse (sees_oneOf (by decide) c c' hc)
  have hclose : F.Steady k d d Eq (do literal "?>"; skipMany (oneOf .any))
      (do literal "?>"; skipMany (oneOf .any)) :=
    (firm_literal (by decide)).steady.bind_eq fun _ ↦ hbehind
  refine .bind (.optional hmark) fun _ _ _ ↦ .gap ?_
  refine (firm_literal (by decide)).steady.bind_eq fun _ ↦ ?_
  refine .bind_eq (.notAhead hword) fun _ ↦ ?_
  refine (steady_statements hg).bind fun _ _ hss ↦ .gap ?_
  refine .bind (.optional hclose) fun _ _ _ ↦ ?_
  refine .bind_eq (.notAhead hend) fun _ ↦ ?_
  exact .pure hss

end Frame

end PhpInsight.Grammar

import PhpInsight.Grammar.Statement
import PhpInsight.Proofs.Span.Operator

namespace PhpInsight.Grammar

open Peg Peg.Parser Text Node

variable {source : List Char} {g : Rules}

theorem reads_statementEnd : Reads source statementEnd :=
  .orElse (reads_literal (by decide)) (.ahead _)

theorem lays_condition (hg : g.Sound source) : Lays source (condition g) fun e ↦ [.expr e] :=
  (covers_between (by decide) (lays_anyExpr hg)).lays

theorem lays_body (hg : g.Sound source) : Lays source (body g) ofStmts :=
  (covers_block hg).lays.orElse (hg.statement.map fun _ ↦ rfl)

theorem lays_constItems (hg : g.Sound source) :
    Lays source (constItems g) fun items ↦ items.map fun i ↦ .expr i.value := by
  have hitem : Lays source (constItem g) fun i ↦ [.expr i.value] := by
    refine Covers.lays fun lo ↦ ?_
    refine .bind takes_identifier.within fun name ↦ .gap ?_
    refine .token (reads_literal (by decide)) ?_
    refine .bind (lays_anyExpr hg).within fun value ↦ ?_
    exact .pure _ fun _ _ h ↦ h
  exact (hitem.sepBy1 reads_comma).congr fun _ ↦ List.map_eq_flatMap.symm

theorem lays_nameList : Lays source nameList ofNames :=
  (lays_name.sepBy1 reads_comma).congr fun _ ↦ List.map_eq_flatMap.symm

theorem lays_methodBody (hg : g.Sound source) :
    Lays source (methodBody g) fun o ↦ ofStmts (o.getD []) := by
  have habstract : Lays source (do literal ";"; return (none : Option (List Stmt)))
      fun o ↦ ofStmts (o.getD []) := fun lo ↦
    (reads_literal (by decide)).laid.bind fun _ ↦ .pure _ fun _ _ h ↦ h
  exact .orElse ((covers_block hg).lays.map fun _ ↦ rfl) habstract

theorem covers_traitUse :
    Covers source traitUse MemberKind.children := by
  have hrule : Moves source (do notAhead (literal "\x7d"); oneOf .any) :=
    .bind (.notAhead _) fun _ ↦ moves_oneOf _
  have hrules : Takes source (do
      literal "\x7b"
      skipMany do
        notAhead (literal "\x7d")
        oneOf .any
      literal "\x7d") := by
    refine .after (takes_literal (by decide)).moves fun _ ↦ ?_
    refine .after (.skipMany hrule) fun _ ↦ ?_
    exact takes_literal (by decide)
  intro lo
  refine .opening (takes_keyword _) ?_
  refine .bind lays_nameList.within fun names ↦ .gap ?_
  refine .bind (Takes.orElse (takes_literal (by decide)) hrules).reads.within fun _ ↦ ?_
  exact .pure _ fun _ _ h ↦ h

theorem covers_method (hg : g.Sound source) :
    Covers source (method g) MemberKind.children := by
  intro lo
  refine .bind reads_modifiers.laid fun mods ↦ ?_
  refine .opening (takes_keyword _) ?_
  refine .bind reads_byReference.within fun byRef ↦ ?_
  refine .bind takes_identifier.reads.within fun name ↦ .gap ?_
  refine .bind (covers_params hg).lays.within fun ps ↦ ?_
  refine .bind lays_returnType.within fun type ↦ .gap ?_
  refine .bind (lays_methodBody hg).within fun body ↦ ?_
  refine .pure _ fun n hn h ↦ ?_
  simpa [MemberKind.children] using h

theorem covers_constantMember (hg : g.Sound source) :
    Covers source (constantMember g) MemberKind.children := by
  intro lo
  refine .bind reads_modifiers.laid fun _ ↦ ?_
  refine .opening (takes_keyword _) ?_
  refine .bind (lays_constItems hg).within fun _ ↦ .gap ?_
  refine .bind (reads_literal (by decide)).within fun _ ↦ ?_
  exact .pure _ fun _ _ h ↦ h

theorem lays_propertyItem (hg : g.Sound source) :
    Lays source (propertyItem g) fun i ↦ ofExprs i.default.toList := by
  refine .spanned fun _ ↦ ?_
  refine .bind takes_variableName.reads.laid fun _ ↦ ?_
  refine .bind (lays_defaultValue hg).laid fun _ ↦ ?_
  exact .stop fun _ _ h ↦ h

theorem covers_propertyMember (hg : g.Sound source) :
    Covers source (propertyMember g) MemberKind.children := by
  intro lo
  refine .bind reads_modifiers.laid fun mods ↦ ?_
  refine .bind (lays_optionalBefore lays_typeHint).laid fun hint ↦ ?_
  refine .bind ((lays_propertyItem hg).sepBy1 reads_comma).laid fun items ↦ ?_
  refine .bind reads_trivia.laid fun _ ↦ ?_
  refine .bind (takes_literal (by decide)).within fun _ ↦ ?_
  split
  · exact .failExpecting _
  · refine .pure _ fun n hn h ↦ ?_
    simpa [MemberKind.children, ofType?, List.map_eq_flatMap] using h

theorem lays_member (hg : g.Sound source) : Lays source (member g) fun m ↦ [.member m] := by
  have hkind : Covers source (traitUse <|> method g <|> constantMember g <|> propertyMember g)
      MemberKind.children := by
    refine covers_traitUse.orElse ?_
    refine (covers_method hg).orElse ?_
    exact (covers_constantMember hg).orElse (covers_propertyMember hg)
  refine .spanned fun start ↦ ?_
  refine .bind (hkind start) fun kind ↦ ?_
  exact .stop fun n hn h ↦ h.laid rfl rfl hn trivial

theorem lays_classBody (hg : g.Sound source) :
    Lays source (classBody g) fun ms ↦ ms.map .member := by
  refine Covers.lays fun lo ↦ ?_
  refine .bind (takes_literal (by decide)).within fun _ ↦ ?_
  refine .bind (lays_manyAfter (lays_member hg)).within fun ms ↦ .gap ?_
  refine .bind (reads_literal (by decide)).within fun _ ↦ ?_
  refine .pure _ fun n hn h ↦ ?_
  simpa [List.map_eq_flatMap] using h

theorem reads_classModifier : Reads source classModifier := by
  refine .firstOf fun p hp ↦ ?_
  simp only [List.mem_cons, List.not_mem_nil, or_false] at hp
  rcases hp with rfl | rfl | rfl
  all_goals exact .bind (takes_keyword _).reads fun _ ↦ .pure _

theorem lays_listAfter (word : String) {p : Parser (List Name)} (h : Lays source p ofNames) :
    Lays source (listAfter word p) ofNames := by
  have hlist : Lays source (do keyword word; trivia; p) ofNames :=
    .token (takes_keyword _).reads h
  intro lo
  refine (lays_optionalAfter hlist lo).bind fun found ↦ .pure _ fun n hn h ↦ ?_
  cases found with
  | none => exact h
  | some names => simpa using h

theorem covers_classDecl (hg : g.Sound source) :
    Covers source (classDecl g) fun d ↦ (StmtKind.classLike d).children := by
  have hparent : Lays source (do return [← PhpInsight.Grammar.name]) ofNames :=
    lays_name.map fun _ ↦ rfl
  intro lo
  refine .bind (reads_modifiersOf reads_classModifier).laid fun mods ↦ ?_
  refine .opening (takes_keyword _) ?_
  refine .bind takes_identifier.reads.within fun name ↦ ?_
  refine .bind (lays_listAfter _ hparent).within fun parents ↦ ?_
  refine .bind (lays_listAfter _ lays_nameList).within fun interfaces ↦ .gap ?_
  refine .bind (lays_classBody hg).within fun members ↦ ?_
  refine .pure _ fun n hn h ↦ ?_
  simpa [StmtKind.children] using h

theorem covers_interfaceDecl (hg : g.Sound source) :
    Covers source (interfaceDecl g) fun d ↦ (StmtKind.classLike d).children := by
  intro lo
  refine .opening (takes_keyword _) ?_
  refine .bind takes_identifier.reads.within fun name ↦ ?_
  refine .bind (lays_listAfter _ lays_nameList).within fun parents ↦ .gap ?_
  refine .bind (lays_classBody hg).within fun members ↦ ?_
  refine .pure _ fun n hn h ↦ ?_
  simpa [StmtKind.children, ofNames] using h

theorem covers_traitDecl (hg : g.Sound source) :
    Covers source (traitDecl g) fun d ↦ (StmtKind.classLike d).children := by
  intro lo
  refine .opening (takes_keyword _) ?_
  refine .bind takes_identifier.reads.within fun _ ↦ .gap ?_
  refine .bind (lays_classBody hg).within fun _ ↦ ?_
  exact .pure _ fun _ _ h ↦ h

theorem covers_classLike (hg : g.Sound source) :
    Covers source (classLike g) fun d ↦ (StmtKind.classLike d).children := by
  refine (covers_classDecl hg).orElse ?_
  exact (covers_interfaceDecl hg).orElse (covers_traitDecl hg)

theorem covers_functionDecl (hg : g.Sound source) :
    Covers source (functionDecl g) fun d ↦ (StmtKind.function d).children := by
  intro lo
  refine .opening (takes_keyword _) ?_
  refine .bind reads_byReference.within fun byRef ↦ ?_
  refine .bind takes_identifier.reads.within fun name ↦ .gap ?_
  refine .bind (covers_params hg).lays.within fun ps ↦ ?_
  refine .bind lays_returnType.within fun type ↦ .gap ?_
  refine .bind (covers_block hg).lays.within fun body ↦ ?_
  refine .pure _ fun n hn h ↦ ?_
  simpa [StmtKind.children] using h

end PhpInsight.Grammar

import PhpInsight.Proofs.Span.Expression

namespace PhpInsight.Grammar

open Peg Peg.Parser Text Node

variable {source : List Char} {g : Rules}

theorem lays_variableExpr : Lays source variableExpr fun e ↦ [.expr e] := by
  refine .spanned fun start ↦ ?_
  refine .bind variableName_within fun v ↦ ?_
  refine .stop fun n hn h ↦ ?_
  exact h.1.laid rfl rfl hn h.2

theorem lays_named {p : Parser Name} (h : Lays source p fun n ↦ [.name n]) :
    Lays source (do return ClassRef.named (← p)) fun c ↦ [c.node] := h.map fun _ ↦ rfl

theorem lays_dynamic {p : Parser Expr} (h : Lays source p fun e ↦ [.expr e]) :
    Lays source (do return ClassRef.dynamic (← p)) fun c ↦ [c.node] := h.map fun _ ↦ rfl

theorem lays_newClass (hg : g.Sound source) : Lays source (newClass g) fun c ↦ [c.node] := by
  refine (lays_named lays_plainName).orElse ?_
  refine (lays_dynamic lays_variableExpr).orElse ?_
  exact lays_dynamic (covers_between (by decide) (lays_anyExpr hg)).lays

theorem lays_newExpr (hg : g.Sound source) : Lays source (newExpr g) fun e ↦ [.expr e] := by
  refine .spanned fun start ↦ ?_
  refine .opening (takes_keyword _) ?_
  refine .bind (lays_newClass hg).within fun target ↦ ?_
  refine .bind (lays_optionalAfter (covers_arguments hg).lays).within fun args ↦ ?_
  refine .stop fun n hn h ↦ ?_
  refine h.laid rfl ?_ hn trivial
  cases args <;> simp [Node.children, ExprKind.children, ofArgs]

theorem reads_closureUses : Reads source closureUses := by
  have huse : Reads source closureUse := by
    refine .bind reads_byReference fun byRef ↦ ?_
    refine .bind takes_variableName.reads fun name ↦ ?_
    exact .pure _
  refine .token (takes_keyword _).reads ?_
  refine .token (reads_literal (by decide)) ?_
  refine .bind (huse.sepBy1 reads_comma) fun uses ↦ ?_
  refine .token reads_trailingComma ?_
  refine .bind (reads_literal (by decide)) fun _ ↦ ?_
  exact .pure _

theorem reads_staticWord : Reads source staticWord :=
  .bind (reads_optionalBefore (takes_keyword _).reads) fun _ ↦ .pure _

theorem lays_closure (hg : g.Sound source) : Lays source (closure g) fun e ↦ [.expr e] := by
  refine .spanned fun start ↦ ?_
  refine .bind reads_staticWord.laid fun isStatic ↦ ?_
  refine .opening (takes_keyword _) ?_
  refine .bind reads_byReference.within fun byRef ↦ ?_
  refine .bind (covers_params hg).lays.within fun ps ↦ ?_
  refine .bind (reads_optionalAfter reads_closureUses).within fun uses ↦ ?_
  refine .bind lays_returnType.within fun type ↦ .gap ?_
  refine .bind (covers_block hg).lays.within fun body ↦ ?_
  refine .stop fun n hn h ↦ ?_
  exact h.laid rfl (by simp [Node.children, ExprKind.children]) hn trivial

theorem lays_arrowFunction (hg : g.Sound source) :
    Lays source (arrowFunction g) fun e ↦ [.expr e] := by
  refine .spanned fun start ↦ ?_
  refine .bind reads_staticWord.laid fun isStatic ↦ ?_
  refine .opening (takes_keyword _) ?_
  refine .bind reads_byReference.within fun byRef ↦ ?_
  refine .bind (covers_params hg).lays.within fun ps ↦ ?_
  refine .bind lays_returnType.within fun type ↦ .gap ?_
  refine .token (reads_literal (by decide)) ?_
  refine .bind (lays_anyExpr hg).within fun body ↦ ?_
  refine .stop fun n hn h ↦ ?_
  exact h.laid rfl (by simp [Node.children, ExprKind.children]) hn trivial

theorem lays_arrayItem (hg : g.Sound source) : Lays source (arrayItem g) ArrayItem.children := by
  refine .orElse ?_ (.orElse ?_ ?_)
  · exact .token (reads_literal (by decide)) ((lays_anyExpr hg).map fun _ ↦ rfl)
  · exact .token (reads_literal (by decide)) ((lays_anyExpr hg).map fun _ ↦ rfl)
  · have hvalue : Lays source (do
        literal "=>"
        trivia
        let byRef ← byReference
        return (byRef, ← anyExpr g)) fun v ↦ [.expr v.2] := by
      refine .token (reads_literal (by decide)) fun lo ↦ ?_
      refine .bind reads_byReference.laid fun byRef ↦ ?_
      exact (lays_anyExpr hg).map (fun _ ↦ rfl) lo
    intro lo
    refine (lays_anyExpr hg lo).bind fun first ↦ ?_
    refine .bind (lays_optionalAfter hvalue).laid fun second ↦ ?_
    cases second with
    | none => exact .pure _ fun n _ h ↦ by simpa [ArrayItem.children, ofExprs] using h
    | some value => exact .pure _ fun n _ h ↦ by simpa [ArrayItem.children, ofExprs] using h

theorem lays_arrayItems (hg : g.Sound source) :
    Lays source (arrayItems g) fun items ↦ items.flatMap ArrayItem.children := by
  intro lo
  refine ((lays_arrayItem hg).sepBy reads_comma lo).bind fun _ ↦ ?_
  refine reads_trailingComma.laid.bind fun _ ↦ ?_
  exact .pure _ fun _ _ h ↦ h

theorem lays_arrayLiteral (hg : g.Sound source) :
    Lays source (arrayLiteral g) fun e ↦ [.expr e] := by
  refine .orElse (.spanned fun start ↦ ?_) (.spanned fun start ↦ ?_)
  · refine .bind (covers_between (by decide) (lays_arrayItems hg)).within fun items ↦ ?_
    refine .stop fun n hn h ↦ ?_
    exact h.laid rfl rfl hn trivial
  · refine .opening (takes_keyword _) ?_
    refine .bind (covers_between (by decide) (lays_arrayItems hg)).lays.within fun items ↦ ?_
    refine .stop fun n hn h ↦ ?_
    exact h.laid rfl rfl hn trivial

theorem lays_stringExpr : Lays source stringExpr fun e ↦ [.expr e] := by
  refine .spanned fun start ↦ ?_
  refine .bind takes_stringLiteral.within fun value ↦ ?_
  refine .stop fun n hn h ↦ ?_
  exact h.laid rfl rfl hn trivial

theorem lays_numberExpr : Lays source numberExpr fun e ↦ [.expr e] := by
  refine .spanned fun start ↦ ?_
  refine .bind takes_number.within fun value ↦ ?_
  refine .stop fun n hn h ↦ ?_
  exact h.laid rfl rfl hn trivial

theorem lays_exprs {p : Parser (List Expr)}
    (h : Lays source p fun es ↦ es.flatMap fun e ↦ [.expr e]) : Lays source p ofExprs :=
  h.congr fun _ ↦ List.map_eq_flatMap.symm

theorem lays_issetExpr (hg : g.Sound source) : Lays source (issetExpr g) fun e ↦ [.expr e] := by
  refine .spanned fun start ↦ ?_
  refine .opening (takes_keyword _) ?_
  refine .token (reads_literal (by decide)) ?_
  refine .bind (lays_exprs ((lays_anyExpr hg).sepBy1 reads_comma)).within fun items ↦ ?_
  refine .token reads_trailingComma ?_
  refine .bind (reads_literal (by decide)).within fun _ ↦ ?_
  refine .stop fun n hn h ↦ ?_
  exact h.laid rfl rfl hn trivial

theorem lays_emptyExpr (hg : g.Sound source) : Lays source (emptyExpr g) fun e ↦ [.expr e] := by
  refine .spanned fun start ↦ ?_
  refine .opening (takes_keyword _) ?_
  refine .bind (covers_between (by decide) (lays_anyExpr hg)).lays.within fun e ↦ ?_
  refine .stop fun n hn h ↦ ?_
  exact h.laid rfl rfl hn trivial

/-- The expression in parentheses is not a node of its own, but its children are. -/
theorem within_children {e : Expr} {lo hi : Nat} (h : Within source lo hi [.expr e]) :
    Within source lo hi e.kind.children := by
  have he := h.mem List.mem_cons_self
  have hstrict := h.strict _ List.mem_cons_self
  have hlaid := h.head.children_laid
  refine ⟨hlaid.outer h.start he.1 he.2.2 h.settled, h.moved, fun m hm ↦ ?_⟩
  have hm' := hlaid.mem hm
  omega

theorem lays_parenthesized (hg : g.Sound source) :
    Lays source (parenthesized g) fun e ↦ [.expr e] := by
  refine .spanned fun start ↦ ?_
  refine .bind (covers_between (by decide) (lays_anyExpr hg)).within fun e ↦ ?_
  refine .stop fun n hn h ↦ ?_
  have he := h.mem List.mem_cons_self
  exact (within_children h).laid rfl rfl hn (h.head.written.mono he.1 he.2.2)

theorem lays_constExpr {p : Parser Name} (hp : Lays source p fun n ↦ [.name n]) :
    Lays source (constExpr p) fun e ↦ [.expr e] := by
  refine .spanned fun start ↦ ?_
  refine .bind (hp start) fun name ↦ ?_
  refine .stop fun n hn h ↦ ?_
  have hname := h.mem List.mem_cons_self
  refine h.enclose (by omega) rfl rfl hn ?_ trivial
  simp [rank, kind, NodeKind.rank]

theorem lays_primary (hg : g.Sound source) : Lays source (primary g) fun e ↦ [.expr e] := by
  refine lays_variableExpr.orElse ?_
  refine (lays_newExpr hg).orElse ?_
  refine (lays_closure hg).orElse ?_
  refine (lays_arrowFunction hg).orElse ?_
  refine lays_stringExpr.orElse ?_
  refine lays_numberExpr.orElse ?_
  refine (lays_arrayLiteral hg).orElse ?_
  refine (lays_issetExpr hg).orElse ?_
  refine (lays_emptyExpr hg).orElse ?_
  exact (lays_parenthesized hg).orElse (lays_constExpr lays_plainName)

theorem lays_chain (hg : g.Sound source) : Lays source (chain g) fun e ↦ [.expr e] :=
  lays_grown (lays_primary hg) (grows_suffixes hg)

end PhpInsight.Grammar

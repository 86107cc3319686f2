import PhpInsight.Grammar.Expression
import PhpInsight.Proofs.Span.Rules

namespace PhpInsight.Grammar

open Peg Peg.Parser Text Node

variable {source : List Char} {g : Rules}

def Grows (source : List Char) (step : Expr → Parser Expr) : Prop :=
  ∀ e, Leads source (Laid source e.span.start · [.expr e]) (step e) fun e' n ↦
    e'.span.start = e.span.start ∧ Laid source e.span.start n [.expr e']

namespace Grows

variable {step : Expr → Parser Expr}

theorem orElse {step' : Expr → Parser Expr} (h : Grows source step) (h' : Grows source step') :
    Grows source fun e ↦ step e <|> step' e := fun e ↦ (h e).orElse (h' e)

theorem after {p : Parser Unit} (hp : Reads source p) (h : Grows source step) :
    Grows source (fun e ↦ do p; step e) := by
  intro e
  refine hp.laid.bind fun _ ↦ ?_
  exact h e

theorem foldMany (h : Grows source step) : Grows source (foldMany step) := by
  intro e
  have hstep (e' : Expr) : Leads source
      (fun n ↦ e'.span.start = e.span.start ∧ Laid source e.span.start n [.expr e']) (step e')
      fun e' n ↦ e'.span.start = e.span.start ∧ Laid source e.span.start n [.expr e'] := by
    intro c a next f hc ⟨hstart, hlaid⟩ hm
    obtain ⟨hnext, hstart', hlaid'⟩ := h e' c a next f hc (hstart ▸ hlaid) hm
    exact ⟨hnext, hstart'.trans hstart, hstart ▸ hlaid'⟩
  exact (Leads.foldMany hstep e).imp (fun _ hn ↦ ⟨rfl, hn⟩) fun _ _ hn ↦ hn

theorem optional (h : Grows source step) :
    Grows source (fun e ↦ do return (← optional (step e)).getD e) := by
  intro e
  refine (h e).optional.bind fun o ↦ .pure _ fun n _ hn ↦ ?_
  cases o with
  | none => exact ⟨rfl, hn⟩
  | some e' => exact hn

end Grows

theorem Grows.laid {step : Expr → Parser Expr} (h : Grows source step) {lo : Nat} {e : Expr} :
    Leads source (Laid source lo · [.expr e]) (step e) fun e' n ↦ Laid source lo n [.expr e'] := by
  intro c e' next f hc hlaid hm
  have hmem := hlaid.mem List.mem_cons_self
  have hformed := hlaid.head
  have hown : Laid source e.span.start c.offset [.expr e] :=
    .single hformed.start (Nat.le_refl _) hformed hmem.2.2 hlaid.settled
  obtain ⟨hnext, hstart, hlaid'⟩ := h e c e' next f hc hown hm
  have hmem' := hlaid'.mem List.mem_cons_self
  exact ⟨hnext, .single hlaid.start (Nat.le_trans hmem.1 hmem'.1) hlaid'.head hmem'.2.2
    hlaid'.settled⟩

theorem lays_grown {p : Parser Expr} {step : Expr → Parser Expr}
    (hp : Lays source p fun e ↦ [.expr e]) (h : Grows source step) :
    Lays source (p >>= step) fun e ↦ [.expr e] := by
  intro lo
  refine (hp lo).bind fun _ ↦ ?_
  exact h.laid

theorem lays_argument (hg : g.Sound source) : Lays source (argument g) fun a ↦ [.expr a.value] := by
  refine .orElse ?_ (.orElse ?_ ?_)
  · exact .token (reads_literal (by decide)) ((lays_anyExpr hg).map fun _ ↦ rfl)
  · refine Covers.lays fun lo ↦ ?_
    refine .bind takes_identifier.within fun name ↦ .gap ?_
    refine .bind (reads_literal (by decide)).within fun _ ↦ ?_
    refine .token (.notAhead _) ?_
    exact ((lays_anyExpr hg).map fun _ ↦ rfl).within
  · exact (lays_anyExpr hg).map fun _ ↦ rfl

theorem covers_arguments (hg : g.Sound source) : Covers source (arguments g) ofArgs :=
  covers_listed (lays_argument hg)

theorem takes_memberOperator : Takes source memberOperator := by
  have hsign {text : String} (h : isSign text = true) (nullsafe : Bool) :
      Takes source (do literal text; return nullsafe) := .bind (takes_literal h) fun _ ↦ .pure _
  exact .orElse (hsign (by decide) _) (hsign (by decide) _)

theorem reads_memberName (hg : g.Sound source) : Reads source (memberName g) := by
  have hheld : Reads source (do literal "$"; let _ ← word) := by
    refine .bind (reads_literal (by decide)) fun _ ↦ ?_
    refine .bind takes_word.reads fun _ ↦ ?_
    exact .pure _
  have hcomputed : Reads source (do let _ ← between "\x7b" (anyExpr g) "\x7d") :=
    .bind (covers_between (by decide) (lays_anyExpr hg)).lays.reads fun _ ↦ .pure _
  refine .orElse takes_identifier.reads ?_
  refine .bind reads_position fun start ↦ ?_
  refine .bind (.textOf (.orElse hheld hcomputed)) fun text ↦ ?_
  refine .bind reads_position fun stop ↦ ?_
  exact .pure _

theorem grows_memberSuffix (hg : g.Sound source) : Grows source (memberSuffix g) := by
  intro e
  refine .bind takes_memberOperator.within fun nullsafe ↦ .gap ?_
  refine .bind (reads_memberName hg).within fun name ↦ ?_
  refine .bind (lays_optionalAfter (covers_arguments hg).lays).within fun args ↦ ?_
  refine .stop fun n hn h ↦ ⟨rfl, ?_⟩
  cases args with
  | none => exact h.laid rfl rfl hn trivial
  | some args => exact h.laid rfl (by simp [Node.children, ExprKind.children]) hn trivial

/-- A constant gives way to its name, which lies inside it. -/
theorem laid_classRefOf {e : Expr} {lo hi : Nat} (h : Laid source lo hi [.expr e]) :
    Laid source lo hi [(classRefOf e).node] := by
  unfold classRefOf
  split
  · rename_i name hkind
    have hchildren : (Node.expr e).children = [.name name] := by
      simp only [Node.children, hkind, ExprKind.children]
    have hlaid := h.head.children_laid
    rw [hchildren] at hlaid
    have hmem := h.mem List.mem_cons_self
    have hname := hlaid.mem List.mem_cons_self
    exact .single h.start (Nat.le_trans hmem.1 hname.1) hlaid.head
      (Nat.le_trans hname.2.2 hmem.2.2) h.settled
  · exact h

theorem grows_staticPropertySuffix : Grows source staticPropertySuffix := by
  intro e
  refine Leads.imp ?_ (fun _ ↦ laid_classRefOf) fun _ _ h ↦ h
  refine .opening (takes_literal (by decide)) ?_
  refine .bind takes_variableName.reads.within fun name ↦ ?_
  refine .stop fun n hn h ↦ ⟨rfl, ?_⟩
  exact h.laid rfl rfl hn trivial

theorem grows_staticMemberSuffix (hg : g.Sound source) : Grows source (staticMemberSuffix g) := by
  intro e
  refine Leads.imp ?_ (fun _ ↦ laid_classRefOf) fun _ _ h ↦ h
  refine .opening (takes_literal (by decide)) ?_
  refine .bind takes_identifier.reads.within fun name ↦ ?_
  refine .bind (lays_optionalAfter (covers_arguments hg).lays).within fun args ↦ ?_
  refine .stop fun n hn h ↦ ⟨rfl, ?_⟩
  cases args with
  | none => exact h.laid rfl rfl hn trivial
  | some args => exact h.laid rfl (by simp [Node.children, ExprKind.children]) hn trivial

theorem grows_indexSuffix (hg : g.Sound source) : Grows source (indexSuffix g) := by
  intro e
  have hindex : Covers source (between "[" (optional (anyExpr g)) "]") _ :=
    covers_between (by decide) (lays_anyExpr hg).optional
  refine .bind hindex.within fun index ↦ ?_
  refine .stop fun n hn h ↦ ⟨rfl, ?_⟩
  refine h.laid rfl ?_ hn trivial
  simp [Node.children, ExprKind.children, ofExprs, List.map_eq_flatMap]

theorem grows_callSuffix (hg : g.Sound source) : Grows source (callSuffix g) := by
  intro e
  refine Leads.imp ?_ (fun _ ↦ laid_classRefOf) fun _ _ h ↦ h
  refine .bind (covers_arguments hg).within fun args ↦ ?_
  refine .stop fun n hn h ↦ ⟨rfl, ?_⟩
  unfold classRefOf at h
  split
  · rename_i name hkind
    simp only [hkind] at h
    exact h.laid rfl rfl hn trivial
  · rename_i hkind
    split at h
    · rename_i name hname
      exact absurd hname (hkind name)
    · exact h.laid rfl rfl hn trivial

theorem grows_suffix (hg : g.Sound source) : Grows source (suffix g) := by
  refine (grows_memberSuffix hg).orElse ?_
  refine grows_staticPropertySuffix.orElse ?_
  refine (grows_staticMemberSuffix hg).orElse ?_
  exact (grows_indexSuffix hg).orElse (grows_callSuffix hg)

theorem grows_suffixes (hg : g.Sound source) : Grows source (suffixes g) :=
  ((grows_suffix hg).after reads_trivia).foldMany

end PhpInsight.Grammar

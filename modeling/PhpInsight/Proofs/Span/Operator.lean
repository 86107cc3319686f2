import PhpInsight.Proofs.Span.Operand

namespace PhpInsight.Grammar

open Peg Peg.Parser Text Node

variable {source : List Char} {g : Rules}

theorem grows_plainAssignment (hg : g.Sound source) : Grows source (plainAssignment g) := by
  intro target
  refine .bind (takes_literal (by decide)).within fun _ ↦ ?_
  refine .bind (.notAhead _) fun _ ↦ ?_
  refine .bind reads_trivia.within fun _ ↦ ?_
  refine .bind reads_byReference.within fun byRef ↦ ?_
  refine .bind (lays_anyExpr hg).upTo fun value ↦ ?_
  refine .pure _ fun n hn h ↦ ⟨rfl, ?_⟩
  exact h.1.laidUpTo h.2.1 rfl rfl trivial h.2.2.1 h.2.2.2

theorem takes_compoundOperator : Takes source compoundOperator := by
  have htexts : ∀ o ∈ compoundOperators, isSign o.1 = true := by decide
  refine .firstOf fun p hp ↦ ?_
  obtain ⟨o, ho, rfl⟩ := List.mem_map.mp hp
  exact .bind (takes_literal (htexts o ho)) fun _ ↦ .pure _

theorem grows_compoundAssignment (hg : g.Sound source) : Grows source (compoundAssignment g) := by
  intro target
  refine .bind takes_compoundOperator.within fun op ↦ .gap ?_
  refine .bind (lays_anyExpr hg).upTo fun value ↦ ?_
  refine .pure _ fun n hn h ↦ ⟨rfl, ?_⟩
  exact h.1.laidUpTo h.2.1 rfl rfl trivial h.2.2.1 h.2.2.2

theorem lays_atom (hg : g.Sound source) : Lays source (atom g) fun e ↦ [.expr e] := by
  refine lays_grown (lays_chain hg) ?_
  refine Grows.optional ?_
  refine Grows.after reads_trivia ?_
  exact (grows_plainAssignment hg).orElse (grows_compoundAssignment hg)

def Prefixes (source : List Char) (operator : Parser (Expr → ExprKind)) : Prop :=
  ∀ lo, Leads source (Laid source lo · []) operator fun kind n ↦
    Within source lo n [] ∧ ∀ e, (kind e).children = [.expr e]

theorem lays_leading (hg : g.Sound source) (level : Nat) {operator : Parser (Expr → ExprKind)}
    (h : Prefixes source operator) : Lays source (leading g level operator) fun e ↦ [.expr e] := by
  refine .spanned fun start ↦ ?_
  refine .bind (h start) fun kind ↦ ?_
  intro c e next f hc ⟨hwithin, hkind⟩ hm
  have hrest : Leads source (Within source start · [])
      (do trivia; let e ← g.binary (level + 1); return ⟨kind e, ⟨start, e.span.stop⟩⟩)
      fun e n ↦ Laid source start n [.expr e] := by
    refine .bind reads_trivia.within fun _ ↦ ?_
    refine .bind (hg.binary _).upTo fun operand ↦ ?_
    refine .pure _ fun n hn h ↦ ?_
    have hchildren : (Node.expr ⟨kind operand, ⟨start, operand.span.stop⟩⟩).children =
        [.expr operand] := hkind operand
    refine h.1.laidUpTo h.2.1 rfl hchildren ?_ h.2.2.1 h.2.2.2
    simp only [WrittenIn]
    split
    · rename_i name hname
      have hnone := hkind operand
      rw [hname] at hnone
      cases hnone
    · trivial
  exact hrest c e next f hc hwithin hm

theorem prefixes_leadingSign {text : String} (h : isSign text = true) (op : UnaryOp) :
    Prefixes source (leadingSign text op) := by
  intro lo
  refine (takes_literal h).within.bind fun _ ↦ ?_
  exact .pure _ fun _ _ h ↦ ⟨h, fun _ ↦ rfl⟩

theorem prefixes_leadingWord (text : String) {kind : Expr → ExprKind}
    (h : ∀ e, (kind e).children = [.expr e]) : Prefixes source (leadingWord text kind) := by
  intro lo
  refine (takes_keyword _).within.bind fun _ ↦ ?_
  exact .pure _ fun _ _ hn ↦ ⟨hn, h⟩

theorem prefixes_leadingCast : Prefixes source leadingCast := by
  intro lo
  refine (covers_between (by decide) takes_castType.reads.lays).within.bind fun _ ↦ ?_
  exact .pure _ fun _ _ h ↦ ⟨h, fun _ ↦ rfl⟩

theorem prefixes_includeWord : Prefixes source includeWord := by
  have hword (text : String) : Prefixes source (leadingWord text .include) :=
    prefixes_leadingWord text fun _ ↦ rfl
  intro lo
  refine (hword _ lo).orElse ?_
  refine (hword _ lo).orElse ?_
  exact (hword _ lo).orElse (hword _ lo)

theorem lays_operand (hg : g.Sound source) : Lays source (operand g) fun e ↦ [.expr e] := by
  have htexts : ∀ o ∈ signOperators, isSign o.1 = true := by decide
  have hsigns : Lays source (firstOf (signOperators.map fun o ↦
      leading g Level.sign (leadingSign o.1 o.2))) fun e ↦ [.expr e] := by
    intro lo
    refine .firstOf fun p hp ↦ ?_
    obtain ⟨o, ho, rfl⟩ := List.mem_map.mp hp
    exact lays_leading hg _ (prefixes_leadingSign (htexts o ho) _) lo
  refine (lays_leading hg _ (prefixes_leadingWord _ fun _ ↦ rfl)).orElse ?_
  refine (lays_leading hg _ (prefixes_leadingSign (by decide) _)).orElse ?_
  refine hsigns.orElse ?_
  refine (lays_leading hg _ prefixes_leadingCast).orElse ?_
  refine (lays_leading hg _ (prefixes_leadingWord _ fun _ ↦ rfl)).orElse ?_
  exact (lays_leading hg _ prefixes_includeWord).orElse (lays_atom hg)

theorem takes_infixSymbol {o : InfixOperator} (h : ∀ t ∈ o.spellings, isSign t = true) :
    Takes source (infixSymbol o) := by
  refine .bind (.firstOf fun p hp ↦ ?_) fun _ ↦ .notAhead _
  obtain ⟨t, ht, rfl⟩ := List.mem_map.mp hp
  exact takes_literal (h t ht)

theorem grows_infixTail (hg : g.Sound source) {o : InfixOperator}
    (h : ∀ t ∈ o.spellings, isSign t = true) : Grows source (infixTail g o) := by
  intro left
  refine .bind reads_trivia.laid fun _ ↦ ?_
  refine .bind (takes_infixSymbol h).within fun _ ↦ .gap ?_
  refine .bind (hg.binary _).upTo fun right ↦ ?_
  refine .pure _ fun n hn h ↦ ⟨rfl, ?_⟩
  exact h.1.laidUpTo h.2.1 rfl rfl trivial h.2.2.1 h.2.2.2

theorem grows_instanceOfTail : Grows source instanceOfTail := by
  intro left
  have hclass : Lays source instanceOfClass fun c ↦ [c.node] :=
    (lays_named lays_plainName).orElse (lays_dynamic lays_variableExpr)
  refine .bind reads_trivia.laid fun _ ↦ ?_
  refine .opening (takes_keyword _) ?_
  refine .bind hclass.within fun target ↦ ?_
  refine .stop fun n hn h ↦ ⟨rfl, ?_⟩
  exact h.laid rfl rfl hn trivial

theorem grows_stepTail {text : String} (h : isSign text = true) (op : UnaryOp) :
    Grows source (stepTail text op) := by
  intro operand
  refine .bind reads_trivia.laid fun _ ↦ ?_
  refine .bind (takes_literal h).within fun _ ↦ ?_
  refine .stop fun n hn h ↦ ⟨rfl, ?_⟩
  exact h.laid rfl rfl hn trivial

theorem grows_tails (hg : g.Sound source) : ∀ t ∈ tails g, Grows source t.2 := by
  have hloose : ∀ o ∈ looseOperators, ∀ t ∈ o.spellings, isSign t = true := by decide
  have htight : ∀ o ∈ tightOperators, ∀ t ∈ o.spellings, isSign t = true := by decide
  have hstep : ∀ o ∈ stepOperators, isSign o.1 = true := by decide
  intro t ht
  simp only [tails, List.mem_append, List.mem_cons, List.mem_map] at ht
  rcases ht with (⟨o, ho, rfl⟩ | (rfl | ⟨o, ho, rfl⟩)) | ⟨o, ho, rfl⟩
  · exact grows_infixTail hg (hloose o ho)
  · exact grows_instanceOfTail
  · exact grows_infixTail hg (htight o ho)
  · exact grows_stepTail (hstep o ho) _

theorem grows_tailFrom {all : List (Nat × (Expr → Parser Expr))}
    (h : ∀ t ∈ all, Grows source t.2) (min : Nat) : Grows source (tailFrom all min) := by
  intro left
  refine .firstOf fun p hp ↦ ?_
  obtain ⟨t, ht, rfl⟩ := List.mem_map.mp hp
  exact h t (List.mem_filter.mp ht).1 left

theorem lays_binaryFrom (hg : g.Sound source) (min : Nat) :
    Lays source (binaryFrom g min) fun e ↦ [.expr e] :=
  lays_grown (lays_operand hg) (grows_tailFrom (grows_tails hg) min).foldMany

theorem grows_ternaryTail (hg : g.Sound source) : Grows source (ternaryTail g) := by
  intro condition
  refine .bind reads_trivia.laid fun _ ↦ ?_
  refine .bind (takes_literal (by decide)).within fun _ ↦ ?_
  refine .bind (.notAhead _) fun _ ↦ ?_
  refine .bind (.notAhead _) fun _ ↦ ?_
  refine .bind reads_trivia.within fun _ ↦ ?_
  refine .bind (lays_anyExpr hg).optional.within fun consequent ↦ .gap ?_
  refine .bind (reads_literal (by decide)).within fun _ ↦ ?_
  refine .bind (.notAhead _) fun _ ↦ ?_
  refine .bind reads_trivia.within fun _ ↦ ?_
  refine .bind hg.ternary.upTo fun alternative ↦ ?_
  refine .pure _ fun n hn h ↦ ⟨rfl, ?_⟩
  refine h.1.laidUpTo h.2.1 rfl ?_ trivial h.2.2.1 h.2.2.2
  simp [Node.children, ExprKind.children, ofExprs, List.map_eq_flatMap]

theorem lays_ternary (hg : g.Sound source) :
    Lays source (PhpInsight.Grammar.ternary g) fun e ↦ [.expr e] :=
  lays_grown (lays_binaryFrom hg 0) (grows_ternaryTail hg).optional

theorem grows_wordTails (hg : g.Sound source) : ∀ t ∈ wordTails g, Grows source t.2 := by
  intro t ht left
  obtain ⟨o, ho, rfl⟩ := List.mem_map.mp ht
  refine .bind reads_trivia.laid fun _ ↦ ?_
  refine .opening (takes_keyword _) ?_
  refine .bind (hg.expr _).upTo fun right ↦ ?_
  refine .pure _ fun n hn h ↦ ⟨rfl, ?_⟩
  exact h.1.laidUpTo h.2.1 rfl rfl trivial h.2.2.1 h.2.2.2

theorem lays_exprFrom (hg : g.Sound source) (min : Nat) :
    Lays source (exprFrom g min) fun e ↦ [.expr e] :=
  lays_grown (lays_ternary hg) (grows_tailFrom (grows_wordTails hg) min).foldMany

theorem lays_exprList (hg : g.Sound source) : Lays source (exprList g) ofExprs :=
  lays_exprs ((lays_anyExpr hg).sepBy reads_comma)

end PhpInsight.Grammar

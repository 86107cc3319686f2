import PhpInsight.Proofs.Operators.RoundTrip

namespace PhpInsight

open Grammar Peg Peg.Parser

/-- How an assignment is written between its target and its value, and what it makes of them. -/
structure Assignment where
  sign : String
  kind : Expr → Expr → ExprKind

def assignments : List Assignment :=
  ⟨"=", fun t v ↦ .assign t v false⟩ :: ⟨"=&", fun t v ↦ .assign t v true⟩ ::
    compoundOperators.map fun o ↦ ⟨o.1, .compoundAssign o.2⟩

/-- The rule of the conditional reads a text wherever an operand of a word operator may end. -/
def IsConditional (Q : Expr → Prop) (cs : List Char) : Prop :=
  ∀ n rest, cs.length ≤ n → Ends conditionalRank rest →
    Yields (Grammar.ternary (.ofDepth n)) cs rest Q

section

variable {n : Nat} {g : Rules} {cs cs₁ cs₂ rest : List Char} {Q Q₁ Q₂ V : Expr → Prop}
  {a : Assignment} {target : Expr} {name : String} {o : WordOperator}

theorem isConditional_fence {spell : BinaryOp → String} {t : OpTree}
    (hspell : ∀ op, spell op ∈ op.fixity.spellings) (hvalid : t.isValid = true) :
    IsConditional t.Is (OpTree.fence conditionalRank t.rank (t.text spell)) := fun _ _ hlen hrest ↦
  OpTree.Reads.yields_ternary (OpTree.reads hspell hvalid) hlen (Nat.le_refl _) hrest

namespace IsConditional

variable (h : IsConditional Q cs)

include h

theorem not_barren (more : List Char) : ∀ x ∈ (cs ++ more).head?, x ∉ barrenHeads := by
  have hnone {rest : List Char} (hrest : Ends conditionalRank rest) :
      ¬ Heads barrenHeads (cs ++ rest) := by
    intro hheads
    obtain ⟨e, f, hm, -⟩ := h cs.length rest (Nat.le_refl _) hrest 0
    have hrejects : Rejects (Grammar.ternary (.ofDepth cs.length)) (cs ++ rest) :=
      .bind (.bind (rejects_operand hheads))
    obtain ⟨g, hfailed⟩ := hrejects 0
    rw [hfailed] at hm
    cases hm
  cases cs with
  | nil =>
    have hcolon : Ends conditionalRank [' ', ':', ' '] := .colon
    exact absurd (heads_cons (by decide)) (hnone hcolon)
  | cons y ys =>
    rintro x ⟨⟩ hx
    have hsemicolon : Ends conditionalRank [';'] := .semicolon
    exact hnone hsemicolon (heads_cons hx)

theorem solid (more : List Char) : Solid (cs ++ more) := by
  refine solid_of_head fun x hx hmem ↦ h.not_barren more x hx ?_
  simp only [List.mem_cons, List.not_mem_nil, or_false] at hmem
  rcases hmem with rfl | rfl | rfl | rfl | rfl | rfl <;> decide

theorem yields_expr {min : Nat} (hlen : cs.length ≤ n) (hmin : min ≤ conditionalRank)
    (hrest : Ends min rest) : Yields (exprFrom (.ofDepth n) min) cs rest Q := by
  have hstop : Extends (tailFrom (wordTails (.ofDepth n)) min) Q [] rest Q :=
    .stop fun e he ↦ ⟨rejects_wordTails hrest hmin e, he⟩
  have hread : Yields (Grammar.ternary (.ofDepth n)) cs ([] ++ rest) Q :=
    h n rest hlen (hrest.mono hmin)
  rw [← List.append_nil cs]
  exact OpTree.yields_expr_of_ternary hread hstop

end IsConditional

def IsJoined (op : BinaryOp) (Q₁ Q₂ : Expr → Prop) (e : Expr) : Prop :=
  ∃ l r, e.kind = .binary op l r ∧ Q₁ l ∧ Q₂ r

theorem yields_joined (ho : o ∈ wordOperators) (h₁ : IsConditional Q₁ cs₁)
    (h₂ : IsConditional Q₂ cs₂) (hlen₁ : cs₁.length ≤ n) (hlen₂ : cs₂.length < n) :
    Yields (exprFrom (.ofDepth n) 0) (cs₁ ++ (' ' :: (o.word.toList ++ [' ']) ++ cs₂)) [';']
      (IsJoined o.op Q₁ Q₂) := by
  have hlevel : ∀ o ∈ wordOperators, o.level + 1 ≤ conditionalRank := by decide
  have hends : Ends conditionalRank (' ' :: (o.word.toList ++ [' ']) ++ cs₂ ++ [';']) := by
    have h : Ends conditionalRank (' ' :: (o.word.toList ++ [' ']) ++ (cs₂ ++ [';'])) :=
      .operator o.word (wordOperator_mem_followers ho) (hlevel o ho)
    rwa [List.append_assoc]
  have hright : Yields ((Rules.ofDepth n).expr (o.level + 1)) cs₂ [';'] Q₂ := by
    cases n with
    | zero => omega
    | succ n => exact h₂.yields_expr (Nat.le_of_lt_succ hlen₂) (hlevel o ho) .semicolon
  refine OpTree.yields_expr_of_ternary (h₁ n _ hlen₁ hends) ?_
  rw [← List.append_nil (' ' :: (o.word.toList ++ [' ']) ++ cs₂)]
  refine .next (by simp) (fun l hl ↦ ?_) (.stop fun e he ↦
    ⟨rejects_wordTails .semicolon (Nat.zero_le _) e, he⟩)
  exact yields_wordOperator ho (Nat.zero_le _) (h₂.solid _) hright fun r hr ↦ ⟨l, r, rfl, hl, hr⟩

theorem solid_sign (ha : a ∈ assignments) (more : List Char) :
    Solid (a.sign.toList ++ [' '] ++ more) := by
  have hall : ∀ s ∈ assignments.map Assignment.sign, isSolid (s.toList ++ [' ']) = true := by
    decide +kernel
  exact solid_append (hall _ (List.mem_map_of_mem ha)) more

theorem rejects_suffix_sign (ha : a ∈ assignments) (e : Expr) (more : List Char) :
    Rejects (do trivia; suffix g e) (' ' :: (a.sign.toList ++ [' '] ++ more)) := by
  have hmarks : ∀ s ∈ assignments.map Assignment.sign,
      ∀ m ∈ suffixMarks, Differ m.toList (s.toList ++ [' ']) = true := by decide +kernel
  exact .bind_head (accepts_trivia_blank (solid_sign ha more)) fun _ _ ↦
    rejects_suffix_of_differ (hmarks _ (List.mem_map_of_mem ha)) e more

variable (hsolid : Solid (cs ++ rest)) (hsign : Rejects (literal "&") (cs ++ rest))
  (hvalue : Yields (anyExpr g) cs rest V)

include hsolid hsign hvalue

def IsAssigned (a : Assignment) (target : Expr) (V : Expr → Prop) (e : Expr) : Prop :=
  ∃ v, e.kind = a.kind target v ∧ V v

theorem yields_plainAssignment :
    Yields (plainAssignment g target) ("= ".toList ++ cs) rest
      (IsAssigned ⟨"=", fun t v ↦ .assign t v false⟩ target V) := by
  have hblank : Heads [' '] ([' '] ++ cs ++ rest) := heads_cons (List.mem_singleton_self ' ')
  have hbyRef : Yields byReference [] (cs ++ rest) (· = false) := by
    refine .map (.optional_none (.bind hsign)) fun o ho ↦ ?_
    subst ho
    exact .pure rfl
  refine .bind_head (.literal "=") fun _ _ ↦ ?_
  refine .bind_nil (.notAhead (hblank.rejects_oneOf (by decide))) fun _ _ ↦ ?_
  refine .bind_head (accepts_trivia_blank hsolid) fun _ _ ↦ ?_
  refine .bind_nil hbyRef fun b hb ↦ ?_
  refine .map hvalue fun v hv ↦ .pure ⟨v, ?_, hv⟩
  rw [hb]

omit hsign in
theorem yields_referenceAssignment :
    Yields (plainAssignment g target) ("=& ".toList ++ cs) rest
      (IsAssigned ⟨"=&", fun t v ↦ .assign t v true⟩ target V) := by
  have hand : Heads ['&'] (['&', ' '] ++ cs ++ rest) := heads_cons (List.mem_singleton_self '&')
  have hmark : Yields (optionalBefore (literal "&")) ['&', ' '] (cs ++ rest) (·.isSome = true) := by
    refine (Yields.optional (.bind_head (.literal "&") fun _ _ ↦
      .map (accepts_trivia_blank hsolid) fun _ _ ↦ .pure trivial)).imp ?_
    rintro o ⟨_, rfl, -⟩
    rfl
  have hbyRef : Yields byReference ['&', ' '] (cs ++ rest) (· = true) :=
    .map hmark fun o ho ↦ .pure ho
  refine .bind_head (.literal "=") fun _ _ ↦ ?_
  refine .bind_nil (.notAhead (hand.rejects_oneOf (by decide))) fun _ _ ↦ ?_
  refine .bind_nil (accepts_trivia_nil (hand.solid (by decide))) fun _ _ ↦ ?_
  refine .bind hbyRef fun b hb ↦ ?_
  refine .map hvalue fun v hv ↦ .pure ⟨v, ?_, hv⟩
  rw [hb]

omit hsign in
/-- No compound sign is taken for another one, nor for a plain one. -/
theorem yields_compoundAssignment {c : String × BinaryOp} (hc : c ∈ compoundOperators) :
    Yields (compoundAssignment g target) (c.1.toList ++ [' '] ++ cs) rest
      (IsAssigned ⟨c.1, .compoundAssign c.2⟩ target V) := by
  have hother : compoundOperators.Pairwise fun b c ↦ Differ b.1.toList c.1.toList = true := by
    decide
  obtain ⟨before, after, hsplit⟩ := List.append_of_mem hc
  have hoperator : Yields compoundOperator c.1.toList ([' '] ++ cs ++ rest) (· = c.2) := by
    refine .firstOf (before.map fun c ↦ do literal c.1; return c.2)
      (after.map fun c ↦ do literal c.1; return c.2) ?_ (fun p hp ↦ ?_)
      (.map (.literal c.1) fun _ _ ↦ .pure rfl)
    · rw [hsplit, List.map_append, List.map_cons]
    · obtain ⟨b, hb, rfl⟩ := List.mem_map.mp hp
      rw [hsplit] at hother
      exact .bind (.literal ((List.pairwise_append.mp hother).2.2 b hb c List.mem_cons_self))
  rw [List.append_assoc]
  refine .bind hoperator fun op hop ↦ ?_
  refine .bind_head (accepts_trivia_blank hsolid) fun _ _ ↦ ?_
  refine .map hvalue fun v hv ↦ .pure ⟨v, ?_, hv⟩
  rw [hop]

theorem yields_assignment (ha : a ∈ assignments) :
    Yields (plainAssignment g target <|> compoundAssignment g target)
      (a.sign.toList ++ [' '] ++ cs) rest (IsAssigned a target V) := by
  rcases List.mem_cons.mp ha with rfl | ha
  · exact .orElse (yields_plainAssignment hsolid hsign hvalue)
  rcases List.mem_cons.mp ha with rfl | ha
  · exact .orElse (yields_referenceAssignment hsolid hvalue)
  · obtain ⟨c, hc, rfl⟩ := List.mem_map.mp ha
    have hequals : ∀ c ∈ compoundOperators, Differ ['='] c.1.toList = true := by decide
    refine .orElse_of_rejects ?_ (yields_compoundAssignment hsolid hvalue hc)
    rw [List.append_assoc, List.append_assoc]
    exact .bind (.literal (hequals c hc))

end

section

variable {n : Nat} {cs cs₁ cs₂ : List Char} {Q₁ Q₂ V : Expr → Prop} {a : Assignment}
  {name : String} {o : WordOperator}

def IsAssignedTo (a : Assignment) (name : String) (V : Expr → Prop) (e : Expr) : Prop :=
  ∃ target, target.kind = .variable name ∧ IsAssigned a target V e

theorem yields_assigned (hname : isWordText name.toList = true) (ha : a ∈ assignments)
    (hsolid : Solid (cs ++ [';'])) (hsign : Rejects (literal "&") (cs ++ [';']))
    (hvalue : Yields (anyExpr (.ofDepth n)) cs [';'] V) :
    Yields (exprFrom (.ofDepth n) 0) ('$' :: name.toList ++ (' ' :: (a.sign.toList ++ [' '] ++ cs)))
      [';'] (IsAssignedTo a name V) := by
  have hmore : ' ' :: (a.sign.toList ++ [' '] ++ cs) ++ [';'] =
      ' ' :: (a.sign.toList ++ [' '] ++ (cs ++ [';'])) := by simp
  have hvariable : Yields (chain (.ofDepth n)) ('$' :: name.toList)
      (' ' :: (a.sign.toList ++ [' '] ++ cs) ++ [';']) (·.kind = .variable name) := by
    rw [hmore]
    have hends : EndsWord (' ' :: (a.sign.toList ++ [' '] ++ (cs ++ [';']))) :=
      endsWord_cons (not_isWordChar ' ' (by simp))
    have hsuffixes : Extends (fun e ↦ do trivia; suffix (.ofDepth n) e) (·.kind = .variable name) []
        (' ' :: (a.sign.toList ++ [' '] ++ (cs ++ [';']))) (·.kind = .variable name) :=
      .stop fun e he ↦ ⟨rejects_suffix_sign ha e _, he⟩
    refine .map (.orElse (yields_variableExpr hname hends)) fun e he ↦ hsuffixes.foldMany ?_
    rwa [String.ofList_toList] at he
  have hatom : Yields (atom (.ofDepth n))
      ('$' :: name.toList ++ (' ' :: (a.sign.toList ++ [' '] ++ cs))) [';']
      (IsAssignedTo a name V) := by
    refine .bind hvariable fun target htarget ↦ .map (.optional (.bind_head
      (accepts_trivia_blank ?_) fun _ _ ↦ yields_assignment hsolid hsign hvalue ha)) fun o ho ↦ ?_
    · rw [List.append_assoc]
      exact solid_sign ha _
    · obtain ⟨e, rfl, he⟩ := ho
      exact .pure ⟨target, htarget, he⟩
  have hdollar : Heads ['$']
      ('$' :: name.toList ++ (' ' :: (a.sign.toList ++ [' '] ++ cs)) ++ [';']) :=
    heads_cons (List.mem_singleton_self '$')
  have hoperand := OpTree.yields_operand (heads_cons List.mem_cons_self)
    (.bind (.bind (hdollar.rejects_literal (by decide)))) hatom
  exact OpTree.yields_expr_of_operand hoperand .semicolon

/-- A word operator behind the value of an assignment belongs to the value. -/
theorem parse_assigned (hname : isWordText name.toList = true) (ha : a ∈ assignments)
    (ho : o ∈ wordOperators) (h₁ : IsConditional Q₁ cs₁) (h₂ : IsConditional Q₂ cs₂) :
    ∃ e span, parseFile ("<?php ".toList ++
      (('$' :: name.toList ++ (' ' :: (a.sign.toList ++ [' '] ++
        (cs₁ ++ (' ' :: (o.word.toList ++ [' ']) ++ cs₂))))) ++ [';'])) =
        .ok [⟨.expression e, span⟩] ∧ IsAssignedTo a name (IsJoined o.op Q₁ Q₂) e := by
  refine OpTree.parseFile_of_yields ⟨'$', _, rfl, by decide⟩ fun n hn ↦ ?_
  simp only [List.length_append, List.length_cons] at hn
  cases n with
  | zero => omega
  | succ n =>
    refine yields_assigned hname ha ?_ ?_ (yields_joined ho h₁ h₂ (by omega) (by omega))
    · rw [List.append_assoc]
      exact h₁.solid _
    · rw [List.append_assoc]
      refine .literal_head rfl fun x hx he ↦ h₁.not_barren _ x hx ?_
      rw [he]
      decide

end

theorem parse_assigned_trees :
    ∃ e span, parseFile "<?php $x .= $a ?: $b xor ($c or $d);".toList =
      .ok [⟨.expression e, span⟩] ∧
        IsAssignedTo ⟨".=", .compoundAssign .concat⟩ "x" (IsJoined .logicalXor
          (OpTree.shortTernary (.variable "a") (.variable "b")).Is
          (OpTree.binary .logicalOr (.variable "c") (.variable "d")).Is) e := by
  have hfence (t : OpTree) (ht : t.isValid = true) :=
    isConditional_fence BinaryOp.spelling_mem ht
  have hsign : ⟨".=", .compoundAssign .concat⟩ ∈ assignments :=
    List.mem_cons_of_mem _ (List.mem_cons_of_mem _ (List.mem_map_of_mem
      (f := fun o : String × BinaryOp ↦ (⟨o.1, .compoundAssign o.2⟩ : Assignment))
      (a := (".=", BinaryOp.concat)) (by decide)))
  have hword : ⟨1, "xor", .logicalXor⟩ ∈ wordOperators :=
    List.mem_cons_of_mem _ List.mem_cons_self
  have hname : isWordText "x".toList = true := by decide
  have h := parse_assigned hname hsign hword
    (hfence (.shortTernary (.variable "a") (.variable "b")) (by decide))
    (hfence (.binary .logicalOr (.variable "c") (.variable "d")) (by decide))
  exact h

def isAssignment : List Stmt → Bool
  | [⟨.expression ⟨.assign _ _ _, _⟩, _⟩] => true
  | _ => false

/-- The expression is the assignment and not an operator over it. -/
theorem parse_assigned_call :
    ∃ ss, parseFile "<?php $x = new Foo() or die();".toList = .ok ss ∧
      ∀ e span op l r, ss = [⟨.expression e, span⟩] → e.kind ≠ .binary op l r := by
  have hassigns : (parseFile "<?php $x = new Foo() or die();".toList).toOption.any isAssignment =
      true := by decide +kernel
  cases hp : parseFile "<?php $x = new Foo() or die();".toList with
  | error e =>
    rw [hp] at hassigns
    cases hassigns
  | ok ss =>
    rw [hp] at hassigns
    refine ⟨ss, rfl, ?_⟩
    rintro ⟨kind, _⟩ span op l r rfl rfl
    cases hassigns

end PhpInsight

import PhpInsight.Grammar.Statement
import PhpInsight.Proofs.SideBySide.Words

namespace PhpInsight.Grammar

open Peg Peg.Parser Text

namespace Frame

/-- Two sets of rules agree less than `k` characters before the end of the first text, and read
trees that are alike. -/
structure Tied (F : Frame) (k : Nat) (g g' : Rules) : Prop where
  statement (d : List Char) : F.Firm k d d (Stmt.Like F.toLikeness) g.statement g'.statement
  expr (d : List Char) (n : Nat) : F.Firm k d d (Expr.Like F.toLikeness) (g.expr n) (g'.expr n)
  ternary (d : List Char) : F.Firm k d d (Expr.Like F.toLikeness) g.ternary g'.ternary
  binary (d : List Char) (n : Nat) :
    F.Firm k d d (Expr.Like F.toLikeness) (g.binary n) (g'.binary n)
  /-- Angle brackets too few for a heredoc start no operand. -/
  idle (n : Nat) {xs : List Char} : ¬ ['<', '<'] <+: xs →
    Rejects (g.binary n) ('<' :: xs) ∧ Rejects (g'.binary n) ('<' :: xs)
  /-- The rules of a conflicting trait use may hold any characters. -/
  traitUse (d : List Char) (k : Nat) :
    F.Firm k d d (MemberKind.Like F.toLikeness) traitUse traitUse

variable {F : Frame} {k : Nat} {d e : List Char} {g g' : Rules}

theorem steady_anyExpr (hg : F.Tied k g g') :
    F.Steady k d d (Expr.Like F.toLikeness) (anyExpr g) (anyExpr g') :=
  (hg.expr d 0).steady_of_less

theorem steady_statements (hg : F.Tied k g g') :
    F.Steady k d d (List.Forall₂ (Stmt.Like F.toLikeness)) (statements g) (statements g') :=
  steady_manyAfter (hg.statement d)

theorem firm_block (hg : F.Tied k g g') :
    F.Firm (k + 1) d d (List.Forall₂ (Stmt.Like F.toLikeness)) (block g) (block g') := by
  refine (firm_literal (by decide)).bind_eq fun _ ↦ ?_
  refine (steady_statements hg).bind fun _ _ hss ↦ .gap ?_
  refine (firm_literal (by decide)).steady.bind_eq fun _ ↦ ?_
  exact .pure hss

theorem steady_byReference : F.Steady k d d Eq byReference byReference :=
  .bind (steady_optionalBefore (firm_literal (by decide)).steady) fun _ _ h ↦ .pure (isSome_eq h)

theorem like_simpleTypeOf {n n' : Name} (h : n.Like F.toLikeness n') :
    (simpleTypeOf n).Like F.toLikeness (simpleTypeOf n') := by
  have hunqualified : n'.isUnqualified = n.isUnqualified := by
    rw [Name.isUnqualified, Name.isUnqualified, h.kind]
  have hlast : n'.last = n.last := by rw [Name.last, Name.last, h.parts]
  unfold simpleTypeOf
  rw [hunqualified, hlast]
  split
  · rename_i hkeyword
    have hdisplay := h.single (Bool.and_eq_true_iff.mp hkeyword).1
    exact .builtin ⟨F.text_refl _, h.span, hdisplay ▸ h.quotes⟩
  · exact .named h

theorem firm_simpleType : F.Firm (k + 1) d d (SimpleType.Like F.toLikeness) simpleType simpleType :=
  firm_name.bind fun _ _ h ↦ .pure (like_simpleTypeOf h)

theorem firm_typeHint : F.Firm (k + 1) d d (TypeHint.Like F.toLikeness) typeHint typeHint := by
  have hmore : F.Firm (k + 1) d d (SimpleType.Like F.toLikeness)
      (do literal "|"; notAhead (literal "|"); trivia; simpleType)
      (do literal "|"; notAhead (literal "|"); trivia; simpleType) := by
    refine (firm_literal (by decide)).bind_eq fun _ ↦ ?_
    refine .bind_eq (.notAhead (sees_literal (by decide))) fun _ ↦ .gap ?_
    exact firm_simpleType.steady
  refine .orElse (.position_bind fun _ _ hstart ↦ ?_) (.position_bind fun _ _ hstart ↦ ?_)
  · refine .token (firm_literal (by decide)) ?_
    refine firm_simpleType.steady.bind fun _ _ htype ↦ ?_
    refine .bind .position fun _ _ hstop ↦ ?_
    exact .pure (.nullable htype ⟨hstart, hstop⟩)
  · refine firm_simpleType.bind fun _ _ htype ↦ ?_
    refine .bind (steady_manyAfter hmore.less) fun others others' hothers ↦ ?_
    refine .bind .position fun _ _ hstop ↦ ?_
    refine .pure ?_
    cases hothers with
    | nil => exact .simple htype
    | cons h hs => exact .union (.cons htype (.cons h hs)) ⟨hstart, hstop⟩

theorem steady_returnType :
    F.Steady k d d (Option.Rel (TypeHint.Like F.toLikeness)) returnType returnType :=
  steady_optionalAfter (.token (firm_literal (by decide)) firm_typeHint.steady)

theorem firm_wordsOf {ps : List (Parser Modifier)}
    (h : ∀ p ∈ ps, ∃ w m, p = do keyword w; return m) :
    F.Firm (k + 1) d d Eq (firstOf ps) (firstOf ps) := by
  refine .firstOf_self fun p hp ↦ ?_
  obtain ⟨w, m, rfl⟩ := h p hp
  exact (firm_keyword w).bind_eq fun _ ↦ .pure rfl

theorem firm_modifier : F.Firm (k + 1) d d Eq modifier modifier := by
  refine firm_wordsOf fun p hp ↦ ?_
  simp only [List.mem_cons, List.not_mem_nil, or_false] at hp
  rcases hp with rfl | rfl | rfl | rfl | rfl | rfl | rfl | rfl <;> exact ⟨_, _, rfl⟩

theorem steady_modifiersOf {p : Parser Modifier} (h : F.Firm (k + 1) d d Eq p p) :
    F.Steady k d d Eq (modifiersOf p) (modifiersOf p) := by
  have hbefore : F.Firm (k + 1) d d Eq (do let m ← p; trivia; return m)
      (do let m ← p; trivia; return m) := h.bind_eq fun _ ↦ .gap (.pure rfl)
  refine .bind (.many hbefore.less) fun ms ms' hms ↦ .pure ?_
  rw [List.forall₂_eq_eq_eq] at hms
  rw [hms]

theorem steady_modifiers : F.Steady k d d Eq modifiers modifiers := steady_modifiersOf firm_modifier

theorem steady_defaultValue (hg : F.Tied k g g') :
    F.Steady k d d (Option.Rel (Expr.Like F.toLikeness)) (defaultValue g) (defaultValue g') :=
  steady_optionalAfter (.token (firm_literal (by decide)) (steady_anyExpr hg))

theorem steady_param (hg : F.Tied k g g') :
    F.Steady k d d (Param.Like F.toLikeness) (param g) (param g') := by
  refine .bind .position fun _ _ hstart ↦ ?_
  refine .bind_eq steady_modifiers fun _ ↦ ?_
  refine .bind (steady_optionalBefore firm_typeHint.steady) fun _ _ hhint ↦ ?_
  refine .bind_eq steady_byReference fun _ ↦ ?_
  refine .bind (steady_optionalBefore (firm_literal (by decide)).steady) fun _ _ hvariadic ↦ ?_
  refine firm_variableName.steady.bind fun _ _ hname ↦ ?_
  refine (steady_defaultValue hg).bind fun _ _ hvalue ↦ ?_
  refine .bind .position fun _ _ hstop ↦ ?_
  refine .pure ?_
  rw [isSome_eq hvariadic]
  exact .mk hname hhint hvalue ⟨hstart, hstop⟩

theorem firm_params (hg : F.Tied k g g') :
    F.Firm (k + 1) d d (List.Forall₂ (Param.Like F.toLikeness)) (params g) (params g') :=
  firm_listed (steady_param hg)

end Frame

end PhpInsight.Grammar

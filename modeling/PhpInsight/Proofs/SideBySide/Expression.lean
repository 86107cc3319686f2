import PhpInsight.Proofs.SideBySide.Rules

namespace PhpInsight.Grammar

open Peg Peg.Parser Text

theorem like_classRefOf {L : Likeness} {e e' : Expr} (h : e.Like L e') :
    (classRefOf e).Like L (classRefOf e') := by
  obtain ⟨n, n', hn, hn', hname⟩ | ⟨hno, hno'⟩ := h.kind.constFetch_or
  · simp only [classRefOf, hn, hn']
    exact .named hname
  · have hdynamic {e : Expr} (hno : ∀ n, e.kind ≠ .constFetch n) : classRefOf e = .dynamic e := by
      unfold classRefOf
      split
      · exact absurd ‹_› (hno _)
      · rfl
    rw [hdynamic hno, hdynamic hno']
    exact .dynamic h

namespace Frame

variable {F : Frame} {k : Nat} {d : List Char} {g g' : Rules}

theorem steady_argument (hg : F.Tied k g g') :
    F.Steady k d d (Argument.Like F.toLikeness) (argument g) (argument g') := by
  refine .orElse ?_ (.orElse ?_ ?_)
  · refine .token (firm_literal (by decide)) ?_
    refine (steady_anyExpr hg).bind fun _ _ he ↦ ?_
    exact .pure (.mk he .none)
  · refine firm_identifier.steady.bind fun _ _ hname ↦ .gap ?_
    refine (firm_literal (by decide)).steady.bind_eq fun _ ↦ ?_
    refine .bind_eq (.notAhead (sees_literal (by decide))) fun _ ↦ .gap ?_
    refine (steady_anyExpr hg).bind fun _ _ he ↦ ?_
    exact .pure (.mk he (.some hname))
  · exact (steady_anyExpr hg).bind fun _ _ he ↦ .pure (.mk he .none)

theorem firm_arguments (hg : F.Tied k g g') :
    F.Firm (k + 1) d d (List.Forall₂ (Argument.Like F.toLikeness)) (arguments g) (arguments g') :=
  firm_listed (steady_argument hg)

theorem firm_memberOperator : F.Firm (k + 1) d d Eq memberOperator memberOperator := by
  have hsign {sign : String} (h : isPlainSign sign = true) (nullsafe : Bool) :
      F.Firm (k + 1) d d Eq (do literal sign; return nullsafe) (do literal sign; return nullsafe) :=
    (firm_literal h).bind_eq fun _ ↦ .pure rfl
  exact .orElse (hsign (by decide) _) (hsign (by decide) _)

theorem steady_dynamicName {p p' : Parser Unit} (h : F.Steady k d d Eq p p') :
    F.Steady k d d (Identifier.Like F.asWritten [])
      (do let start ← position; let text ← textOf p; return ⟨text, ⟨start, ← position⟩⟩)
      (do let start ← position; let text ← textOf p'; return ⟨text, ⟨start, ← position⟩⟩) := by
  intro c c' hc hk
  have hread : Agree p p' c c' fun _ _ ↦ F.At d := (h c c' hc hk).imp fun _ _ _ _ h ↦ h.2
  refine .position_bind ?_
  refine hread.textOf.bind fun w w' next next' _ ⟨⟨hw, hw'⟩, hnext⟩ ↦ ?_
  have hlike : Identifier.Like F.asWritten [] ⟨w, ⟨c.offset, next.offset⟩⟩
      ⟨w', ⟨c'.offset, next'.offset⟩⟩ :=
    ⟨F.written_taken hc.1 hnext.1 hw hw', spans_near hc.1 hnext.1, F.quotes_taken hc.1 hw⟩
  exact .position_bind (.pure ⟨hlike, hnext⟩)

theorem steady_memberName (hg : F.Tied k g g') :
    F.Steady k d d (Identifier.Like F.asWritten []) (memberName g) (memberName g') := by
  have hidentifier : F.Steady k d d (Identifier.Like F.asWritten []) identifier identifier := by
    intro c c' hc hk
    refine (firm_identifier c c' hc hk).imp fun _ _ _ _ h ↦ ?_
    exact ⟨h.1.1.asWritten, h.1.2⟩
  have hheld : F.Steady k d d Eq (do literal "$"; let _ ← word) (do literal "$"; let _ ← word) := by
    refine (firm_literal (by decide)).steady.bind_eq fun _ ↦ ?_
    refine firm_word.steady.bind_eq fun _ ↦ ?_
    exact .pure rfl
  have hcomputed : F.Steady k d d Eq (do let _ ← between "\x7b" (anyExpr g) "\x7d")
      (do let _ ← between "\x7b" (anyExpr g') "\x7d") := by
    have hbetween : F.Firm (k + 1) d d (Expr.Like F.toLikeness) (between "\x7b" (anyExpr g) "\x7d")
        (between "\x7b" (anyExpr g') "\x7d") :=
      firm_between (firm_literal (by decide)) (steady_anyExpr hg) (firm_literal (by decide))
    exact hbetween.steady.bind fun _ _ _ ↦ .pure rfl
  exact .orElse hidentifier (steady_dynamicName (.orElse hheld hcomputed))

section

variable {e e' : Expr} (he : e.Like F.toLikeness e')
include he

theorem firm_memberSuffix (hg : F.Tied k g g') :
    F.Firm (k + 1) d d (Expr.Like F.toLikeness) (memberSuffix g e) (memberSuffix g' e') := by
  refine firm_memberOperator.bind_eq fun _ ↦ .gap ?_
  refine (steady_memberName hg).bind fun _ _ hname ↦ ?_
  refine .bind (steady_optionalAfter (firm_arguments hg).steady) fun _ _ hargs ↦ ?_
  refine .bind .position fun _ _ hstop ↦ ?_
  refine .pure (.mk ?_ ⟨he.span.1, hstop⟩)
  cases hargs with
  | none => exact .propertyFetch he hname
  | some hargs => exact .methodCall he hname hargs

theorem firm_staticPropertySuffix :
    F.Firm (k + 1) d d (Expr.Like F.toLikeness) (staticPropertySuffix e)
      (staticPropertySuffix e') := by
  refine .token (firm_literal (by decide)) ?_
  refine firm_variableName.steady.bind fun _ _ hname ↦ ?_
  refine .bind .position fun _ _ hstop ↦ ?_
  exact .pure (.mk (.staticPropertyFetch (like_classRefOf he) hname) ⟨he.span.1, hstop⟩)

theorem firm_staticMemberSuffix (hg : F.Tied k g g') :
    F.Firm (k + 1) d d (Expr.Like F.toLikeness) (staticMemberSuffix g e)
      (staticMemberSuffix g' e') := by
  refine .token (firm_literal (by decide)) ?_
  refine firm_identifier.steady.bind fun _ _ hname ↦ ?_
  refine .bind (steady_optionalAfter (firm_arguments hg).steady) fun _ _ hargs ↦ ?_
  refine .bind .position fun _ _ hstop ↦ ?_
  refine .pure (.mk ?_ ⟨he.span.1, hstop⟩)
  cases hargs with
  | none => exact .classConstFetch (like_classRefOf he) hname
  | some hargs => exact .staticCall (like_classRefOf he) hname hargs

theorem firm_indexSuffix (hg : F.Tied k g g') :
    F.Firm (k + 1) d d (Expr.Like F.toLikeness) (indexSuffix g e) (indexSuffix g' e') := by
  have hbetween : F.Firm (k + 1) d d (Option.Rel (Expr.Like F.toLikeness))
      (between "[" (optional (anyExpr g)) "]") (between "[" (optional (anyExpr g')) "]") :=
    firm_between firm_bracket (steady_anyExpr hg).optional firm_bracket_end
  refine hbetween.bind fun _ _ hindex ↦ ?_
  refine .bind .position fun _ _ hstop ↦ ?_
  exact .pure (.mk (.arrayDimFetch he hindex) ⟨he.span.1, hstop⟩)

theorem firm_callSuffix (hg : F.Tied k g g') :
    F.Firm (k + 1) d d (Expr.Like F.toLikeness) (callSuffix g e) (callSuffix g' e') := by
  refine (firm_arguments hg).bind fun _ _ hargs ↦ ?_
  refine .bind .position fun _ _ hstop ↦ ?_
  refine .pure (.mk ?_ ⟨he.span.1, hstop⟩)
  obtain ⟨n, n', hn, hn', hname⟩ | ⟨hno, hno'⟩ := he.kind.constFetch_or
  · rw [hn, hn']
    exact .functionCall hname hargs
  · split
    · exact absurd ‹_› (hno _)
    · exact .invoke he hargs

theorem firm_suffix (hg : F.Tied k g g') :
    F.Firm (k + 1) d d (Expr.Like F.toLikeness) (suffix g e) (suffix g' e') := by
  refine (firm_memberSuffix he hg).orElse ?_
  refine (firm_staticPropertySuffix he).orElse ?_
  refine (firm_staticMemberSuffix he hg).orElse ?_
  exact (firm_indexSuffix he hg).orElse (firm_callSuffix he hg)

theorem steady_suffixes (hg : F.Tied k g g') :
    F.Steady k d d (Expr.Like F.toLikeness) (suffixes g e) (suffixes g' e') :=
  .foldMany (fun _ _ he ↦ .gap (firm_suffix he hg).less) he

end

theorem firm_variableExpr :
    F.Firm (k + 1) d d (Expr.Like F.toLikeness) variableExpr variableExpr := by
  refine .position_bind fun _ _ hstart ↦ ?_
  refine firm_variableName.bind fun _ _ hname ↦ ?_
  refine .bind .position fun _ _ hstop ↦ ?_
  exact .pure (.mk (.variable hname.name) ⟨hstart, hstop⟩)

theorem steady_newClass (hg : F.Tied k g g') :
    F.Steady k d d (ClassRef.Like F.toLikeness) (newClass g) (newClass g') := by
  refine .orElse ?_ (.orElse ?_ ?_)
  · exact firm_plainName.steady.bind fun _ _ hname ↦ .pure (.named hname)
  · exact firm_variableExpr.steady.bind fun _ _ he ↦ .pure (.dynamic he)
  · exact (firm_enclosed (steady_anyExpr hg)).steady.bind fun _ _ he ↦ .pure (.dynamic he)

theorem firm_newExpr (hg : F.Tied k g g') :
    F.Firm (k + 1) d d (Expr.Like F.toLikeness) (newExpr g) (newExpr g') := by
  refine .position_bind fun _ _ hstart ↦ ?_
  refine .token (firm_keyword _) ?_
  refine (steady_newClass hg).bind fun _ _ htarget ↦ ?_
  refine .bind (steady_optionalAfter (firm_arguments hg).steady) fun _ _ hargs ↦ ?_
  refine .bind .position fun _ _ hstop ↦ ?_
  refine .pure (.mk (.new htarget ?_) ⟨hstart, hstop⟩)
  exact forall₂_getD hargs

theorem firm_closureUses : F.Firm (k + 1) d d (List.Forall₂ (ClosureUse.Like F.toLikeness))
    closureUses closureUses := by
  have huse : F.Steady k (')' :: d) (')' :: d) (ClosureUse.Like F.toLikeness) closureUse
      closureUse := by
    refine .bind_eq steady_byReference fun _ ↦ ?_
    exact firm_variableName.steady.bind fun _ _ hname ↦ .pure ⟨hname, rfl⟩
  refine .token (firm_keyword _) ?_
  refine .token firm_parenthesis ?_
  refine (huse.sepBy1 firm_comma).bind fun _ _ huses ↦ ?_
  refine .bind_eq steady_trailingComma fun _ ↦ .gap ?_
  refine firm_parenthesis_end.steady.bind_eq fun _ ↦ ?_
  exact .pure huses

theorem steady_staticWord : F.Steady k d d Eq staticWord staticWord :=
  .bind (steady_optionalBefore (firm_keyword _).steady) fun _ _ h ↦ .pure (isSome_eq h)

theorem firm_closure (hg : F.Tied k g g') :
    F.Firm (k + 1) d d (Expr.Like F.toLikeness) (closure g) (closure g') := by
  refine .position_bind fun _ _ hstart ↦ ?_
  refine .after_eq steady_staticWord fun _ ↦ ?_
  refine .token (firm_keyword _) ?_
  refine .bind_eq steady_byReference fun _ ↦ ?_
  refine (firm_params hg).steady.bind fun _ _ hparams ↦ ?_
  refine .bind (steady_optionalAfter firm_closureUses.steady) fun _ _ huses ↦ ?_
  refine .bind steady_returnType fun _ _ htype ↦ .gap ?_
  refine (firm_block hg).steady.bind fun _ _ hbody ↦ ?_
  refine .bind .position fun _ _ hstop ↦ ?_
  exact .pure (.mk (.closure hparams (forall₂_getD huses) htype hbody) ⟨hstart, hstop⟩)

theorem firm_arrowFunction (hg : F.Tied k g g') :
    F.Firm (k + 1) d d (Expr.Like F.toLikeness) (arrowFunction g) (arrowFunction g') := by
  refine .position_bind fun _ _ hstart ↦ ?_
  refine .after_eq steady_staticWord fun _ ↦ ?_
  refine .token (firm_keyword _) ?_
  refine .bind_eq steady_byReference fun _ ↦ ?_
  refine (firm_params hg).steady.bind fun _ _ hparams ↦ ?_
  refine .bind steady_returnType fun _ _ htype ↦ .gap ?_
  refine .token (firm_literal (by decide)) ?_
  refine (steady_anyExpr hg).bind fun _ _ hbody ↦ ?_
  refine .bind .position fun _ _ hstop ↦ ?_
  exact .pure (.mk (.arrowFunction hparams htype hbody) ⟨hstart, hstop⟩)

theorem steady_arrayItem (hg : F.Tied k g g') :
    F.Steady k d d (ArrayItem.Like F.toLikeness) (arrayItem g) (arrayItem g') := by
  refine .orElse ?_ (.orElse ?_ ?_)
  · refine .token (firm_literal (by decide)) ?_
    refine (steady_anyExpr hg).bind fun _ _ he ↦ ?_
    exact .pure (.mk .none he)
  · refine .token (firm_literal (by decide)) ?_
    refine (steady_anyExpr hg).bind fun _ _ he ↦ ?_
    exact .pure (.mk .none he)
  · have hsecond : F.Steady k d d
        (fun v v' : Bool × Expr ↦ v.1 = v'.1 ∧ v.2.Like F.toLikeness v'.2)
        (do literal "=>"; trivia; let byRef ← byReference; return (byRef, ← anyExpr g))
        (do literal "=>"; trivia; let byRef ← byReference; return (byRef, ← anyExpr g')) := by
      refine .token (firm_literal (by decide)) ?_
      refine .bind_eq steady_byReference fun _ ↦ ?_
      exact (steady_anyExpr hg).bind fun _ _ he ↦ .pure ⟨rfl, he⟩
    refine (steady_anyExpr hg).bind fun _ _ he ↦ ?_
    refine .bind (steady_optionalAfter hsecond) fun second second' h ↦ ?_
    cases h with
    | none => exact .pure (.mk .none he)
    | @some v v' h =>
      obtain ⟨byRef, value⟩ := v
      obtain ⟨byRef', value'⟩ := v'
      obtain ⟨rfl, hvalue⟩ : byRef = byRef' ∧ _ := h
      exact .pure (.mk (.some he) hvalue)

theorem steady_arrayItems (hg : F.Tied k g g') :
    F.Steady k d d (List.Forall₂ (ArrayItem.Like F.toLikeness)) (arrayItems g) (arrayItems g') := by
  refine ((steady_arrayItem hg).sepBy firm_comma).bind fun _ _ h ↦ ?_
  refine .bind_eq steady_trailingComma fun _ ↦ ?_
  exact .pure h

theorem firm_arrayLiteral (hg : F.Tied k g g') :
    F.Firm (k + 1) d d (Expr.Like F.toLikeness) (arrayLiteral g) (arrayLiteral g') := by
  refine .orElse (.position_bind fun _ _ hstart ↦ ?_) (.position_bind fun _ _ hstart ↦ ?_)
  · refine (firm_between firm_bracket (steady_arrayItems hg) firm_bracket_end).bind fun _ _ h ↦ ?_
    refine .bind .position fun _ _ hstop ↦ ?_
    exact .pure (.mk (.array h) ⟨hstart, hstop⟩)
  · refine .token (firm_keyword _) ?_
    refine (firm_enclosed (steady_arrayItems hg)).steady.bind fun _ _ h ↦ ?_
    refine .bind .position fun _ _ hstop ↦ ?_
    exact .pure (.mk (.array h) ⟨hstart, hstop⟩)

theorem firm_stringExpr : F.Firm (k + 1) d d (Expr.Like F.toLikeness) stringExpr stringExpr := by
  refine .position_bind fun _ _ hstart ↦ ?_
  refine firm_stringLiteral.bind fun _ _ h ↦ ?_
  refine .bind .position fun _ _ hstop ↦ ?_
  exact .pure (.mk (.string h) ⟨hstart, hstop⟩)

theorem firm_numberExpr : F.Firm (k + 1) d d (Expr.Like F.toLikeness) numberExpr numberExpr := by
  refine .position_bind fun _ _ hstart ↦ ?_
  refine firm_number.bind fun _ _ h ↦ ?_
  refine .bind .position fun _ _ hstop ↦ ?_
  exact .pure (.mk (.number h) ⟨hstart, hstop⟩)

theorem firm_issetExpr (hg : F.Tied k g g') :
    F.Firm (k + 1) d d (Expr.Like F.toLikeness) (issetExpr g) (issetExpr g') := by
  refine .position_bind fun _ _ hstart ↦ ?_
  refine .token (firm_keyword _) ?_
  refine .token firm_parenthesis ?_
  refine ((steady_anyExpr hg).sepBy1 firm_comma).bind fun _ _ h ↦ ?_
  refine .bind_eq steady_trailingComma fun _ ↦ .gap ?_
  refine firm_parenthesis_end.steady.bind_eq fun _ ↦ ?_
  refine .bind .position fun _ _ hstop ↦ ?_
  exact .pure (.mk (.isset h) ⟨hstart, hstop⟩)

theorem firm_emptyExpr (hg : F.Tied k g g') :
    F.Firm (k + 1) d d (Expr.Like F.toLikeness) (emptyExpr g) (emptyExpr g') := by
  refine .position_bind fun _ _ hstart ↦ ?_
  refine .token (firm_keyword _) ?_
  refine (firm_enclosed (steady_anyExpr hg)).steady.bind fun _ _ h ↦ ?_
  refine .bind .position fun _ _ hstop ↦ ?_
  exact .pure (.mk (.empty h) ⟨hstart, hstop⟩)

theorem firm_parenthesized (hg : F.Tied k g g') :
    F.Firm (k + 1) d d (Expr.Like F.toLikeness) (parenthesized g) (parenthesized g') := by
  refine .position_bind fun _ _ hstart ↦ ?_
  refine (firm_enclosed (steady_anyExpr hg)).bind fun _ _ h ↦ ?_
  refine .bind .position fun _ _ hstop ↦ ?_
  exact .pure (.mk h.kind ⟨hstart, hstop⟩)

theorem firm_constExpr {p : Parser Name} (hp : F.Firm (k + 1) d d (Name.Like F.toLikeness) p p) :
    F.Firm (k + 1) d d (Expr.Like F.toLikeness) (constExpr p) (constExpr p) := by
  refine .position_bind fun _ _ hstart ↦ ?_
  refine hp.bind fun _ _ h ↦ ?_
  refine .bind .position fun _ _ hstop ↦ ?_
  exact .pure (.mk (.constFetch h) ⟨hstart, hstop⟩)

theorem firm_primary (hg : F.Tied k g g') :
    F.Firm (k + 1) d d (Expr.Like F.toLikeness) (primary g) (primary g') := by
  refine firm_variableExpr.orElse ?_
  refine (firm_newExpr hg).orElse ?_
  refine (firm_closure hg).orElse ?_
  refine (firm_arrowFunction hg).orElse ?_
  refine firm_stringExpr.orElse ?_
  refine firm_numberExpr.orElse ?_
  refine (firm_arrayLiteral hg).orElse ?_
  refine (firm_issetExpr hg).orElse ?_
  refine (firm_emptyExpr hg).orElse ?_
  exact (firm_parenthesized hg).orElse (firm_constExpr firm_plainName)

theorem firm_chain (hg : F.Tied k g g') :
    F.Firm (k + 1) d d (Expr.Like F.toLikeness) (chain g) (chain g') :=
  (firm_primary hg).bind fun _ _ he ↦ steady_suffixes he hg

end Frame

end PhpInsight.Grammar

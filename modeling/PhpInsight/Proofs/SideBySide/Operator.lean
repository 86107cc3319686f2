import PhpInsight.Proofs.Operators.Following
import PhpInsight.Proofs.SideBySide.Expression

namespace PhpInsight.Grammar

open Peg Peg.Parser Text

def InfixOperator.isApart (o : InfixOperator) : Prop :=
  (o.spellings = ["/"] ∧ o.notBefore = ['/', '*', '=']) ∨
    gapHeads.all (!(CharClass.ofChars o.notBefore).contains ·) = true ∧
      ((∀ s ∈ o.spellings, Frame.isPlainSign s = true) ∨
        (o.spellings = ["<"] ∧ '<' ∈ o.notBefore) ∨ o.spellings = ["<<"])

instance (o : InfixOperator) : Decidable o.isApart :=
  inferInstanceAs (Decidable ((_ ∧ _) ∨ _ ∧ (_ ∨ _ ∨ _)))

namespace Frame

variable {F : Frame} {k : Nat} {d : List Char} {g g' : Rules}

theorem firm_plainAssignment (hg : F.Tied k g g') {e e' : Expr} (he : e.Like F.toLikeness e') :
    F.Firm (k + 1) d d (Expr.Like F.toLikeness) (plainAssignment g e) (plainAssignment g' e') := by
  refine (firm_literal (by decide)).bind_eq fun _ ↦ ?_
  refine .bind_eq (.notAhead (sees_oneOf (by decide))) fun _ ↦ .gap ?_
  refine .bind_eq steady_byReference fun _ ↦ ?_
  refine (steady_anyExpr hg).bind fun _ _ hvalue ↦ ?_
  exact .pure (.mk (.assign he hvalue) ⟨he.span.1, hvalue.span.2⟩)

theorem firm_compoundOperator : F.Firm (k + 1) d d Eq compoundOperator compoundOperator := by
  have htexts : ∀ o ∈ compoundOperators, isPlainSign o.1 = true := by decide
  refine .firstOf_map fun o ho ↦ ?_
  exact (firm_literal (htexts o ho)).bind_eq fun _ ↦ .pure rfl

theorem firm_compoundAssignment (hg : F.Tied k g g') {e e' : Expr}
    (he : e.Like F.toLikeness e') :
    F.Firm (k + 1) d d (Expr.Like F.toLikeness) (compoundAssignment g e)
      (compoundAssignment g' e') := by
  refine firm_compoundOperator.bind_eq fun _ ↦ .gap ?_
  refine (steady_anyExpr hg).bind fun _ _ hvalue ↦ ?_
  exact .pure (.mk (.compoundAssign he hvalue) ⟨he.span.1, hvalue.span.2⟩)

theorem firm_atom (hg : F.Tied k g g') :
    F.Firm (k + 1) d d (Expr.Like F.toLikeness) (atom g) (atom g') := by
  refine (firm_chain hg).bind fun e e' he ↦ ?_
  have hassignment : F.Firm (k + 1) d d (Expr.Like F.toLikeness)
      (plainAssignment g e <|> compoundAssignment g e)
      (plainAssignment g' e' <|> compoundAssignment g' e') :=
    (firm_plainAssignment hg he).orElse (firm_compoundAssignment hg he)
  refine .bind (steady_optionalAfter hassignment.steady) fun _ _ h ↦ .pure ?_
  cases h with
  | none => exact he
  | some h => exact h

def LikeKinds (L : Likeness) (f f' : Expr → ExprKind) : Prop :=
  ∀ e e', e.Like L e' → (f e).Like L (f' e')

theorem firm_leading (hg : F.Tied k g g') (level : Nat) {operator : Parser (Expr → ExprKind)}
    (h : F.Firm (k + 1) d d (LikeKinds F.toLikeness) operator operator) :
    F.Firm (k + 1) d d (Expr.Like F.toLikeness) (leading g level operator)
      (leading g' level operator) := by
  refine .position_bind fun _ _ hstart ↦ ?_
  refine h.bind fun _ _ hkind ↦ .gap ?_
  refine (hg.binary d _).steady_of_less.bind fun e e' he ↦ ?_
  exact .pure (.mk (hkind e e' he) ⟨hstart, he.span.2⟩)

theorem firm_leadingSign {text : String} (h : isPlainSign text = true) (op : UnaryOp) :
    F.Firm (k + 1) d d (LikeKinds F.toLikeness) (leadingSign text op) (leadingSign text op) :=
  (firm_literal h).bind_eq fun _ ↦ .pure fun _ _ ↦ .unary

theorem firm_leadingWord (text : String) {kind : Expr → ExprKind}
    (h : LikeKinds F.toLikeness kind kind) :
    F.Firm (k + 1) d d (LikeKinds F.toLikeness) (leadingWord text kind) (leadingWord text kind) :=
  (firm_keyword text).bind_eq fun _ ↦ .pure h

theorem firm_leadingCast :
    F.Firm (k + 1) d d (LikeKinds F.toLikeness) leadingCast leadingCast :=
  (firm_enclosed firm_castType.steady).bind_eq fun _ ↦ .pure fun _ _ ↦ .cast

theorem firm_includeWord :
    F.Firm (k + 1) d d (LikeKinds F.toLikeness) includeWord includeWord := by
  have hword (text : String) : F.Firm (k + 1) d d (LikeKinds F.toLikeness)
      (leadingWord text .include) (leadingWord text .include) :=
    firm_leadingWord text fun _ _ ↦ .include
  exact (hword _).orElse ((hword _).orElse ((hword _).orElse (hword _)))

theorem firm_operand (hg : F.Tied k g g') :
    F.Firm (k + 1) d d (Expr.Like F.toLikeness) (operand g) (operand g') := by
  have htexts : ∀ o ∈ signOperators, isPlainSign o.1 = true := by decide
  have hsigns : F.Firm (k + 1) d d (Expr.Like F.toLikeness)
      (firstOf (signOperators.map fun o ↦ leading g Level.sign (leadingSign o.1 o.2)))
      (firstOf (signOperators.map fun o ↦ leading g' Level.sign (leadingSign o.1 o.2))) :=
    .firstOf_map fun o ho ↦ firm_leading hg _ (firm_leadingSign (htexts o ho) _)
  refine (firm_leading hg _ (firm_leadingWord _ fun _ _ ↦ .throw)).orElse ?_
  refine (firm_leading hg _ (firm_leadingSign (by decide) _)).orElse ?_
  refine hsigns.orElse ?_
  refine (firm_leading hg _ firm_leadingCast).orElse ?_
  refine (firm_leading hg _ (firm_leadingWord _ fun _ _ ↦ .clone)).orElse ?_
  exact (firm_leading hg _ firm_includeWord).orElse (firm_atom hg)

theorem like_binaryExpr {L : Likeness} {op : BinaryOp} {l l' r r' : Expr} (hl : l.Like L l')
    (hr : r.Like L r') : (binaryExpr op l r).Like L (binaryExpr op l' r') :=
  .mk (.binary hl hr) ⟨hl.span.1, hr.span.2⟩

def rightOperand (g : Rules) (o : InfixOperator) (left : Expr) : Parser Expr := do
  trivia
  return binaryExpr o.op left (← g.binary o.rightLevel)

theorem steady_rightOperand (hg : F.Tied k g g') (o : InfixOperator) {e e' : Expr}
    (he : e.Like F.toLikeness e') :
    F.Steady k d d (Expr.Like F.toLikeness) (rightOperand g o e) (rightOperand g' o e') := by
  refine .gap ?_
  refine (hg.binary d _).steady_of_less.bind fun _ _ hright ↦ ?_
  exact .pure (like_binaryExpr he hright)

/-- The spelling and what is seen behind it. -/
theorem agree_symbol {c c' : Cursor} {o : InfixOperator} {s : String} (ho : o.spellings = [s])
    (hliteral : Agree (literal s) (literal s) c c' fun _ _ next next' ↦
      F.Near next next' ∧ Alike (· = s.toList) c c' next next')
    (hbehind : ∀ next next', F.Near next next' → Alike (· = s.toList) c c' next next' →
      Agree (oneOf (.ofChars o.notBefore)) (oneOf (.ofChars o.notBefore)) next next'
        fun _ _ _ _ ↦ True) :
    Agree (infixSymbol o) (infixSymbol o) c c' fun _ _ next next' ↦
      (F.Near next next' ∧ Alike (· = s.toList) c c' next next') ∧
        ∀ x ∈ next.rest.head?, x ∉ o.notBefore := by
  have hfirst : Agree (firstOf (o.spellings.map literal)) (firstOf (o.spellings.map literal)) c c'
      fun _ _ next next' ↦ F.Near next next' ∧ Alike (· = s.toList) c c' next next' := by
    rw [ho]
    exact hliteral.orElse .fail
  refine hfirst.bind fun _ _ next next' _ h ↦ ?_
  refine (hbehind next next' h.1 h.2).notAhead fun ⟨f, hf⟩ ↦ ⟨h, fun x hx hmem ↦ ?_⟩
  obtain ⟨rest, n⟩ := next
  obtain ⟨ys, rfl⟩ := List.head?_eq_some_iff.mp hx
  have hcontains : (CharClass.ofChars o.notBefore).contains x = true := by
    rw [CharClass.contains_ofChars]
    exact decide_eq_true hmem
  simp [oneOf, hcontains] at hf

theorem agree_infixSymbol {c c' : Cursor} {o : InfixOperator} {s : String}
    (hnot : gapHeads.all (!(CharClass.ofChars o.notBefore).contains ·) = true)
    (ho : o.spellings = [s]) (hs : isTight s.toList = true) (hc : F.Near c c') :
    Agree (infixSymbol o) (infixSymbol o) c c' fun _ _ next next' ↦
      (F.Near next next' ∧ Alike (· = s.toList) c c' next next') ∧
        ∀ x ∈ next.rest.head?, x ∉ o.notBefore :=
  agree_symbol ho (F.agree_literal hs hc) fun _ _ hnext _ ↦
    (F.agree_oneOf hnot hnext).imp fun _ _ _ _ _ ↦ trivial

theorem rejects_division_of_head {o : InfixOperator} (ho : o.spellings = ["/"]) {text : List Char}
    (h : ∀ x ∈ text.head?, x ≠ '/') : Rejects (infixSymbol o) text := by
  have hnone : Rejects (firstOf (o.spellings.map literal)) text := by
    rw [ho]
    exact .orElse (.literal_head rfl h) .fail
  exact .bind hnone

theorem rejects_division {o : InfixOperator} (ho : o.spellings = ["/"])
    (hnot : o.notBefore = ['/', '*', '=']) {text : List Char} (h : StartsGap text) :
    Rejects (infixSymbol o) text := by
  have hslash (y : Char) (hy : y ∈ ['/', '*']) (more : List Char) :
      Rejects (infixSymbol o) ('/' :: y :: more) := by
    have hsign : Accepts (firstOf (o.spellings.map literal)) ['/'] (y :: more) := by
      rw [ho]
      exact .orElse (.literal "/")
    refine .bind_head hsign fun _ _ ↦ .notAhead_head (.oneOf ?_)
    rw [hnot, CharClass.contains_ofChars]
    exact decide_eq_true (List.mem_append_left ['='] hy)
  obtain hblank | ⟨sign, hsign, more, rfl⟩ := h
  · refine rejects_division_of_head ho fun x hx he ↦ ?_
    have hmem := hblank x hx
    rw [he] at hmem
    exact absurd hmem (by decide)
  · simp only [List.mem_cons, List.not_mem_nil, or_false] at hsign
    obtain rfl | rfl | rfl := hsign
    · exact hslash '*' (by decide) more
    · exact hslash '/' (by decide) more
    · refine rejects_division_of_head ho ?_
      rintro x ⟨⟩
      decide

theorem agree_heads {c c' : Cursor} {K : CharClass}
    (h : ∀ x, K.contains x = true → (c.rest.head? = some x ↔ c'.rest.head? = some x)) :
    Agree (oneOf K) (oneOf K) c c' fun _ _ _ _ ↦ True := by
  by_cases hmatch : ∃ x ∈ c.rest.head?, K.contains x = true
  · obtain ⟨rest, n⟩ := c
    obtain ⟨rest', n'⟩ := c'
    obtain ⟨x, hx, hK⟩ := hmatch
    obtain ⟨xs, rfl⟩ := List.head?_eq_some_iff.mp hx
    obtain ⟨xs', rfl⟩ := List.head?_eq_some_iff.mp ((h x hK).mp hx)
    exact .inr ⟨(), (), ⟨xs, n + x.utf8Size⟩, ⟨xs', n' + x.utf8Size⟩, .none, .none,
      by simp only [oneOf, hK, if_true], by simp only [oneOf, hK, if_true],
      ⟨⟨[x], rfl, rfl⟩, [x], rfl, rfl⟩, trivial⟩
  · have hnone : ∀ x ∈ c.rest.head?, K.contains x = false := fun x hx ↦
      Bool.eq_false_iff.mpr fun hK ↦ hmatch ⟨x, hx, hK⟩
    refine agree_of_rejects (.oneOf hnone) (.oneOf fun x hx ↦ ?_)
    exact Bool.eq_false_iff.mpr fun hK ↦ hmatch ⟨x, (h x hK).mpr hx, hK⟩

/-- A slash that starts a comment divides nothing. -/
theorem agree_division {c c' : Cursor} {o : InfixOperator} (ho : o.spellings = ["/"])
    (hnot : o.notBefore = ['/', '*', '=']) (hc : F.At d c c') :
    Agree (infixSymbol o) (infixSymbol o) c c' fun _ _ next next' ↦
      (F.Near next next' ∧ Alike (· = "/".toList) c c' next next') ∧
        ∀ x ∈ next.rest.head?, x ∉ o.notBefore := by
  obtain ⟨rest, n⟩ := c
  obtain ⟨rest', n'⟩ := c'
  obtain ⟨x, xs, xs', rfl, rfl⟩ | ⟨hgap, hgap'⟩ := F.head hc.1
  · by_cases hx : x = '/'
    · subst hx
      have hsign : Agree (literal "/") (literal "/") ⟨'/' :: xs, n⟩ ⟨'/' :: xs', n'⟩
          fun _ _ next next' ↦ F.Near next next' ∧
            Alike (· = "/".toList) ⟨'/' :: xs, n⟩ ⟨'/' :: xs', n'⟩ next next' :=
        .inr ⟨(), (), ⟨xs, n + '/'.utf8Size⟩, ⟨xs', n' + '/'.utf8Size⟩, .none, .none, rfl, rfl,
          ⟨⟨['/'], rfl, rfl⟩, ['/'], rfl, rfl⟩, F.next hc.1 (by decide), _, rfl, ⟨rfl, rfl⟩, rfl,
          rfl⟩
      refine agree_symbol ho hsign fun next next' hnext halike ↦ agree_heads fun y hy ↦ ?_
      obtain ⟨_, rfl, ⟨hrest, -⟩, hrest', -⟩ := halike
      obtain ⟨-, rfl⟩ := List.cons.inj hrest
      obtain ⟨-, rfl⟩ := List.cons.inj hrest'
      rw [CharClass.contains_ofChars, hnot, decide_eq_true_iff] at hy
      by_cases hsign : y ∈ ['/', '*']
      · exact F.division hc.1 hc.2 y hsign
      · have hequals : y = '=' := by simp_all
        exact (F.head hnext).head_iff (hequals ▸ by decide)
    · have hhead (xs : List Char) : Rejects (infixSymbol o) (x :: xs) :=
        rejects_division_of_head ho fun y hy ↦ Option.some_inj.mp hy ▸ hx
      exact agree_of_rejects (hhead xs) (hhead xs')
  · exact agree_of_rejects (rejects_division ho hnot hgap) (rejects_division ho hnot hgap')

theorem inside_of_alike {c c' next next' : Cursor} {s : String} (hc : F.Inside d c)
    (h : Alike (· = s.toList) c c' next next')
    (hs : ∀ n, F.Inside d ⟨s.toList ++ next.rest, n⟩ →
      F.Inside d ⟨next.rest, n + byteLength s.toList⟩) : F.Inside d next := by
  obtain ⟨cs, rfl, ⟨hrest, hoffset⟩, -⟩ := h
  obtain ⟨rest, n⟩ := c
  rw [show rest = s.toList ++ next.rest from hrest] at hc
  have hnext := hs n hc
  rwa [show n + byteLength s.toList = next.offset from hoffset.symm] at hnext

theorem starts_iff {c c' : Cursor} (h : F.Near c c') (t : List Char)
    (ht : isTight t = true) : t <+: c.rest ↔ t <+: c'.rest := by
  have hdrop {c : Cursor} : t <+: c.rest ↔ Cursor.dropText? t c ≠ none := by
    constructor
    · rintro ⟨rest, hrest⟩
      obtain ⟨cs, n⟩ := c
      obtain rfl : t ++ rest = cs := hrest
      rw [Yields.dropText?_append]
      exact Option.some_ne_none _
    · intro hsome
      obtain ⟨next, hnext⟩ := Option.ne_none_iff_exists'.mp hsome
      exact ⟨next.rest, (dropText?_eq_some hnext).1.symm⟩
  rw [hdrop, hdrop]
  obtain ⟨hnone, hnone'⟩ | ⟨next, next', hnext, hnext', -⟩ :=
    F.near_dropText? ht h
  · simp [hnone, hnone']
  · simp [hnext, hnext']

theorem rejects_rightOperand {o : InfixOperator} {xs : List Char}
    (h : Rejects (g.binary o.rightLevel) ('<' :: xs)) (e : Expr) :
    Rejects (rightOperand g o e) ('<' :: xs) := by
  have hsolid : Solid ('<' :: xs) := solid_of_head (by rintro y ⟨⟩; decide)
  exact .bind_nil (accepts_trivia_nil hsolid) fun _ _ ↦ .bind h

/-- Two angle brackets may be the start of a heredoc. No operand can be read in the rest of it. -/
theorem agree_shift (hg : F.Tied k g g') {o : InfixOperator} (ho : o.spellings = ["<<"])
    (hnot : gapHeads.all (!(CharClass.ofChars o.notBefore).contains ·) = true) {e e' : Expr}
    (he : e.Like F.toLikeness e') {c c' : Cursor} (hc : F.At d c c') (hk : c.rest.length < k) :
    Agree (do infixSymbol o; rightOperand g o e) (do infixSymbol o; rightOperand g' o e') c c'
      fun b b' next next' ↦
        (b.Like F.toLikeness b' ∧ F.At d next next') ∧ Nearer c c' next next' := by
  refine (agree_infixSymbol hnot ho (by decide) hc.1).bind
    fun _ _ mid mid' _ ⟨⟨hmid, halike⟩, _⟩ ↦ ?_
  have hlt : Nearer c c' mid mid' := halike.nearer fun _ h ↦ by simp [h]
  have hgo (hinside : F.Inside d mid) : Agree (rightOperand g o e) (rightOperand g' o e') mid mid'
      fun b b' next next' ↦
        (b.Like F.toLikeness b' ∧ F.At d next next') ∧ Nearer c c' next next' := by
    have hright := steady_rightOperand hg o he mid mid' ⟨hmid, hinside⟩ (Nat.lt_trans hlt.1 hk)
    refine hright.imp_reaches fun b b' next next' hle hle' hnext ↦ ⟨hnext, ?_, ?_⟩
    · exact Nat.lt_of_le_of_lt hle.length_le hlt.1
    · exact Nat.lt_of_le_of_lt hle'.length_le hlt.2
  by_cases hthird : ['<'] <+: mid.rest
  · obtain ⟨xs, hxs⟩ := hthird
    obtain ⟨xs', hxs'⟩ := (starts_iff hmid ['<'] (by decide)).mp ⟨xs, hxs⟩
    by_cases hmore : ['<', '<'] <+: xs
    · refine hgo (inside_of_alike hc.2 halike fun n hn ↦ ?_)
      rw [← hxs] at hn ⊢
      exact (F.shift hn).resolve_right fun h ↦ h hmore
    · have hmore' : ¬ ['<', '<'] <+: xs' := by
        intro h
        have hlong' : ['<', '<', '<'] <+: mid'.rest := by
          rw [← hxs']
          exact List.cons_prefix_cons.mpr ⟨rfl, h⟩
        have hlong := (starts_iff hmid _ (by decide)).mpr hlong'
        rw [← hxs] at hlong
        exact hmore (List.cons_prefix_cons.mp hlong).2
      refine agree_of_rejects ?_ ?_
      · rw [← hxs]
        exact rejects_rightOperand (hg.idle _ hmore).1 e
      · rw [← hxs']
        exact rejects_rightOperand (hg.idle _ hmore').2 e'
  · have hnot (xs : List Char) : ¬ '<' :: xs <+: mid.rest := fun ⟨ys, hys⟩ ↦
      hthird ⟨xs ++ ys, hys⟩
    refine hgo (inside_of_alike hc.2 halike fun n hn ↦ ?_)
    have hsecond : F.Inside d ⟨'<' :: mid.rest, n + '<'.utf8Size⟩ :=
      F.angle hn fun h ↦ hnot [] (List.cons_prefix_cons.mp h).2
    have hlast := F.angle hsecond (hnot ['<'])
    rwa [Nat.add_assoc] at hlast

theorem firm_infixTail (hg : F.Tied k g g') {o : InfixOperator} (ho : o.isApart) {e e' : Expr}
    (he : e.Like F.toLikeness e') :
    F.Firm k d d (Expr.Like F.toLikeness) (infixTail g o e) (infixTail g' o e') := by
  refine .gap ?_
  have hsymbol (h : F.Firm (k + 1) d d Eq (infixSymbol o) (infixSymbol o)) :
      F.Firm k d d (Expr.Like F.toLikeness) (do infixSymbol o; rightOperand g o e)
        (do infixSymbol o; rightOperand g' o e') :=
    (h.bind_eq fun _ ↦ steady_rightOperand hg o he).less
  -- a symbol that is the start of something else is told from it by what follows
  have hfollowed {s : String} (hne : s.toList ≠ [])
      (hread : ∀ c c', F.At d c c' → Agree (infixSymbol o) (infixSymbol o) c c'
        fun _ _ next next' ↦ (F.Near next next' ∧ Alike (· = s.toList) c c' next next') ∧
          ∀ x ∈ next.rest.head?, x ∉ o.notBefore)
      (hinside : ∀ (xs : List Char) (n : Nat), F.Inside d ⟨s.toList ++ xs, n⟩ →
        (∀ x ∈ xs.head?, x ∉ o.notBefore) → F.Inside d ⟨xs, n + byteLength s.toList⟩) :
      F.Firm (k + 1) d d Eq (infixSymbol o) (infixSymbol o) := by
    intro c c' hc _
    refine (hread c c' hc).imp fun _ _ next next' ⟨⟨hnext, halike⟩, hhead⟩ ↦ ?_
    have hin : F.Inside d next := inside_of_alike hc.2 halike fun n hn ↦ hinside _ n hn hhead
    exact ⟨⟨rfl, hnext, hin⟩, halike.nearer fun _ h ↦ h ▸ hne⟩
  obtain ⟨ho, hnot⟩ | ⟨hbefore, ho | ⟨ho, hnot⟩ | ho⟩ := ho
  · refine hsymbol (hfollowed (by decide) (fun _ _ ↦ agree_division ho hnot) fun xs n hn hhead ↦ ?_)
    rw [hnot] at hhead
    exact F.slash hn fun x hx hmem ↦ hhead x hx (List.mem_append_left ['='] hmem)
  · have hfirst : F.Firm (k + 1) d d Eq (firstOf (o.spellings.map literal))
        (firstOf (o.spellings.map literal)) := .firstOf_map fun s hs ↦ firm_literal (ho s hs)
    exact hsymbol (hfirst.bind_eq fun _ ↦ .notAhead (sees_oneOf hbefore))
  · refine hsymbol (hfollowed (by decide)
      (fun _ _ hc ↦ agree_infixSymbol hbefore ho (by decide) hc.1) fun xs n hn hhead ↦ ?_)
    exact F.angle hn fun ⟨ys, hys⟩ ↦ hhead '<' (by rw [← hys]; rfl) hnot
  · exact fun c c' hc hk ↦ agree_shift hg ho hbefore he hc hk

theorem firm_instanceOfTail {e e' : Expr} (he : e.Like F.toLikeness e') :
    F.Firm (k + 1) d d (Expr.Like F.toLikeness) (instanceOfTail e) (instanceOfTail e') := by
  have hclass : F.Steady k d d (ClassRef.Like F.toLikeness) instanceOfClass instanceOfClass := by
    refine .orElse ?_ ?_
    · exact firm_plainName.steady.bind fun _ _ h ↦ .pure (.named h)
    · exact firm_variableExpr.steady.bind fun _ _ h ↦ .pure (.dynamic h)
  refine .gap ?_
  refine .token (firm_keyword _) ?_
  refine hclass.bind fun _ _ htarget ↦ ?_
  refine .bind .position fun _ _ hstop ↦ ?_
  exact .pure (.mk (.instanceOf he htarget) ⟨he.span.1, hstop⟩)

theorem firm_stepTail {text : String} (h : isPlainSign text = true) (op : UnaryOp) {e e' : Expr}
    (he : e.Like F.toLikeness e') :
    F.Firm (k + 1) d d (Expr.Like F.toLikeness) (stepTail text op e) (stepTail text op e') := by
  refine .gap ?_
  refine (firm_literal h).bind_eq fun _ ↦ ?_
  refine .bind .position fun _ _ hstop ↦ ?_
  exact .pure (.mk (.unary he) ⟨he.span.1, hstop⟩)

/-- Two lists of what may follow a left operand, level by level. -/
def Follow (F : Frame) (k : Nat) (d : List Char) (t t' : Nat × (Expr → Parser Expr)) : Prop :=
  t.1 = t'.1 ∧ ∀ e e', e.Like F.toLikeness e' →
    F.Firm k d d (Expr.Like F.toLikeness) (t.2 e) (t'.2 e')

theorem follow_map {ι : Type} {f f' : ι → Nat × (Expr → Parser Expr)} {is : List ι}
    (h : ∀ i ∈ is, F.Follow k d (f i) (f' i)) :
    List.Forall₂ (F.Follow k d) (is.map f) (is.map f') :=
  List.forall₂_map_left_iff.mpr (List.forall₂_map_right_iff.mpr (List.forall₂_same.mpr h))

theorem follow_tails (hg : F.Tied k g g') : List.Forall₂ (F.Follow k d) (tails g) (tails g') := by
  have hloose : ∀ o ∈ looseOperators, o.isApart := by decide
  have htight : ∀ o ∈ tightOperators, o.isApart := by decide
  have hstep : ∀ o ∈ stepOperators, isPlainSign o.1 = true := by decide
  have hsigns {os : List InfixOperator} (h : ∀ o ∈ os, o.isApart) :
      List.Forall₂ (F.Follow k d) (os.map fun o ↦ (o.level, infixTail g o))
        (os.map fun o ↦ (o.level, infixTail g' o)) :=
    follow_map fun o ho ↦ ⟨rfl, fun _ _ he ↦ firm_infixTail hg (h o ho) he⟩
  have hinstanceOf : F.Follow k d (Level.instanceOf, instanceOfTail)
      (Level.instanceOf, instanceOfTail) := ⟨rfl, fun _ _ he ↦ (firm_instanceOfTail he).less⟩
  have hsteps : List.Forall₂ (F.Follow k d)
      (stepOperators.map fun o ↦ (Level.step, stepTail o.1 o.2))
      (stepOperators.map fun o ↦ (Level.step, stepTail o.1 o.2)) :=
    follow_map fun o ho ↦ ⟨rfl, fun _ _ he ↦ (firm_stepTail (hstep o ho) _ he).less⟩
  exact List.rel_append (hsigns hloose) (.cons hinstanceOf (List.rel_append (hsigns htight) hsteps))

theorem firm_tailFrom {ts ts' : List (Nat × (Expr → Parser Expr))}
    (h : List.Forall₂ (F.Follow k d) ts ts') (min : Nat) {e e' : Expr}
    (he : e.Like F.toLikeness e') :
    F.Firm k d d (Expr.Like F.toLikeness) (tailFrom ts min e) (tailFrom ts' min e') := by
  refine .firstOf ?_
  induction h with
  | nil => exact .nil
  | cons h _ ih =>
    rw [List.filter_cons, List.filter_cons, ← h.1]
    split
    · exact .cons (h.2 e e' he) ih
    · exact ih

theorem firm_binaryFrom (hg : F.Tied k g g') (min : Nat) :
    F.Firm (k + 1) d d (Expr.Like F.toLikeness) (binaryFrom g min) (binaryFrom g' min) := by
  refine (firm_operand hg).bind fun _ _ he ↦ ?_
  exact .foldMany (fun _ _ he ↦ firm_tailFrom (follow_tails hg) min he) he

theorem firm_ternaryTail (hg : F.Tied k g g') {e e' : Expr} (he : e.Like F.toLikeness e') :
    F.Firm (k + 1) d d (Expr.Like F.toLikeness) (ternaryTail g e) (ternaryTail g' e') := by
  refine .gap ?_
  refine (firm_literal (by decide)).bind_eq fun _ ↦ ?_
  refine .bind_eq (.notAhead (sees_literal (by decide))) fun _ ↦ ?_
  refine .bind_eq (.notAhead (sees_literal (by decide))) fun _ ↦ .gap ?_
  refine (steady_anyExpr hg).optional.bind fun _ _ hconsequent ↦ .gap ?_
  refine (firm_literal (by decide)).steady.bind_eq fun _ ↦ ?_
  refine .bind_eq (.notAhead (sees_literal (by decide))) fun _ ↦ .gap ?_
  refine (hg.ternary d).steady_of_less.bind fun _ _ halternative ↦ ?_
  exact .pure (.mk (.ternary he hconsequent halternative) ⟨he.span.1, halternative.span.2⟩)

theorem firm_ternary (hg : F.Tied k g g') :
    F.Firm (k + 1) d d (Expr.Like F.toLikeness) (PhpInsight.Grammar.ternary g)
      (PhpInsight.Grammar.ternary g') := by
  refine (firm_binaryFrom hg 0).bind fun _ _ he ↦ ?_
  refine (firm_ternaryTail hg he).steady.optional.bind fun _ _ h ↦ ?_
  refine .pure ?_
  cases h with
  | none => exact he
  | some h => exact h

theorem follow_wordTails (hg : F.Tied k g g') :
    List.Forall₂ (F.Follow k d) (wordTails g) (wordTails g') := by
  refine follow_map fun o _ ↦ ⟨rfl, fun e e' he ↦ Firm.less ?_⟩
  refine .gap ?_
  refine .token (firm_keyword _) ?_
  refine (hg.expr d _).steady_of_less.bind fun _ _ hright ↦ ?_
  exact .pure (like_binaryExpr he hright)

theorem firm_exprFrom (hg : F.Tied k g g') (min : Nat) :
    F.Firm (k + 1) d d (Expr.Like F.toLikeness) (exprFrom g min) (exprFrom g' min) := by
  refine (firm_ternary hg).bind fun _ _ he ↦ ?_
  exact .foldMany (fun _ _ he ↦ firm_tailFrom (follow_wordTails hg) min he) he

theorem steady_exprList (hg : F.Tied k g g') :
    F.Steady k d d (List.Forall₂ (Expr.Like F.toLikeness)) (exprList g) (exprList g') :=
  (steady_anyExpr hg).sepBy firm_comma

end Frame

end PhpInsight.Grammar

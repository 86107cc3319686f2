import PhpInsight.Proofs.Operators.Following

namespace PhpInsight

open Grammar Peg Peg.Parser

namespace OpTree

variable {spell : BinaryOp → String} {t : OpTree} {more rest : List Char} {R : Expr → Prop}

def startHeads : List Char := ['$', '(', '!', '-', '+', '~']

/-- The rank that is needed where the text of a tree ends. -/
def endRank : OpTree → Nat
  | «variable» _ | instanceOf _ _ _ => rankOfLevel (Level.step + 1)
  | binary op _ _ => op.fixity.right
  | ternary _ _ _ | shortTernary _ _ => conditionalRank
  | sign s _ => rankOfLevel (s.level + 1)

theorem rank_le_endRank (t : OpTree) : t.rank ≤ t.endRank := by
  have hop : ∀ op : BinaryOp, op.fixity.rank ≤ op.fixity.right := by
    intro op
    cases op <;> decide
  cases t with
  | binary op left right => exact hop op
  | sign s operand => exact Nat.add_le_add_right (Nat.le_succ _) _
  | «variable» _ | ternary _ _ _ | shortTernary _ _ => exact Nat.le_refl _
  | instanceOf _ _ _ => exact Nat.add_le_add_right (by decide) _

/-- What stands before an operator ends before it, when operators that may stand there do. -/
theorem lt_endRank {own left : Nat} (hle : own ≤ left) (hne : own ≠ conditionalRank)
    (hlt : own < rankOfLevel (Level.step + 1))
    (hop : ∀ op : BinaryOp, left ≤ op.fixity.rank → own + 1 ≤ op.fixity.right)
    (h : left ≤ t.rank) : own + 1 ≤ t.endRank := by
  cases t with
  | binary op _ _ => exact hop op h
  | «variable» _ | instanceOf _ _ _ => exact hlt
  | ternary _ _ _ | shortTernary _ _ => exact Nat.lt_of_le_of_ne (Nat.le_trans hle h) hne
  | sign s operand =>
    have hown : own ≤ rankOfLevel s.level := Nat.le_trans hle h
    simp only [endRank, rankOfLevel] at hown ⊢
    omega

theorem lt_endRank_of_left {op : BinaryOp} (h : op.fixity.left ≤ t.rank) :
    op.fixity.rank + 1 ≤ t.endRank := by
  -- Operators of one rank associate to the same side.
  have hsame : ∀ op op' : BinaryOp, op.fixity.left ≤ op'.fixity.rank →
      op.fixity.rank + 1 ≤ op'.fixity.right := by
    intro op op'
    cases op <;> cases op' <;> decide
  have hop : ∀ op : BinaryOp, op.fixity.rank ≤ op.fixity.left ∧ op.fixity.rank ≠ conditionalRank ∧
      op.fixity.rank < rankOfLevel (Level.step + 1) := by
    intro op
    cases op <;> decide
  obtain ⟨hle, hne, hlt⟩ := hop op
  exact lt_endRank hle hne hlt (hsame op) h

theorem lt_endRank_of_instanceOf (h : rankOfLevel Level.instanceOf ≤ t.rank) :
    rankOfLevel Level.instanceOf + 1 ≤ t.endRank := by
  refine lt_endRank (Nat.le_refl _) (by decide) (by decide) (fun op ↦ ?_) h
  cases op <;> decide

theorem rank_zero : conditionalRank + 1 = rankOfLevel 0 := rfl

theorem fence_of_lt {required own : Nat} (h : own < required) (cs : List Char) :
    fence required own cs = '(' :: (cs ++ [')']) := if_pos h

theorem length_fence_of_lt {required own : Nat} (h : own < required) (cs : List Char) :
    (fence required own cs).length = cs.length + 2 := by
  rw [fence_of_lt h, List.length_cons, List.length_append, List.length_singleton]

theorem fence_of_le {required own : Nat} (h : required ≤ own) (cs : List Char) :
    fence required own cs = cs := if_neg (Nat.not_lt.mpr h)

def Starts (heads cs : List Char) : Prop := ∃ x xs, cs = x :: xs ∧ x ∈ heads

theorem Starts.append {heads cs : List Char} (h : Starts heads cs) (more : List Char) :
    Starts heads (cs ++ more) := by
  obtain ⟨x, xs, rfl, hx⟩ := h
  exact ⟨x, xs ++ more, rfl, hx⟩

theorem Starts.heads {heads cs : List Char} (h : Starts heads cs) : Heads heads cs := by
  obtain ⟨x, xs, rfl, hx⟩ := h
  exact heads_cons hx

theorem starts_fence {heads cs : List Char} (required own : Nat) (hopen : '(' ∈ heads)
    (h : required ≤ own → Starts heads cs) : Starts heads (fence required own cs) := by
  rcases Nat.lt_or_ge own required with hlt | hle
  · exact ⟨_, _, fence_of_lt hlt cs, hopen⟩
  · rw [fence_of_le hle]
    exact h hle

theorem starts_text (spell : BinaryOp → String) (t : OpTree) :
    Starts startHeads (t.text spell) := by
  have hfence {t : OpTree} (ih : Starts startHeads (t.text spell)) (required : Nat)
      (more : List Char) : Starts startHeads (fence required t.rank (t.text spell) ++ more) :=
    .append (starts_fence required t.rank (by decide) fun _ ↦ ih) more
  induction t with
  | «variable» name => exact ⟨_, _, rfl, by decide⟩
  | binary op left right ihl _ => exact hfence ihl _ _
  | ternary condition consequent alternative ihc _ _ => exact hfence ihc _ _
  | shortTernary condition alternative ihc _ => exact hfence ihc _ _
  | instanceOf operand full className ih => exact hfence ih _ _
  | sign s operand _ => exact ⟨_, _, rfl, by cases s <;> decide⟩

theorem starts_text_of_sign (h : rankOfLevel (Level.sign + 1) ≤ t.rank) :
    Starts ['$', '('] (t.text spell) := by
  have hop : ∀ op : BinaryOp, rankOfLevel (Level.sign + 1) ≤ op.fixity.rank →
      rankOfLevel (Level.sign + 1) ≤ op.fixity.left := by
    intro op
    cases op <;> decide
  induction t with
  | «variable» name => exact ⟨_, _, rfl, by decide⟩
  | binary op left right ih _ =>
    refine .append (starts_fence op.fixity.left left.rank (by decide) fun hle ↦ ?_) _
    exact ih (Nat.le_trans (hop op h) hle)
  | sign s operand _ =>
    have hlevel : s.level ≤ Level.sign := by cases s <;> decide
    have h : Level.sign + 1 ≤ s.level := Nat.le_of_add_le_add_right h
    omega
  | ternary _ _ _ | shortTernary _ _ | instanceOf _ _ _ =>
    simp only [rank] at h
    exact absurd h (by decide)

theorem solid_text (t : OpTree) (more : List Char) : Solid (t.text spell ++ more) :=
  ((starts_text spell t).append more).heads.solid (by decide)

theorem solid_fence {required : Nat} : Solid (fence required t.rank (t.text spell) ++ rest) :=
  ((starts_fence required t.rank (by decide) fun _ ↦ starts_text spell t).append rest).heads.solid
    (by decide)

section

variable {n min k required : Nat} {g : Rules} {cs : List Char} {Q : Expr → Prop}

theorem yields_operand_of_heads {heads : List Char} (h : Heads heads (cs ++ rest))
    (hword : heads.all (!wordStart.contains ·) = true) (hnot : heads.all (· ≠ '!') = true)
    (hmarks : ∀ o ∈ signOperators, o.1.toList.head?.any (· ∉ heads) = true)
    (hcast : Rejects leadingCast (cs ++ rest)) (ha : Yields (atom g) cs rest Q) :
    Yields (operand g) cs rest Q := by
  have hkeyword (s : String) : Rejects (keyword s) (cs ++ rest) := h.rejects_keyword hword
  have hnone : '!' ∉ heads := fun hmem ↦ by simpa using List.all_eq_true.mp hnot _ hmem
  refine .orElse_of_rejects (rejects_leading (.bind (hkeyword _))) ?_
  refine .orElse_of_rejects (rejects_leading (.bind (h.rejects_literal (by simpa using hnone)))) ?_
  refine .orElse_of_rejects (.firstOf fun p hp ↦ ?_) ?_
  · obtain ⟨o, ho, rfl⟩ := List.mem_map.mp hp
    exact rejects_leading (.bind (h.rejects_literal (hmarks o ho)))
  refine .orElse_of_rejects (rejects_leading hcast) ?_
  refine .orElse_of_rejects (rejects_leading (.bind (hkeyword _))) ?_
  refine .orElse_of_rejects (rejects_leading ?_) ha
  refine .orElse ?_ (.orElse ?_ (.orElse ?_ ?_))
  all_goals exact .bind (hkeyword _)

theorem yields_operand (h : Heads ['$', '('] (cs ++ rest))
    (hcast : Rejects leadingCast (cs ++ rest)) (ha : Yields (atom g) cs rest Q) :
    Yields (operand g) cs rest Q :=
  yields_operand_of_heads h (by decide) (by decide) (by decide) hcast ha

theorem yields_variable {name : String} (hname : isWordText name.toList = true)
    (h : Ends k rest) :
    Yields (operand g) ('$' :: name.toList) rest (OpTree.variable name).Is := by
  have hdollar : Heads ['$'] ('$' :: name.toList ++ rest) := heads_cons (List.mem_singleton_self _)
  have hprimary : Yields (primary g) ('$' :: name.toList) rest (OpTree.variable name).Is :=
    .orElse ((yields_variableExpr hname h.endsName.word).imp fun e he ↦ by
      rwa [String.ofList_toList] at he)
  exact yields_operand (heads_cons List.mem_cons_self)
    (.bind (.bind (hdollar.rejects_literal (by decide)))) (yields_atom hprimary h)

theorem yields_parentheses (hstarts : Starts startHeads cs)
    (hinner : Yields (anyExpr g) cs (')' :: rest) Q) (hQ : ∀ e e', e'.kind = e.kind → Q e → Q e')
    (h : Ends k rest) : Yields (operand g) ('(' :: (cs ++ [')'])) rest Q := by
  have hstart : Heads startHeads (cs ++ [')'] ++ rest) := ((hstarts.append _).append _).heads
  have hsolid : Solid (cs ++ [')'] ++ rest) := hstart.solid (by decide)
  have hparenthesized : Yields (parenthesized g) ('(' :: (cs ++ [')'])) rest Q := by
    have hbetween : Yields (between "(" (anyExpr g) ")") ('(' :: (cs ++ [')'])) rest Q := by
      refine .bind_head (.literal "(") fun _ _ ↦ .bind_nil (accepts_trivia_nil hsolid) fun _ _ ↦
        .bind hinner fun e he ↦ .bind_nil (accepts_trivia_nil ?_) fun _ _ ↦ ?_
      · exact (heads_cons (List.mem_singleton_self ')')).solid (by decide)
      · exact .map (.literal ")") fun _ _ ↦ .pure he
    refine .bind_nil .position fun start _ ↦ ?_
    refine .map hbetween fun e he ↦ ?_
    exact .bind_nil .position fun stop _ ↦ .pure (hQ e _ rfl he)
  have hopen : Heads openHeads ('(' :: (cs ++ [')']) ++ rest) := heads_cons List.mem_cons_self
  have hstring : Rejects stringLiteral ('(' :: (cs ++ [')']) ++ rest) :=
    (heads_cons (List.mem_singleton_self '(')).rejects_stringLiteral (by decide)
  have hprimary : Yields (primary g) ('(' :: (cs ++ [')'])) rest Q :=
    primary_of_rejects (C := fun p ↦ Yields p _ rest Q) hopen hstring
      (fun _ _ hp hq ↦ .orElse_of_rejects hp hq) (.orElse hparenthesized)
  have hcast : Rejects leadingCast ('(' :: (cs ++ [')'] ++ rest)) := by
    refine .bind (.bind_head (.literal "(") fun _ _ ↦ ?_)
    exact .bind_nil (accepts_trivia_nil hsolid) fun _ _ ↦
      .bind (.bind (hstart.rejects_word (by decide)))
  exact yields_operand (heads_cons (List.mem_cons_of_mem _ (List.mem_singleton_self _))) hcast
    (yields_atom hprimary h)

theorem yields_sign {s : Sign} {R : Expr → Prop}
    (hstarts : Starts startHeads cs) (hsign : s.level = Level.sign → Starts ['$', '('] cs)
    (h : Yields (g.binary (s.level + 1)) cs rest Q)
    (hQ : ∀ o e, Q o → e.kind = .unary s.op o → R e) :
    Yields (operand g) (s.mark :: cs) rest R := by
  have hsolid : Solid (cs ++ rest) := (hstarts.append rest).heads.solid (by decide)
  have hleading : Yields (leading g s.level (leadingSign (String.singleton s.mark) s.op))
      (s.mark :: cs) rest R := by
    have hmark : Yields (leadingSign (String.singleton s.mark) s.op) [s.mark] (cs ++ rest)
        (· = .unary s.op) := by
      rw [← String.toList_singleton s.mark]
      exact .map (.literal _) fun _ _ ↦ .pure rfl
    refine .bind_nil .position fun start _ ↦ ?_
    refine .bind_head hmark fun kind hkind ↦ ?_
    subst hkind
    refine .bind_nil (accepts_trivia_nil hsolid) fun _ _ ↦ ?_
    exact .map h fun o ho ↦ .pure (hQ o _ ho rfl)
  have hmark : Heads [s.mark] (s.mark :: cs ++ rest) := heads_cons (List.mem_singleton_self _)
  have hword : [s.mark].all (!wordStart.contains ·) = true := by cases s <;> decide
  refine .orElse_of_rejects (rejects_leading (.bind (hmark.rejects_keyword hword))) ?_
  by_cases hs : s.level = Level.sign
  · obtain ⟨before, after, hsplit, hbefore⟩ : ∃ before after,
        signOperators = before ++ (String.singleton s.mark, s.op) :: after ∧
          before.all (fun o ↦ ['$', '('].all fun x ↦ Differ o.1.toList [s.mark, x]) = true := by
      cases s with
      | not => cases hs
      | minus => exact ⟨signOperators.take 2, signOperators.drop 3, by decide, by decide⟩
      | plus => exact ⟨signOperators.take 3, signOperators.drop 4, by decide, by decide⟩
      | bitwiseNot => exact ⟨signOperators.take 4, signOperators.drop 5, by decide, by decide⟩
    rw [hs] at hleading
    refine .orElse_of_rejects (rejects_leading (.bind (.literal_head rfl ?_))) (.orElse (.firstOf
      (before.map fun o ↦ leading g Level.sign (leadingSign o.1 o.2))
      (after.map fun o ↦ leading g Level.sign (leadingSign o.1 o.2)) ?_ ?_ hleading))
    · rintro y ⟨⟩ hmark
      cases s <;> cases hs <;> cases hmark
    · rw [hsplit, List.map_append, List.map_cons]
    · intro p hp
      obtain ⟨o, ho, rfl⟩ := List.mem_map.mp hp
      obtain ⟨x, xs, rfl, hx⟩ := hsign hs
      have hliteral : Rejects (literal o.1) ([s.mark, x] ++ (xs ++ rest)) :=
        .literal (List.all_eq_true.mp (List.all_eq_true.mp hbefore o ho) x hx)
      exact rejects_leading (.bind hliteral)
  · have hnot : s = .not := by
      cases s with
      | not => rfl
      | _ => exact absurd rfl hs
    subst hnot
    exact .orElse hleading

end

section

variable {n min k required : Nat} {cs : List Char} {Q : Expr → Prop}

/-- As an operand: operators that take the tree as their left operand may go on with the text. -/
def ReadsBinary (spell : BinaryOp → String) (n : Nat) (t : OpTree) : Prop :=
  ∀ (min : Nat) (more rest : List Char) (R : Expr → Prop), rankOfLevel min ≤ t.rank →
    Ends t.endRank (more ++ rest) →
      Extends (tailFrom (tails (.ofDepth n)) min) t.Is more rest R →
        Yields (binaryFrom (.ofDepth n) min) (t.text spell ++ more) rest R

def ReadsTernary (spell : BinaryOp → String) (n : Nat) (t : OpTree) : Prop :=
  ∀ rest : List Char, conditionalRank ≤ t.rank → Ends conditionalRank rest →
    Yields (Grammar.ternary (.ofDepth n)) (t.text spell) rest t.Is

def ReadsExpr (spell : BinaryOp → String) (n : Nat) (t : OpTree) : Prop :=
  ∀ (min : Nat) (more rest : List Char) (R : Expr → Prop), min ≤ t.rank →
    Ends (Nat.min t.endRank conditionalRank) (more ++ rest) →
      Extends (tailFrom (wordTails (.ofDepth n)) min) t.Is more rest R →
        Yields (exprFrom (.ofDepth n) min) (t.text spell ++ more) rest R

structure Reads (spell : BinaryOp → String) (n : Nat) (t : OpTree) : Prop where
  binary : ReadsBinary spell n t
  ternary : ReadsTernary spell n t
  expr : ReadsExpr spell n t

theorem yields_ternary_of_binary (h : Yields (binaryFrom (.ofDepth n) 0) cs rest Q)
    (hend : Ends conditionalRank rest) : Yields (Grammar.ternary (.ofDepth n)) cs rest Q := by
  refine .map h fun e he ↦ ?_
  refine .map (.optional_none (rejects_ternaryTail hend e)) fun o ho ↦ ?_
  subst ho
  exact .pure he

theorem yields_expr_of_ternary (h : Yields (Grammar.ternary (.ofDepth n)) cs (more ++ rest) Q)
    (hext : Extends (tailFrom (wordTails (.ofDepth n)) min) Q more rest R) :
    Yields (exprFrom (.ofDepth n) min) (cs ++ more) rest R :=
  .bind h fun _ he ↦ hext.foldMany he

theorem yields_expr_of_operand (h : Yields (operand (.ofDepth n)) cs rest Q) (hend : Ends 0 rest) :
    Yields (exprFrom (.ofDepth n) 0) cs rest Q := by
  have hbinary : Extends (tailFrom (tails (.ofDepth n)) 0) Q [] rest Q :=
    .stop fun e he ↦ ⟨rejects_tails (hend.mono (Nat.zero_le _)) e, he⟩
  have hwords : Extends (tailFrom (wordTails (.ofDepth n)) 0) Q [] rest Q :=
    .stop fun e he ↦ ⟨rejects_wordTails hend (Nat.zero_le _) e, he⟩
  have hternary := yields_ternary_of_binary (.map h fun _ he ↦ hbinary.foldMany he)
    (hend.mono (Nat.zero_le _))
  exact .map hternary fun _ he ↦ hwords.foldMany he

namespace Reads

theorem of_expr (hrank : t.rank < conditionalRank) (h : ReadsExpr spell n t) :
    Reads spell n t where
  binary min more rest R hmin := by
    simp only [rankOfLevel] at hmin
    omega
  ternary rest hle := absurd hrank (Nat.not_lt.mpr hle)
  expr := h

theorem of_ternary (hrank : conditionalRank = t.rank) (h : ReadsTernary spell n t) :
    Reads spell n t where
  binary min more rest R hmin := by
    simp only [rankOfLevel] at hmin
    omega
  ternary := h
  expr min more rest R _ hend hext :=
    yields_expr_of_ternary (h _ (Nat.le_of_eq hrank) (hend.mono (Nat.min_le_right _ _))) hext

theorem of_binary (hrank : conditionalRank < t.rank) (h : ReadsBinary spell n t) :
    Reads spell n t := by
  have hternary : ReadsTernary spell n t := by
    intro rest _ hend
    have hzero : Ends (rankOfLevel 0) rest := hend.mono (by decide)
    have hstop := h 0 [] rest t.Is (by unfold rankOfLevel; omega)
      (hend.mono (Nat.le_trans (Nat.le_of_lt hrank) t.rank_le_endRank))
      (.stop fun a ha ↦ ⟨rejects_tails hzero a, ha⟩)
    rw [List.append_nil] at hstop
    exact yields_ternary_of_binary hstop hend
  refine ⟨h, hternary, fun min more rest R _ hend hext ↦ ?_⟩
  exact yields_expr_of_ternary
    (hternary _ (Nat.le_of_lt hrank) (hend.mono (Nat.min_le_right _ _))) hext

theorem whole (h : Reads spell n t) (hend : Ends 0 rest) :
    Yields (exprFrom (.ofDepth n) 0) (t.text spell) rest t.Is := by
  have hstop := h.expr 0 [] rest t.Is (Nat.zero_le _) (hend.mono (Nat.zero_le _))
    (.stop fun a ha ↦ ⟨rejects_wordTails hend (Nat.zero_le _) a, ha⟩)
  rwa [List.append_nil] at hstop

variable (hread : ∀ n, (t.text spell).length ≤ n → Reads spell n t)

include hread

theorem yields_fenced (hlen : (t.text spell).length + 2 ≤ n) (h : Ends k rest) :
    Yields (operand (.ofDepth n)) ('(' :: (t.text spell ++ [')'])) rest t.Is := by
  cases n with
  | zero => omega
  | succ n =>
    exact yields_parentheses (starts_text spell t) ((hread n (by omega)).whole .parenthesis)
      (fun _ _ hk he ↦ he.congr hk) h

theorem yields_fenced_ternary (hlen : (t.text spell).length + 2 ≤ n)
    (h : Ends conditionalRank rest) :
    Yields (Grammar.ternary (.ofDepth n)) ('(' :: (t.text spell ++ [')'])) rest t.Is := by
  have hzero : Ends (rankOfLevel 0) rest := h.mono (by decide)
  have hstop : Extends (tailFrom (tails (.ofDepth n)) 0) t.Is [] rest t.Is :=
    .stop fun a ha ↦ ⟨rejects_tails hzero a, ha⟩
  exact yields_ternary_of_binary (.map (yields_fenced hread hlen h) fun _ he ↦
    hstop.foldMany he) h

variable (hlen : (fence required t.rank (t.text spell)).length ≤ n)

include hlen

theorem yields_binary (hmin : rankOfLevel min ≤ required)
    (hk : required ≤ t.rank → k ≤ t.endRank) (h : Ends k (more ++ rest))
    (hext : Extends (tailFrom (tails (.ofDepth n)) min) t.Is more rest R) :
    Yields (binaryFrom (.ofDepth n) min) (fence required t.rank (t.text spell) ++ more) rest R := by
  rcases Nat.lt_or_ge t.rank required with hlt | hge
  · rw [length_fence_of_lt hlt] at hlen
    rw [fence_of_lt hlt]
    exact .bind (yields_fenced hread hlen h) fun _ he ↦ hext.foldMany he
  · rw [fence_of_le hge] at hlen ⊢
    exact (hread n hlen).binary min more rest R (Nat.le_trans hmin hge) (h.mono (hk hge)) hext

theorem yields_binary_whole (hrequired : required = rankOfLevel min) (h : Ends required rest) :
    Yields (binaryFrom (.ofDepth n) min) (fence required t.rank (t.text spell)) rest t.Is := by
  have hstop : Extends (tailFrom (tails (.ofDepth n)) min) t.Is [] rest t.Is :=
    .stop fun a ha ↦ ⟨rejects_tails (hrequired ▸ h) a, ha⟩
  rw [← List.append_nil (fence required t.rank (t.text spell))]
  exact yields_binary hread hlen (Nat.le_of_eq hrequired.symm)
    (fun hge ↦ Nat.le_trans hge t.rank_le_endRank) h hstop

theorem yields_ternary (hrequired : conditionalRank ≤ required) (h : Ends conditionalRank rest) :
    Yields (Grammar.ternary (.ofDepth n)) (fence required t.rank (t.text spell)) rest t.Is := by
  rcases Nat.lt_or_ge t.rank required with hlt | hge
  · rw [length_fence_of_lt hlt] at hlen
    rw [fence_of_lt hlt]
    exact yields_fenced_ternary hread hlen h
  · rw [fence_of_le hge] at hlen ⊢
    exact (hread n hlen).ternary rest (Nat.le_trans hrequired hge) h

theorem yields_expr (hmin : min ≤ required) (hk : required ≤ t.rank → k ≤ t.endRank)
    (hle : k ≤ conditionalRank) (h : Ends k (more ++ rest))
    (hext : Extends (tailFrom (wordTails (.ofDepth n)) min) t.Is more rest R) :
    Yields (exprFrom (.ofDepth n) min) (fence required t.rank (t.text spell) ++ more) rest R := by
  rcases Nat.lt_or_ge t.rank required with hlt | hge
  · rw [length_fence_of_lt hlt] at hlen
    rw [fence_of_lt hlt]
    exact yields_expr_of_ternary (yields_fenced_ternary hread hlen (h.mono hle)) hext
  · rw [fence_of_le hge] at hlen ⊢
    exact (hread n hlen).expr min more rest R (Nat.le_trans hmin hge)
      (h.mono (Nat.le_min.mpr ⟨hk hge, hle⟩)) hext

end Reads

theorem reads_variable {name : String} (hname : isWordText name.toList = true) :
    Reads spell n («variable» name) := by
  have hrank : conditionalRank < rankOfLevel (Level.step + 1) := by decide
  refine .of_binary hrank fun min more rest R _ hend hext ↦ ?_
  exact .bind (yields_variable hname hend) fun _ he ↦ hext.foldMany he

section

variable {condition consequent alternative operand left right : OpTree}

theorem reads_instanceOf {full : Bool} {className : List String}
    (hpath : isPathOfWords className = true) (hplain : startsPlain full className = true)
    (hread : ∀ n, (operand.text spell).length ≤ n → Reads spell n operand)
    (hlen : ((instanceOf operand full className).text spell).length ≤ n) :
    Reads spell n (instanceOf operand full className) := by
  have hrank : conditionalRank < rankOfLevel Level.instanceOf := by decide
  refine .of_binary hrank fun min more rest R hmin hend hext ↦ ?_
  rw [text, List.length_append] at hlen
  have hmin : rankOfLevel min ≤ rankOfLevel Level.instanceOf := hmin
  have hstep (e : Expr) (he : operand.Is e) :
      Yields (tailFrom (tails (.ofDepth n)) min e)
        (" instanceof ".toList ++ pathText full className) (more ++ rest)
        (instanceOf operand full className).Is :=
    yields_instanceOf (Nat.le_of_add_le_add_right hmin) hpath hplain hend.endsName
      fun span _ ↦ ⟨e, span, rfl, he⟩
  rw [text, List.append_assoc]
  exact Reads.yields_binary hread (by omega) hmin lt_endRank_of_instanceOf
    (.operator "instanceof" (by decide) (Nat.le_refl _)) (.next (by simp) hstep hext)

theorem reads_shortTernary
    (hreadc : ∀ n, (condition.text spell).length ≤ n → Reads spell n condition)
    (hreada : ∀ n, (alternative.text spell).length ≤ n → Reads spell n alternative)
    (hlen : ((shortTernary condition alternative).text spell).length ≤ n) :
    Reads spell n (shortTernary condition alternative) := by
  refine .of_ternary rfl fun rest _ hend ↦ ?_
  simp only [text, List.length_append] at hlen
  cases n with
  | zero => simp at hlen
  | succ n =>
    refine .bind (Reads.yields_binary_whole hreadc (by omega) rank_zero ?_) fun c hc ↦ ?_
    · exact .operator "?:" (by decide) (Nat.le_refl _)
    · have halternative := Reads.yields_ternary hreada (n := n) (by simp at hlen; omega)
        (Nat.le_refl _) hend
      have htail := yields_shortTernaryTail (n := n + 1) (c := c) solid_fence halternative
        fun a ha ↦ show (shortTernary condition alternative).Is _ from ⟨c, a, rfl, hc, ha⟩
      refine .map (.optional htail) fun o ho ↦ ?_
      obtain ⟨e, rfl, he⟩ := ho
      exact .pure he

theorem reads_ternary
    (hreadc : ∀ n, (condition.text spell).length ≤ n → Reads spell n condition)
    (hreadm : ∀ n, (consequent.text spell).length ≤ n → Reads spell n consequent)
    (hreada : ∀ n, (alternative.text spell).length ≤ n → Reads spell n alternative)
    (hlen : ((ternary condition consequent alternative).text spell).length ≤ n) :
    Reads spell n (ternary condition consequent alternative) := by
  refine .of_ternary rfl fun rest _ hend ↦ ?_
  simp only [text, List.length_append] at hlen
  cases n with
  | zero => simp at hlen
  | succ n =>
    refine .bind (Reads.yields_binary_whole hreadc (by omega) rank_zero ?_) fun c hc ↦ ?_
    · exact .operator "?" (by decide) (Nat.le_refl _)
    · have hcolon : Ends 0 (" : ".toList ++ fence conditionalRank alternative.rank
          (alternative.text spell) ++ rest) := .colon
      have hconsequent := (hreadm n (by simp at hlen; omega)).whole hcolon
      have halternative := Reads.yields_ternary hreada (n := n) (by simp at hlen; omega)
        (Nat.le_refl _) hend
      have htail := yields_ternaryTail (g := .ofDepth (n + 1)) (c := c) (solid_text consequent)
        solid_fence hconsequent halternative fun m a hm ha ↦
          show (ternary condition consequent alternative).Is _ from ⟨c, m, a, rfl, hc, hm, ha⟩
      refine .map (.optional htail) fun o ho ↦ ?_
      obtain ⟨e, rfl, he⟩ := ho
      exact .pure he

theorem reads_sign {s : Sign}
    (hread : ∀ n, (operand.text spell).length ≤ n → Reads spell n operand)
    (hlen : ((sign s operand).text spell).length ≤ n) : Reads spell n (sign s operand) := by
  have hrank : conditionalRank < rankOfLevel s.level := by cases s <;> decide
  refine .of_binary hrank fun min more rest R _ hend hext ↦ ?_
  simp only [text, List.length_cons] at hlen
  cases n with
  | zero => simp at hlen
  | succ n =>
    have hoperand : Yields ((Rules.ofDepth (n + 1)).binary (s.level + 1))
        (fence (rankOfLevel (s.level + 1)) operand.rank (operand.text spell)) (more ++ rest)
        operand.Is :=
      Reads.yields_binary_whole hread (n := n) (by omega) rfl hend
    have hstarts := starts_fence (rankOfLevel (s.level + 1)) operand.rank (by decide)
      fun _ ↦ starts_text spell operand
    refine .bind (yields_sign hstarts (fun hs ↦ ?_) hoperand fun o e ho he ↦ ⟨o, he, ho⟩) fun _ he ↦
      hext.foldMany he
    rw [hs]
    exact starts_fence _ _ (by decide) starts_text_of_sign

variable (hreadl : ∀ n, (left.text spell).length ≤ n → Reads spell n left)
  (hreadr : ∀ n, (right.text spell).length ≤ n → Reads spell n right)

include hreadl hreadr

theorem reads_word {o : WordOperator} (ho : o ∈ wordOperators) (hfixity : o.op.fixity = o.fixity)
    (hspell : spell o.op ∈ o.op.fixity.spellings)
    (hlen : ((binary o.op left right).text spell).length ≤ n) :
    Reads spell n (binary o.op left right) := by
  have hlevel : ∀ o ∈ wordOperators, o.level < conditionalRank := by decide
  have hrank : (binary o.op left right).rank = o.level := by rw [rank, hfixity]; rfl
  refine .of_expr (hrank ▸ hlevel o ho) fun min more rest R hmin hend hext ↦ ?_
  have hword : spell o.op = o.word := by
    rw [hfixity] at hspell
    exact List.mem_singleton.mp hspell
  have hloose : o.level + 1 ≤ conditionalRank := hlevel o ho
  have hf : .operator o.word o.level ∈ followers := wordOperator_mem_followers ho
  rw [hrank] at hmin
  rw [endRank, hfixity] at hend
  simp only [text, List.length_append] at hlen
  rw [hfixity] at hlen
  cases n with
  | zero => simp at hlen
  | succ n =>
    have hend : Ends (o.level + 1) (more ++ rest) := hend.mono (Nat.min_le_left _ _)
    have hright : Yields ((Rules.ofDepth (n + 1)).expr (o.level + 1))
        (fence o.fixity.right right.rank (right.text spell)) (more ++ rest) right.Is := by
      have hstop : Extends (tailFrom (wordTails (.ofDepth n)) (o.level + 1)) right.Is []
          (more ++ rest) right.Is :=
        .stop fun a ha ↦ ⟨rejects_wordTails hend hloose a, ha⟩
      rw [← List.append_nil (fence o.fixity.right right.rank (right.text spell))]
      exact Reads.yields_expr hreadr (by simp at hlen; omega) (Nat.le_refl _)
        (fun hge ↦ Nat.le_trans hge right.rank_le_endRank) hloose hend hstop
    have hstep (e : Expr) (he : left.Is e) :=
      yields_wordOperator (R := (binary o.op left right).Is) ho (e := e) hmin solid_fence hright
        fun r hr ↦ ⟨e, r, rfl, he, hr⟩
    rw [text, hfixity, hword, List.append_assoc]
    refine Reads.yields_expr hreadl (by omega) (k := o.level + 1) hmin ?_ hloose ?_
      (.next (by simp) hstep hext)
    · intro h
      rw [← hfixity] at h
      have hlt := lt_endRank_of_left h
      rwa [hfixity] at hlt
    · rw [List.append_assoc, List.append_assoc]
      exact .operator _ hf (Nat.le_refl _)

theorem reads_symbol {o : InfixOperator} (ho : o ∈ symbolOperators)
    (hfixity : o.op.fixity = o.fixity) (hspell : spell o.op ∈ o.op.fixity.spellings)
    (hlen : ((binary o.op left right).text spell).length ≤ n) :
    Reads spell n (binary o.op left right) := by
  have hrank : (binary o.op left right).rank = rankOfLevel o.level := by rw [rank, hfixity]; rfl
  have hloose : conditionalRank < rankOfLevel o.level := Nat.lt_add_left _ (Nat.lt_succ_self _)
  refine .of_binary (hrank ▸ hloose) fun min more rest R hmin hend hext ↦ ?_
  have hleft : ∀ o ∈ symbolOperators, o.level ≤ o.leftLevel := by decide
  rw [hrank] at hmin
  have hmin : min ≤ o.level := Nat.le_of_add_le_add_right hmin
  rw [endRank, hfixity] at hend
  simp only [text, List.length_append] at hlen
  rw [hfixity] at hspell hlen
  cases n with
  | zero => simp at hlen
  | succ n =>
    have hright : Yields ((Rules.ofDepth (n + 1)).binary o.rightLevel)
        (fence o.fixity.right right.rank (right.text spell)) (more ++ rest) right.Is :=
      Reads.yields_binary_whole hreadr (n := n) (by simp at hlen; omega) rfl hend
    have hstep (e : Expr) (he : left.Is e) :=
      yields_infix (R := (binary o.op left right).Is) ho hspell (e := e) hmin solid_fence hright
        fun r hr ↦ ⟨e, r, rfl, he, hr⟩
    rw [text, hfixity, List.append_assoc]
    refine Reads.yields_binary hreadl (by omega) (k := rankOfLevel o.level + 1) ?_ ?_ ?_
      (.next (by simp) hstep hext)
    · exact Nat.add_le_add_right (Nat.le_trans hmin (hleft o ho)) _
    · intro h
      rw [← hfixity] at h
      have hlt := lt_endRank_of_left h
      rwa [hfixity] at hlt
    · rw [List.append_assoc, List.append_assoc]
      exact .operator _ (symbolOperator_mem_followers ho hspell) (Nat.le_refl _)

end

end

theorem reads (hspell : ∀ op, spell op ∈ op.fixity.spellings) (hvalid : t.isValid = true) :
    ∀ n, (t.text spell).length ≤ n → Reads spell n t := by
  induction t with
  | «variable» name => exact fun n _ ↦ reads_variable hvalid
  | binary op left right ihl ihr =>
    rw [isValid, Bool.and_eq_true] at hvalid
    intro n hlen
    rcases op.fixity_eq with ⟨o, ho, rfl, hfixity⟩ | ⟨o, ho, rfl, hfixity⟩
    · exact reads_word (ihl hvalid.1) (ihr hvalid.2) ho hfixity (hspell _) hlen
    · exact reads_symbol (ihl hvalid.1) (ihr hvalid.2) ho hfixity (hspell _) hlen
  | ternary condition consequent alternative ihc ihm iha =>
    simp only [isValid, Bool.and_eq_true] at hvalid
    exact fun n hlen ↦ reads_ternary (ihc hvalid.1.1) (ihm hvalid.1.2) (iha hvalid.2) hlen
  | shortTernary condition alternative ihc iha =>
    rw [isValid, Bool.and_eq_true] at hvalid
    exact fun n hlen ↦ reads_shortTernary (ihc hvalid.1) (iha hvalid.2) hlen
  | instanceOf operand full className ih =>
    simp only [isValid, Bool.and_eq_true] at hvalid
    exact fun n hlen ↦ reads_instanceOf hvalid.1.2 hvalid.2 (ih hvalid.1.1) hlen
  | sign s operand ih => exact fun n hlen ↦ reads_sign (ih hvalid) hlen

theorem statementKind_of_rejects {g : Rules} {heads cs : List Char} {C : Parser StmtKind → Prop}
    (hheads : heads.all (fun x ↦ !wordStart.contains x && x ∉ ['\x7b', ';']) = true)
    (h : Heads heads cs) (hC : ∀ p q, Rejects p cs → C q → C (p <|> q))
    (hlast : C (expressionStatement g)) : C (statementKind g) := by
  have hword : heads.all (!wordStart.contains ·) = true := List.all_eq_true.mpr fun x hx ↦
    (Bool.and_eq_true_iff.mp (List.all_eq_true.mp hheads x hx)).1
  have hsign {s : String} {c : Char} (hs : s.toList = [c]) (hc : c ∈ ['\x7b', ';']) :
      Rejects (literal s) cs := by
    refine .literal_head hs fun x hx he ↦ ?_
    have hnot := (Bool.and_eq_true_iff.mp (List.all_eq_true.mp hheads x (h x hx))).2
    exact of_decide_eq_true hnot (he ▸ hc)
  have hkeyword (s : String) : Rejects (keyword s) cs := h.rejects_keyword hword
  have hmodifiers : Yields (modifiersOf classModifier) [] cs fun _ ↦ True := by
    have hnone : Rejects (do let m ← classModifier; trivia; return m) cs := by
      refine .bind (.firstOf fun p hp ↦ ?_)
      simp only [List.mem_cons, List.not_mem_nil, or_false] at hp
      rcases hp with rfl | rfl | rfl <;> exact .bind (hkeyword _)
    exact .map (Repeats.stop (Q := fun _ ↦ True) hnone trivial).many fun _ _ ↦ .pure trivial
  have hclass : Rejects (classLike g) cs :=
    .orElse (.bind_nil hmodifiers fun _ _ ↦ .bind (hkeyword _))
      (.orElse (.bind (hkeyword _)) (.bind (hkeyword _)))
  refine hC _ _ (.orElse (.bind (hkeyword _)) (.bind (hkeyword _))) ?_
  refine hC _ _ (.bind (hkeyword _)) ?_
  refine hC _ _ (.bind hclass) ?_
  refine hC _ _ (.bind (.bind (hkeyword _))) ?_
  iterate 15 refine hC _ _ (.bind (hkeyword _)) ?_
  refine hC _ _ (.bind (.bind (hsign rfl (by decide)))) ?_
  exact hC _ _ (.bind (hsign rfl (by decide))) hlast

theorem rejects_statement {cs : List Char} (h : Heads barrenHeads cs) (n : Nat) :
    Rejects (Rules.ofDepth n).statement cs := by
  cases n with
  | zero => exact .fail
  | succ n =>
    have hexpr : Rejects (expressionStatement (.ofDepth n)) cs :=
      .bind (rejects_rules h (n + 1) 0).1
    exact .bind_nil .position fun _ _ ↦ .bind (statementKind_of_rejects (C := (Rejects · cs))
      (by decide) h (fun _ _ hp hq ↦ hp.orElse hq) hexpr)

def IsOnly (Q : Expr → Prop) (ss : List Stmt) : Prop :=
  ∃ e span, ss = [⟨.expression e, span⟩] ∧ Q e

section

def expressionHeads : List Char := '<' :: startHeads

variable {n : Nat} {cs : List Char} {Q : Expr → Prop} (hstarts : Starts expressionHeads cs)
  (h : Yields (exprFrom (.ofDepth n) 0) cs [';'] Q)

include hstarts h

theorem yields_statements :
    Yields (statements (.ofDepth (n + 1))) (' ' :: (cs ++ [';'])) [] (IsOnly Q) := by
  have hexpr : Yields (expressionStatement (.ofDepth n)) (cs ++ [';']) []
      fun kind ↦ ∃ e, kind = .expression e ∧ Q e := by
    refine .bind h fun e he ↦ .bind_nil (accepts_trivia_nil ?_) fun _ _ ↦ ?_
    · exact (heads_cons (List.mem_singleton_self ';')).solid (by decide)
    · exact .map (.orElse (.literal ";")) fun _ _ ↦ .pure ⟨e, rfl, he⟩
  have hstart : Heads expressionHeads (cs ++ [';'] ++ []) := ((hstarts.append _).append _).heads
  have hkind := statementKind_of_rejects (C := fun p ↦ Yields p _ [] _) (by decide) hstart
    (fun _ _ hp hq ↦ .orElse_of_rejects hp hq) hexpr
  have hstatement : Yields (do trivia; (Rules.ofDepth (n + 1)).statement)
      (' ' :: (cs ++ [';'])) [] fun s ↦ IsOnly Q [s] := by
    refine .bind_head (accepts_trivia_blank (hstart.solid (by decide))) fun _ _ ↦ ?_
    refine .bind_nil .position fun start _ ↦ ?_
    refine .map hkind fun kind hk ↦ ?_
    obtain ⟨e, rfl, he⟩ := hk
    exact .bind_nil .position fun stop _ ↦ .pure ⟨e, _, rfl, he⟩
  have hnone : Rejects (do trivia; (Rules.ofDepth (n + 1)).statement) [] :=
    .bind_nil (accepts_trivia_nil (solid_of_head nofun)) fun _ _ ↦ rejects_statement heads_nil _
  refine Repeats.many ?_
  rw [← List.append_nil (' ' :: (cs ++ [';']))]
  exact .next (List.cons_ne_nil _ _) hstatement fun s hs ↦ .stop hnone hs

theorem yields_file :
    Yields (file (.ofDepth (n + 1))) ("<?php ".toList ++ (cs ++ [';'])) [] (IsOnly Q) := by
  have hskip : Accepts trivia [] ("<?php ".toList ++ (cs ++ [';']) ++ []) :=
    accepts_trivia_nil ((heads_cons (List.mem_singleton_self '<')).solid (by decide))
  have hend : Accepts trivia [] [] := accepts_trivia_nil (solid_of_head nofun)
  have hblank : Heads [' '] (' ' :: (cs ++ [';']) ++ []) :=
    heads_cons (List.mem_singleton_self _)
  refine .bind_nil (.optional_none (.literal_head rfl ?_)) fun _ _ ↦ .bind_nil hskip fun _ _ ↦ ?_
  · rintro x ⟨⟩
    decide
  have htext : "<?php ".toList ++ (cs ++ [';']) = "<?php".toList ++ ' ' :: (cs ++ [';']) := rfl
  rw [htext]
  refine .bind (.literal "<?php") fun _ _ ↦ ?_
  refine .bind_nil (.notAhead (.orElse (hblank.rejects_oneOf (by decide))
    (hblank.rejects_oneOf (by decide)))) fun _ _ ↦ ?_
  refine .map (yields_statements hstarts h) fun ss hss ↦ ?_
  refine .bind_nil hend fun _ _ ↦ ?_
  refine .bind_nil (.optional_none (.bind (.literal_head rfl nofun))) fun _ _ ↦ ?_
  exact .bind_nil (.notAhead (.oneOf nofun)) fun _ _ ↦ .pure hss

end

theorem parseFile_of_yields_expr {cs : List Char} {Q : Expr → Prop}
    (hstarts : Starts expressionHeads cs)
    (h : ∀ n, cs.length ≤ n → Yields (exprFrom (.ofDepth n) 0) cs [';'] Q) :
    ∃ e span, parseFile ("<?php ".toList ++ (cs ++ [';'])) = .ok [⟨.expression e, span⟩] ∧ Q e := by
  have hread := h ("<?php ".toList ++ (cs ++ [';'])).length
    (by simp only [List.length_append]; omega)
  obtain ⟨ss, f, hm, e, span, rfl, he⟩ := yields_file hstarts hread 0
  refine ⟨e, span, ?_, he⟩
  rw [List.append_nil] at hm
  unfold parseFile Rules.forText
  rw [hm]
  rfl

theorem parseFile_of_yields {cs : List Char} {Q : Expr → Prop} (hstarts : Starts startHeads cs)
    (h : ∀ n, cs.length ≤ n → Yields (exprFrom (.ofDepth n) 0) cs [';'] Q) :
    ∃ e span, parseFile ("<?php ".toList ++ (cs ++ [';'])) = .ok [⟨.expression e, span⟩] ∧ Q e := by
  obtain ⟨x, xs, hcs, hx⟩ := hstarts
  exact parseFile_of_yields_expr ⟨x, xs, hcs, List.mem_cons_of_mem _ hx⟩ h

/-- A statement that is the text of a tree is read as this tree. -/
theorem parse_text (t : OpTree) (spell : BinaryOp → String)
    (hspell : ∀ op, spell op ∈ op.fixity.spellings) (hvalid : t.isValid = true) :
    ∃ e span, parseFile ("<?php ".toList ++ (t.text spell ++ [';'])) =
      .ok [⟨.expression e, span⟩] ∧ t.Is e := by
  have hread (n : Nat) (hn : (t.text spell).length ≤ n) := reads hspell hvalid n hn
  exact parseFile_of_yields (starts_text spell t) fun n hn ↦ (hread n hn).whole .semicolon

def mixed : OpTree :=
  .binary .logicalAnd
    (.ternary (.binary .coalesce (.binary .coalesce (.variable "a") (.variable "b"))
      (.sign .minus (.binary .pow (.variable "c") (.variable "d"))))
      (.binary .logicalOr (.variable "e") (.sign .not (.sign .plus (.variable "f"))))
      (.shortTernary (.variable "g") (.variable "h")))
    (.binary .notEqual (.instanceOf (.variable "i") true ["New", "Foo"])
      (.binary .less (.variable "j") (.variable "k")))

theorem parse_text_mixed :
    ∃ e span, parseFile ("<?php ($a ?? $b) ?? -$c ** $d ? $e or !+$f : $g ?: $h and " ++
      "$i instanceof \\New\\Foo != $j < $k;").toList = .ok [⟨.expression e, span⟩] ∧
      mixed.Is e := by
  have h := parse_text mixed BinaryOp.spelling BinaryOp.spelling_mem (by decide)
  exact h

theorem parse_text_reserved_segment :
    isPathOfWords ["New", "Foo"] = true ∧ isReserved "New\\Foo" = false ∧
      (instanceOf (.variable "a") false ["New", "Foo"]).text BinaryOp.spelling =
        "$a instanceof New\\Foo".toList ∧
      ∀ ss, parseFile "<?php $a instanceof New\\Foo;".toList ≠ .ok ss := by
  have hfails : (parseFile "<?php $a instanceof New\\Foo;".toList).toOption.isNone = true := by
    decide +kernel
  refine ⟨by decide +kernel, by decide +kernel, by decide +kernel, fun ss h ↦ ?_⟩
  rw [h] at hfails
  cases hfails

end OpTree

end PhpInsight

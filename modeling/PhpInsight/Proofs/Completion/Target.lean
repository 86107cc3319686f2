import PhpInsight.Completion.Provider
import PhpInsight.Grammar.Target
import PhpInsight.Proofs.Span.Family

namespace PhpInsight.Grammar

open Peg Peg.Parser Text Completion

variable {source : List Char} {g : Rules}

def HoldsReceiver (t : Expr) : Prop :=
  ∀ r, instanceReceiver? t = some r → t.span.start ≤ r.span.start

structure IsTarget (t : Expr) : Prop where
  holdsReceiver : HoldsReceiver t
  spelled : (Node.expr t).Spelled

theorem isTarget_of_formed {e : Expr} (h : (Node.expr e).Formed source) : IsTarget e := by
  refine ⟨fun r hr ↦ ?_, h.spelled⟩
  have hmem : Node.expr r ∈ (Node.expr e).children := by
    unfold instanceReceiver? at hr
    split at hr
    · rename_i hkind
      obtain rfl := Option.some.inj hr
      simp [Node.children, hkind, ExprKind.children]
    · cases hr
  exact (h.children_laid.mem hmem).1

theorem lays_targetHead (hg : g.Sound source) : Lays source (targetHead g) fun e ↦ [.expr e] :=
  (lays_primary hg).orElse (lays_constExpr lays_name)

theorem unfinishedMember_leads {lo : Nat} (e : Expr) :
    Leads source (Laid source lo · [.expr e]) (unfinishedMember e) fun t n ↦
      Laid source lo n [.expr e] ∧ t.span.start = e.span.start ∧ IsTarget t := by
  have hspelled {t : Expr} {m : Node} (ht : (Node.expr t).children = [m]) (hm : m.Spelled) :
      (Node.expr t).Spelled := .of_children trivial (ht ▸ List.forall_mem_singleton.mpr hm)
  refine .orElse ?_ (.orElse ?_ ?_)
  · refine .bind takes_memberOperator.reads.laid fun nullsafe ↦ .stop fun n _ h ↦ ⟨h, rfl, ?_⟩
    refine ⟨?_, hspelled rfl h.head.spelled⟩
    rintro r ⟨⟩
    exact Nat.le_refl _
  · refine .bind (reads_literal (by decide)).laid fun _ ↦ ?_
    refine .bind reads_position.laid fun start ↦ ?_
    refine .bind (reads_literal (by decide)).laid fun _ ↦ ?_
    refine .stop fun n _ h ↦ ⟨h, rfl, ?_⟩
    exact ⟨nofun, hspelled rfl (laid_classRefOf h).head.spelled⟩
  · refine .bind (reads_literal (by decide)).laid fun _ ↦ .stop fun n _ h ↦ ⟨h, rfl, ?_⟩
    exact ⟨nofun, hspelled rfl (laid_classRefOf h).head.spelled⟩

/-- The target starts between two characters of the chain. -/
theorem target_leads (hg : g.Sound source) (lo : Nat) :
    Leads source (Laid source lo · []) (target g) fun t _ ↦
      (lo ≤ t.span.start ∧ Boundary source t.span.start) ∧ IsTarget t := by
  have hstart {e : Expr} {n : Nat} (h : Laid source lo n [.expr e]) :
      lo ≤ e.span.start ∧ Boundary source e.span.start :=
    ⟨(h.mem List.mem_cons_self).1, h.head.start⟩
  refine .bind reads_trivia.laid fun _ ↦ ?_
  refine .bind (lays_targetHead hg lo) fun head ↦ ?_
  refine .bind (grows_suffixes hg).laid fun finished ↦ ?_
  have hmember := reads_trivia.laid.bind fun _ ↦ @unfinishedMember_leads source lo finished
  refine .bind hmember.optional fun unfinished ↦ ?_
  cases unfinished with
  | none =>
    refine .bind reads_trivia.laid fun _ ↦ ?_
    exact .bind (.notAhead _) fun _ ↦ .pure _ fun n _ h ↦ ⟨hstart h, isTarget_of_formed h.head⟩
  | some t =>
    intro c a next f hc ⟨hlaid, hsame, ht⟩ hm
    have hrest : Leads source (Laid source lo · [.expr finished])
        (do trivia; endOfText; return (some t).getD finished) fun t _ ↦
          (lo ≤ t.span.start ∧ Boundary source t.span.start) ∧ IsTarget t := by
      refine .bind reads_trivia.laid fun _ ↦ ?_
      exact .bind (.notAhead _) fun _ ↦ .pure _ fun _ _ h ↦ ⟨hsame ▸ hstart h, ht⟩
    exact hrest c a next f hc hlaid hm

theorem settled_blanks (n : Nat) (cs : List Char) : Settled (List.replicate n ' ' ++ cs) n := by
  cases n with
  | zero => exact settled_zero _
  | succ n =>
    have h : Settled (List.replicate n ' ' ++ ' ' :: cs)
        (byteLength (List.replicate n ' ') + ' '.utf8Size) := settled_behind (by decide)
    have hsize : ' '.utf8Size = 1 := by decide
    rw [byteLength_replicate, hsize, Nat.mul_one] at h
    simpa [List.replicate_succ'] using h

theorem chain_suffix {depth : Nat} {before chain result : List Char}
    (h : chainBefore depth before chain = some result) : result <:+ before.reverse ++ chain := by
  fun_induction chainBefore depth before chain with
  | case1 chain => exact Option.some_inj.mp h ▸ List.suffix_refl _
  | case2 => cases h
  | case3 d c before chain depth ih => simpa using ih h
  | case4 before chain ih => simpa using ih h
  | case5 before chain _ ih => simpa using ih h
  | case6 before chain ih => simpa using ih h
  | case7 c before chain _ _ _ _ ih => simpa using ih h
  | case8 c before chain _ _ _ _ _ ih => simpa using ih h
  | case9 c before chain _ _ _ _ _ _ ih => simpa using ih h
  | case10 c before chain => exact Option.some_inj.mp h ▸ List.suffix_append _ _

theorem completionTarget_eq_some {cursor : Nat} {t : Expr}
    (h : completionTarget source cursor = some t) :
    (∃ head typed after, source = head ++ typed ++ after ∧ byteLength head = t.span.start ∧
      byteLength (head ++ typed) = cursor) ∧ IsTarget t := by
  unfold completionTarget at h
  obtain ⟨before, hbefore, h⟩ := Option.bind_eq_some_iff.mp h
  obtain ⟨chain, hchain, h⟩ := Option.bind_eq_some_iff.mp h
  obtain ⟨_, _, hvalue⟩ := Option.bind_eq_some_iff.mp h
  -- Blanks can stand for what precedes the chain, since it is not read.
  have hin : Cursor.In (List.replicate (cursor - byteLength chain) ' ' ++ chain)
      ⟨chain, cursor - byteLength chain⟩ := ⟨_, rfl, by simp [Char.utf8Size]⟩
  cases hm : target (.forText chain) ⟨chain, cursor - byteLength chain⟩ with
  | failed f =>
    rw [hm] at hvalue
    cases hvalue
  | matched a next f =>
    rw [hm] at hvalue
    cases hvalue
    obtain ⟨-, ⟨hle, front, more, hsplit, hfront⟩, htarget⟩ :=
      target_leads (Rules.sound_ofDepth _ _) _ _ _ _ _ hin
        (.nil hin.boundary (Nat.le_refl _) (settled_blanks _ chain)) hm
    refine ⟨?_, htarget⟩
    obtain ⟨rest, hrest, rfl⟩ := Option.map_eq_some_iff.mp hbefore
    obtain ⟨hsource, hcursor⟩ := takeBytes_of_dropBytes? hrest
    obtain ⟨pre, hpre⟩ := chain_suffix hchain
    rw [List.reverse_reverse, List.append_nil] at hpre
    obtain ⟨part, hpart, hstart⟩ := split_behind_blanks hsplit (hfront ▸ hle)
    rw [← hpre, byteLength_append] at hcursor
    refine ⟨pre ++ part, more, rest, ?_, ?_, ?_⟩
    · rw [← hsource, ← hpre, hpart]
      simp only [List.append_assoc]
    · rw [← hfront, hstart, byteLength_append]
      omega
    · rw [List.append_assoc, ← hpart, byteLength_append, hcursor]

end PhpInsight.Grammar

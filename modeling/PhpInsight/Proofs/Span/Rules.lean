import PhpInsight.Grammar.Rules
import PhpInsight.Proofs.Span.Words

namespace PhpInsight.Grammar

open Peg Peg.Parser Text Node

structure Rules.Sound (source : List Char) (g : Rules) : Prop where
  statement : Lays source g.statement fun s ↦ [.stmt s]
  expr (n : Nat) : Lays source (g.expr n) fun e ↦ [.expr e]
  ternary : Lays source g.ternary fun e ↦ [.expr e]
  binary (n : Nat) : Lays source (g.binary n) fun e ↦ [.expr e]

theorem Rules.sound_empty (source : List Char) : Rules.empty.Sound source :=
  ⟨fun _ ↦ .fail, fun _ _ ↦ .fail, fun _ ↦ .fail, fun _ _ ↦ .fail⟩

variable {source : List Char} {g : Rules}

theorem lays_anyExpr (hg : g.Sound source) : Lays source (anyExpr g) fun e ↦ [.expr e] := hg.expr 0

theorem lays_statements (hg : g.Sound source) : Lays source (statements g) ofStmts :=
  (lays_manyAfter hg.statement).congr fun _ ↦ List.map_eq_flatMap.symm

theorem covers_block (hg : g.Sound source) : Covers source (block g) ofStmts := by
  intro lo
  refine .bind (takes_literal (by decide)).within fun _ ↦ ?_
  refine .bind (lays_statements hg).within fun _ ↦ .gap ?_
  refine .bind (reads_literal (by decide)).within fun _ ↦ ?_
  exact .pure _ fun _ _ h ↦ h

theorem reads_byReference : Reads source byReference :=
  .bind (reads_optionalBefore (reads_literal (by decide))) fun _ ↦ .pure _

theorem laid_simpleTypeOf {n : Name} {lo hi : Nat} (h : Laid source lo hi [.name n]) :
    Laid source lo hi [.type (.simple (simpleTypeOf n))] := by
  have hn := h.mem List.mem_cons_self
  have hformed := h.head
  have hwritten : (simpleTypeOf n).Written := written_simpleTypeOf hformed.written
  suffices hown : Laid source n.span.start n.span.stop [.type (.simple (simpleTypeOf n))] from
    hown.outer h.start hn.1 hn.2.2 h.settled
  unfold simpleTypeOf at hwritten ⊢
  split at hwritten
  · rw [if_pos ‹_›]
    have hempty := Laid.nil hformed.start (Nat.le_of_lt hn.2.1) hformed.settled
    exact hempty.enclose hn.2.1 rfl rfl hformed.stop nofun hwritten
  · rw [if_neg ‹_›]
    have hown : Laid source n.span.start n.span.stop [.name n] :=
      .single hformed.start (Nat.le_refl _) hformed (Nat.le_refl _) hformed.settled
    refine hown.enclose hn.2.1 rfl rfl hformed.stop ?_ hwritten
    simp [rank, kind, NodeKind.rank]

theorem lays_simpleType : Lays source simpleType fun t ↦ [.type (.simple t)] := by
  intro lo
  refine (lays_name lo).bind fun _ ↦ ?_
  exact .pure _ fun _ _ h ↦ laid_simpleTypeOf h

theorem lays_typeHint : Lays source typeHint fun t ↦ [.type t] := by
  refine .orElse (.spanned fun start ↦ ?_) (.spanned fun start ↦ ?_)
  · refine .opening (takes_literal (by decide)) ?_
    refine .bind lays_simpleType.within fun inner ↦ ?_
    refine .stop fun n hn h ↦ ?_
    exact h.laid rfl rfl hn h.head.written
  · have hmore : Lays source (do literal "|"; notAhead (literal "|"); trivia; simpleType)
        fun t ↦ [.type (.simple t)] := by
      intro lo
      refine .bind (reads_literal (by decide)).laid fun _ ↦ ?_
      exact Lays.token (.notAhead _) lays_simpleType lo
    refine .bind lays_simpleType.laid fun first ↦ ?_
    refine .bind (lays_manyAfter hmore).laid fun others ↦ ?_
    refine .stop fun n hn h ↦ ?_
    cases others with
    | nil => exact h
    | cons second others =>
      have htypes : Within source start n
          ((first :: second :: others).map fun t ↦ .type (.simple t)) :=
        Laid.within_of_two (by simpa [List.map_eq_flatMap] using h)
      have hwritten : ∀ t ∈ first :: second :: others, t.Written := fun t ht ↦
        (htypes.formed _ (List.mem_map_of_mem ht)).written
      exact htypes.laid rfl rfl hn ⟨by simp, hwritten⟩

theorem lays_returnType : Lays source returnType ofType? := by
  have htype : Lays source (do literal ":"; trivia; typeHint) fun t ↦ [.type t] :=
    .token (reads_literal (by decide)) lays_typeHint
  exact (lays_optionalAfter htype).congr fun _ ↦ List.map_eq_flatMap.symm

theorem reads_modifiersOf {p : Parser Modifier} (h : Reads source p) :
    Reads source (modifiersOf p) := by
  have hbefore : Reads source (do let m ← p; trivia; return m) :=
    .bind h fun _ ↦ .bind reads_trivia fun _ ↦ .pure _
  exact .bind hbefore.many fun _ ↦ .pure _

theorem reads_modifier : Reads source modifier := by
  refine .firstOf fun p hp ↦ ?_
  simp only [List.mem_cons, List.not_mem_nil, or_false] at hp
  rcases hp with rfl | rfl | rfl | rfl | rfl | rfl | rfl | rfl
  all_goals exact .bind (takes_keyword _).reads fun _ ↦ .pure _

theorem reads_modifiers : Reads source modifiers := reads_modifiersOf reads_modifier

theorem lays_defaultValue (hg : g.Sound source) :
    Lays source (defaultValue g) fun o ↦ ofExprs o.toList := by
  have hvalue : Lays source (do literal "="; trivia; anyExpr g) fun e ↦ [.expr e] :=
    .token (reads_literal (by decide)) (lays_anyExpr hg)
  exact (lays_optionalAfter hvalue).congr fun _ ↦ List.map_eq_flatMap.symm

theorem variableName_within {lo : Nat} {ns : List Node} :
    Leads source (Laid source lo · ns) variableName fun _ n ↦
      Within source lo n ns ∧ Dollar source ⟨lo, n⟩ :=
  variableName_leads.imp (fun _ h ↦ h) fun _ _ ⟨_, hm, hlt, hd, hsettled⟩ ↦
    ⟨hm.within hlt hsettled, hd.mono hm.le (Nat.le_refl _)⟩

theorem lays_param (hg : g.Sound source) : Lays source (param g) fun p ↦ [.param p] := by
  refine .spanned fun start ↦ ?_
  refine .bind reads_modifiers.laid fun mods ↦ ?_
  refine .bind (lays_optionalBefore lays_typeHint).laid fun hint ↦ ?_
  refine .bind reads_byReference.laid fun byRef ↦ ?_
  refine .bind (reads_optionalBefore (reads_literal (by decide))).laid fun variadic ↦ ?_
  refine .bind variableName_within fun name ↦ ?_
  refine .bind (lays_defaultValue hg).keepDollar fun value ↦ ?_
  refine .stop fun n hn h ↦ ?_
  refine h.1.laid rfl ?_ hn h.2
  simp [Node.children, Param.children, ofType?, List.map_eq_flatMap]

theorem covers_params (hg : g.Sound source) : Covers source (params g) ofParams :=
  covers_listed (lays_param hg)

end PhpInsight.Grammar

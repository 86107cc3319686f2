import PhpInsight.Grammar.File
import PhpInsight.Proofs.Span.Statement

namespace PhpInsight.Grammar

open Peg Peg.Parser Text Node

variable {source : List Char} {g : Rules}

theorem Rules.Sound.unfold (hg : g.Sound source) : g.unfold.Sound source :=
  ⟨lays_statement hg, lays_exprFrom hg, lays_ternary hg, lays_binaryFrom hg⟩

theorem Rules.sound_ofDepth (source : List Char) (n : Nat) : (Rules.ofDepth n).Sound source := by
  induction n with
  | zero => exact Rules.sound_empty source
  | succ n ih => exact ih.unfold

theorem lays_file (hg : g.Sound source) : Lays source (file g) ofStmts := by
  have hany (lo : Nat) : Leads source (lo ≤ ·) (skipMany (oneOf .any)) fun _ n ↦
      lo ≤ n ∧ Settled source n :=
    skipMany_leads (moves_oneOf _) (shrinks_oneOf _) (fun _ _ _ _ ↦ ⟨_, _, _, rfl⟩) lo
  have hrest : Reads source (do literal "?>"; skipMany (oneOf .any)) := by
    refine .bind (reads_literal (by decide)) fun _ lo ↦ ?_
    refine (hany lo).imp (fun _ h ↦ h.1) fun _ _ h ↦ ?_
    exact h
  intro lo
  refine .bind (reads_literal (by decide)).optional.laid fun _ ↦ ?_
  refine .bind reads_trivia.laid fun _ ↦ ?_
  refine .bind (reads_literal (by decide)).laid fun _ ↦ ?_
  refine .bind (.notAhead _) fun _ ↦ ?_
  refine .bind (lays_statements hg).laid fun _ ↦ ?_
  refine .bind reads_trivia.laid fun _ ↦ ?_
  refine .bind hrest.optional.laid fun _ ↦ ?_
  refine .bind (.notAhead _) fun _ ↦ ?_
  exact .pure _ fun _ _ h ↦ h

theorem documentAll_eq_map (text : List Char) (ss : List Stmt) :
    documentAll text ss = ss.map (document text) := by
  induction ss with
  | nil => rfl
  | cons s ss ih => rw [documentAll, ih, List.map_cons]

def documented (text : List Char) : Node → Node
  | .stmt s => .stmt (document text s)
  | .member m => .member (documentMember text m)
  | n => n

theorem span_documented (text : List Char) (n : Node) : (documented text n).span = n.span := by
  cases n with
  | stmt s =>
    simp only [documented, Node.span]
    unfold document
    split <;> rfl
  | _ => rfl

theorem rank_documented (text : List Char) (n : Node) : (documented text n).rank = n.rank := by
  cases n <;> rfl

/-- A node formed anew over other children that cover the same. -/
theorem formed_of_map {n n' : Node} (h : n.Formed source) {f : Node → Node}
    (hspan : n'.span = n.span) (hrank : n'.rank = n.rank) (hwritten : n'.WrittenIn source)
    (hchildren : n'.children = n.children.map f) (hfspan : ∀ m, (f m).span = m.span)
    (hfrank : ∀ m, (f m).rank = m.rank) (hf : ∀ m ∈ n.children, (f m).Formed source) :
    n'.Formed source := by
  have hlaid := h.children_laid
  have hspans : n'.children.map Node.span = n.children.map Node.span := by
    rw [hchildren, List.map_map]
    exact List.map_congr_left fun m _ ↦ hfspan m
  refine .intro (hspan ▸ h.start) (hspan ▸ h.stop) (hspan ▸ h.settled) (hspan ▸ h.nonempty) ?_ ?_
    hwritten ?_
  · rw [hspans, hspan]
    exact hlaid.tiled
  · intro m hm he
    rw [hchildren] at hm
    obtain ⟨k, hk, rfl⟩ := List.mem_map.mp hm
    rw [hfrank, hrank]
    exact h.ranked k hk (by rw [← hfspan, he, hspan])
  · intro m hm
    rw [hchildren] at hm
    obtain ⟨k, hk, rfl⟩ := List.mem_map.mp hm
    exact hf k hk

theorem formed_documented (text : List Char) (n : Node) (h : n.Formed source) :
    (documented text n).Formed source := by
  revert h
  refine Node.induction (motive := fun n ↦ n.Formed source → (documented text n).Formed source)
    (fun n ih h ↦ ?_) n
  have hbelow : ∀ m ∈ n.children, (documented text m).Formed source := fun m hm ↦
    ih m hm (h.children_laid.formed m hm)
  have hsame {n' : Node} (hspan : n'.span = n.span) (hrank : n'.rank = n.rank)
      (hwritten : n'.WrittenIn source) (hchildren : n'.children = n.children) : n'.Formed source :=
    formed_of_map (f := id) h hspan hrank hwritten (by simpa using hchildren) (fun _ ↦ rfl)
      (fun _ ↦ rfl) fun m hm ↦ h.children_laid.formed m hm
  have hnew {n' : Node} (hspan : n'.span = n.span) (hrank : n'.rank = n.rank)
      (hwritten : n'.WrittenIn source)
      (hchildren : n'.children = n.children.map (documented text)) : n'.Formed source :=
    formed_of_map h hspan hrank hwritten hchildren (span_documented text) (rank_documented text)
      hbelow
  cases n with
  | stmt s =>
    simp only [documented]
    unfold document
    split
    · refine hnew rfl rfl trivial ?_
      simp only [Node.children, StmtKind.children, documentClass, ofNames, List.map_append,
        List.map_map]
      rfl
    · exact hsame rfl rfl trivial rfl
    · refine hnew rfl rfl trivial ?_
      simp [Node.children, StmtKind.children, ofStmts, documentAll_eq_map, documented]
    · refine hnew rfl rfl trivial ?_
      simp [Node.children, StmtKind.children, ofStmts, documentAll_eq_map, documented]
    · exact h
  | member m => exact hsame rfl rfl trivial rfl
  | _ => exact h

theorem laid_documentAll (text : List Char) {lo hi : Nat} {ss : List Stmt}
    (h : Laid source lo hi (ofStmts ss)) :
    Laid source lo hi (ofStmts (documentAll text ss)) := by
  have hnodes : ofStmts (documentAll text ss) = (ofStmts ss).map (documented text) := by
    simp [documentAll_eq_map, ofStmts, documented]
  rw [hnodes]
  refine ⟨h.start, h.settled, ?_, ?_⟩
  · have hspan : span ∘ documented text = span := funext (span_documented text)
    rw [List.map_map, hspan]
    exact h.tiled
  · intro n hn
    obtain ⟨m, hm, rfl⟩ := List.mem_map.mp hn
    exact formed_documented text m (h.formed m hm)

theorem laid_of_parseFile {ss : List Stmt} (h : parseFile source = .ok ss) :
    ∃ hi, hi ≤ byteLength source ∧ Laid source 0 hi (ofStmts ss) := by
  unfold parseFile at h
  split at h
  · rename_i ss' next f hm
    cases h
    have hstart : Cursor.In source ⟨source, 0⟩ := ⟨[], rfl, rfl⟩
    obtain ⟨hnext, hlaid⟩ := lays_file (Rules.sound_ofDepth source _) 0 _ _ _ _ hstart
      (.nil hstart.boundary (Nat.le_refl _) (settled_zero source)) hm
    exact ⟨next.offset, hnext.boundary.le, laid_documentAll source hlaid⟩
  · cases h

end PhpInsight.Grammar

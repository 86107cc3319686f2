import PhpInsight.Proofs.SideBySide.Identifiers
import PhpInsight.Proofs.SideBySide.Moved
import PhpInsight.Proofs.Span.Family

namespace PhpInsight

open Peg Peg.Parser Text

namespace Grammar

section

variable {L : Likeness} {text text' : List Char}

mutual

theorem like_document (hdoc : ∀ o o', L.doc o o') : ∀ (s s' : Stmt), s.Like L s' →
    (document text s).Like L (document text' s')
  | ⟨k, _⟩, ⟨k', _⟩, .mk hkind span => by
    have h := Stmt.Like.mk hkind span
    unfold document
    cases hkind with
    | classLike decl =>
      cases decl with
      | mk name parents interfaces members =>
        refine .mk (.classLike (.mk name parents interfaces ?_ (hdoc _ _))) span
        refine List.rel_map (fun _ _ h ↦ ?_) members
        cases h with
        | mk kind span => exact .mk kind span (hdoc _ _)
    | function decl =>
      cases decl with
      | mk name params returnType body =>
        exact .mk (.function (.mk name params returnType body (hdoc _ _))) span
    | «namespace» name body =>
      cases body with
      | none => exact h
      | some body => exact .mk (.namespace name (.some (like_documentAll hdoc _ _ body))) span
    | block body => exact .mk (.block (like_documentAll hdoc _ _ body)) span
    | _ => exact h

theorem like_documentAll (hdoc : ∀ o o', L.doc o o') : ∀ (ss ss' : List Stmt),
    List.Forall₂ (Stmt.Like L) ss ss' →
    List.Forall₂ (Stmt.Like L) (documentAll text ss) (documentAll text' ss')
  | [], [], _ => .nil
  | s :: ss, s' :: ss', .cons hs hss => by
    rw [documentAll, documentAll]
    exact .cons (like_document hdoc s s' hs) (like_documentAll hdoc ss ss' hss)

end

end

/-- Every name and every identifier stands in the text, at its span. -/
def quoting (source : List Char) : Likeness where
  position _ _ := True
  text _ _ := True
  written _ _ := True
  quotes text s := slice? s.start s.stop source = some text
  doc _ _ := True
  text_refl _ := trivial
  written_of_text h := h
  doc_none := trivial

theorem slice?_append (before text behind : List Char) :
    slice? (byteLength before) (byteLength before + byteLength text) (before ++ (text ++ behind)) =
      some text := by
  rw [slice?, if_pos (Nat.le_add_right _ _), dropBytes?_append, Option.bind_some,
    Nat.add_sub_cancel_left, headBytes?, dropBytes?_append, Option.map_some,
    Consumes.takeBytes_byteLength]

theorem moved_quoting (source : List Char) :
    Moved (quoting source) ⟨source, 0⟩ ⟨source, 0⟩ where
  rest := rfl
  position _ _ _ := trivial
  quotes before text behind hsplit := by
    obtain rfl : source = before ++ (text ++ behind) := hsplit
    rw [quoting, Nat.zero_add]
    exact slice?_append before text behind

theorem like_parseFile {source : List Char} {ss : List Stmt} (h : parseFile source = .ok ss) :
    List.Forall₂ (Stmt.Like (quoting source)) ss ss := by
  unfold parseFile at h
  have hagree := steady_file (d := []) (quoting source) (Nat.le_refl _) (Nat.le_refl _) ⟨source, 0⟩
    ⟨source, 0⟩ ⟨moved_quoting source, trivial⟩ (Nat.lt_succ_self _)
  cases hm : file (.forText source) ⟨source, 0⟩ with
  | failed f =>
    rw [hm] at h
    cases h
  | matched a next f =>
    rw [hm] at h
    cases h
    obtain ⟨hlike, -⟩ := hagree.both_matched hm hm
    exact like_documentAll (fun _ _ ↦ trivial) a a hlike

/-- The names and identifiers of every node are quoted by their spans, those of variables and
properties with the sign in front of them. -/
theorem spans_quote {source : List Char} {ss : List Stmt} (h : parseFile source = .ok ss) :
    ∀ n ∈ Stmt.nodes ss,
      (∀ m ∈ n.names, slice? m.span.start m.span.stop source = some m.display.toList) ∧
      (∀ i ∈ n.identifiers, slice? i.span.start i.span.stop source = some i.name.toList) ∧
      ∀ i ∈ n.variableNames,
        slice? i.span.start i.span.stop source = some ('$' :: i.name.toList) := by
  intro n hn
  have hlike : n.Like (quoting source) n :=
    List.forall₂_same.mp (Stmt.nodes_like (like_parseFile h)) n hn
  refine ⟨fun m hm ↦ ?_, fun i hi ↦ ?_, fun i hi ↦ ?_⟩
  · exact (List.forall₂_same.mp hlike.names m hm).quotes
  · exact (List.forall₂_same.mp hlike.identifiers i hi).quotes
  · exact (List.forall₂_same.mp hlike.variableNames i hi).quotes

theorem spans_quote_staticCall :
    ∃ ss n k l, parseFile "<?php A\\é::m(ö: $y::$ü);".toList = .ok ss ∧
      n ∈ Stmt.nodes ss ∧ k ∈ Stmt.nodes ss ∧ l ∈ Stmt.nodes ss ∧
      n.identifiers = [⟨"m", ⟨12, 13⟩⟩, ⟨"ö", ⟨14, 16⟩⟩] ∧ k.names.map Name.display = ["A\\é"] ∧
      l.variableNames = [⟨"ü", ⟨22, 25⟩⟩] ∧
      (∀ i ∈ n.identifiers, slice? i.span.start i.span.stop
        "<?php A\\é::m(ö: $y::$ü);".toList = some i.name.toList) ∧
      (∀ m ∈ k.names, slice? m.span.start m.span.stop
        "<?php A\\é::m(ö: $y::$ü);".toList = some m.display.toList) ∧
      ∀ i ∈ l.variableNames, slice? i.span.start i.span.stop
        "<?php A\\é::m(ö: $y::$ü);".toList = some ('$' :: i.name.toList) := by
  have hread : (parseFile "<?php A\\é::m(ö: $y::$ü);".toList).toOption.map (fun ss ↦
      (Node.ofStmts ss).flatMap fun s ↦ s.children.map fun n ↦ (n.identifiers,
        n.children.map fun k ↦ (k.names.map Name.display, k.variableNames))) =
      some [([⟨"m", ⟨12, 13⟩⟩, ⟨"ö", ⟨14, 16⟩⟩],
        [(["A\\é"], []), ([], [⟨"ü", ⟨22, 25⟩⟩])])] := by
    decide +kernel
  cases hp : parseFile "<?php A\\é::m(ö: $y::$ü);".toList with
  | error e =>
    rw [hp] at hread
    cases hread
  | ok ss =>
    rw [hp] at hread
    obtain ⟨s, hs, hmem⟩ := List.mem_flatMap.mp (Option.some.inj hread ▸ List.mem_cons_self)
    obtain ⟨n, hn, hnames⟩ := List.mem_map.mp hmem
    obtain ⟨hnames, hbelow⟩ := Prod.mk.inj hnames
    obtain ⟨k, hk, hkeq⟩ := List.mem_map.mp (hbelow ▸ List.mem_cons_self)
    obtain ⟨l, hl, hleq⟩ := List.mem_map.mp (hbelow ▸ List.mem_cons_of_mem _ List.mem_cons_self)
    have hn' : n ∈ Stmt.nodes ss := List.mem_flatMap.mpr ⟨s, hs, Node.mem_walk_of_mem_children hn⟩
    have hchild : ∀ m ∈ n.children, m ∈ Stmt.nodes ss := fun m hm ↦ List.mem_flatMap.mpr
      ⟨s, hs, Node.mem_walk_trans (Node.mem_walk_of_mem_children hn)
        (Node.mem_walk_of_mem_children hm)⟩
    exact ⟨ss, n, k, l, rfl, hn', hchild k hk, hchild l hl, hnames, (Prod.mk.inj hkeq).1,
      (Prod.mk.inj hleq).2, (spans_quote hp n hn').2.1, (spans_quote hp k (hchild k hk)).1,
      (spans_quote hp l (hchild l hl)).2.2⟩

end Grammar

end PhpInsight

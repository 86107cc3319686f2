import PhpInsight.Proofs.Span.Family

namespace PhpInsight

variable {source : List Char}

/-- Where a node has what any node below it has, nothing is lost below a node that does not have
it. -/
theorem Node.filter_walkWhere {p : Node → Bool} {n : Node}
    (h : ∀ m ∈ n.walk, ∀ k ∈ m.walk, p k = true → p m = true) :
    (n.walkWhere p).filter p = n.walk.filter p := by
  revert h
  refine Node.induction (motive := fun n ↦ (∀ m ∈ n.walk, ∀ k ∈ m.walk, p k = true → p m = true) →
    (n.walkWhere p).filter p = n.walk.filter p) (fun n ih h ↦ ?_) n
  by_cases hn : p n = true
  · rw [walkWhere_eq, walk_eq, if_pos hn, List.filter_cons_of_pos hn, List.filter_cons_of_pos hn,
      List.filter_flatMap, List.filter_flatMap]
    exact congrArg _ (List.flatMap_congr fun m hm ↦
      ih m hm fun k hk ↦ h k (mem_walk.mpr (.inr ⟨m, hm, hk⟩)))
  · have hnone : n.walk.filter p = [] := by
      rw [List.filter_eq_nil_iff]
      exact fun m hm hpm ↦ hn (h n (mem_walk.mpr (.inl rfl)) m hm hpm)
    rw [walkWhere_eq, if_neg hn, List.filter_cons_of_neg hn, List.filter_nil, hnone]

theorem Node.Formed.touches_of_mem_walk {n m : Node} (h : n.Formed source) (hm : m ∈ n.walk)
    {offset : Nat} (ht : m.span.touches offset = true) : n.span.touches offset = true := by
  have hinside := h.encloses_of_mem_walk m hm
  rw [Span.touches_iff] at ht ⊢
  omega

namespace Document

def Shortest (ns : List Node) : Option Expr → Prop
  | none => ∀ e, .expr e ∉ ns
  | some e => .expr e ∈ ns ∧ ∀ e', .expr e' ∈ ns → e.span.length ≤ e'.span.length

theorem Shortest.closestExpr {ns : List Node} {best : Option Expr} (h : Shortest ns best)
    (n : Node) : Shortest (ns ++ [n]) (closestExpr best n) := by
  cases n with
  | expr e =>
    cases best with
    | none =>
      refine ⟨by simp, fun e' he' ↦ ?_⟩
      rcases List.mem_append.mp he' with he' | he'
      · exact absurd he' (h e')
      · cases List.mem_singleton.mp he'
        exact Nat.le_refl _
    | some b =>
      obtain ⟨hb, hmin⟩ := h
      unfold Document.closestExpr
      simp only
      split
      · rename_i hle
        refine ⟨by simp, fun e' he' ↦ ?_⟩
        rcases List.mem_append.mp he' with he' | he'
        · exact Nat.le_trans hle (hmin e' he')
        · cases List.mem_singleton.mp he'
          exact Nat.le_refl _
      · rename_i hlt
        refine ⟨List.mem_append_left _ hb, fun e' he' ↦ ?_⟩
        rcases List.mem_append.mp he' with he' | he'
        · exact hmin e' he'
        · cases List.mem_singleton.mp he'
          omega
  | _ =>
    cases best with
    | none => simpa [Shortest, Document.closestExpr] using h
    | some b => simpa [Shortest, Document.closestExpr] using h

theorem Shortest.foldl {seen ns : List Node} {best : Option Expr} (h : Shortest seen best) :
    Shortest (seen ++ ns) (ns.foldl Document.closestExpr best) := by
  induction ns generalizing seen best with
  | nil => simpa using h
  | cons n ns ih => simpa using ih (h.closestExpr n)

variable {id : Nat} {uri : String} {version : Int} {d : Document}

theorem shortest_exprAt (h : parse id uri source version = .ok d) (offset : Nat) :
    Shortest (d.nodes.filter fun n ↦ n.span.touches offset) (d.exprAt offset) := by
  obtain ⟨hi, _, hlaid⟩ := laid_of_parse h
  have htouched : (Stmt.walkWhere (fun n ↦ n.span.touches offset) d.statements).filter
      (fun n ↦ n.span.touches offset) = d.nodes.filter fun n ↦ n.span.touches offset := by
    rw [Stmt.walkWhere, Document.nodes, Stmt.nodes, List.filter_flatMap, List.filter_flatMap]
    refine List.flatMap_congr fun n hn ↦ ?_
    refine Node.filter_walkWhere fun m hm k hk hkt ↦ ?_
    exact ((hlaid.formed n hn).of_mem_walk m hm).touches_of_mem_walk hk hkt
  have hnone : Shortest [] none := fun _ ↦ List.not_mem_nil
  rw [exprAt, htouched]
  exact hnone.foldl

/-- An expression of a document that an offset touches, no longer than any other one, and with no
other one inside it. -/
structure Innermost (d : Document) (offset : Nat) (e : Expr) : Prop where
  mem : .expr e ∈ d.nodes
  touches : e.span.touches offset = true
  shortest (e' : Expr) : .expr e' ∈ d.nodes → e'.span.touches offset = true →
    e.span.length ≤ e'.span.length
  alone (i j : Nat) (e' : Expr) : d.nodes[i]? = some (.expr e) → d.nodes[j]? = some (.expr e') →
    e'.span.touches offset = true → e.span.encloses e'.span = true → j = i

theorem index_eq_of_parse (h : parse id uri source version = .ok d) {i j : Nat} {m n : Node}
    (hm : d.nodes[i]? = some m) (hn : d.nodes[j]? = some n) (hkind : n.kind = m.kind)
    (hspan : n.span = m.span) : j = i := by
  have hkeys : (d.nodes.map fun n ↦ (n.kind, n.span))[j]? =
      (d.nodes.map fun n ↦ (n.kind, n.span))[i]? := by
    rw [List.getElem?_map, List.getElem?_map, hm, hn, Option.map_some, Option.map_some, hkind,
      hspan]
  obtain ⟨hj, _⟩ := List.getElem?_eq_some_iff.mp hn
  exact (List.getElem?_inj (by simpa using hj) (spread_nodes h).keyed).mp hkeys

/-- A shortest one has no room for another. -/
theorem innermost_of_shortest (h : parse id uri source version = .ok d) {offset : Nat} {e : Expr}
    (he : Shortest (d.nodes.filter fun n ↦ n.span.touches offset) (some e)) :
    d.Innermost offset e := by
  obtain ⟨hmem, hmin⟩ := he
  obtain ⟨hmem, htouches⟩ := List.mem_filter.mp hmem
  refine ⟨hmem, htouches, fun e' he' ht' ↦ hmin e' (List.mem_filter.mpr ⟨he', ht'⟩), ?_⟩
  intro i j e' hi hj ht' hinside
  have he' : Node.expr e' ∈ d.nodes := List.mem_of_getElem? hj
  have hle := hmin e' (List.mem_filter.mpr ⟨he', ht'⟩)
  have hpos : e'.span.start < e'.span.stop := (spread_nodes h).nonempty _ he'
  rw [Span.encloses_iff] at hinside
  simp only [Span.length] at hle
  have hstart : e'.span.start = e.span.start := by omega
  have hstop : e'.span.stop = e.span.stop := by omega
  exact index_eq_of_parse h hi hj rfl (congrArg₂ Span.mk hstart hstop)

/-- What lies below a node that the offset does not touch is not touched either, so leaving it out
loses nothing. The shortest of the expressions that are touched has no other one inside it. -/
theorem exprAt_innermost (h : parse id uri source version = .ok d) (offset : Nat) :
    (d.exprAt offset = none ↔ ∀ e, .expr e ∈ d.nodes → e.span.touches offset = false) ∧
      ∀ e, d.exprAt offset = some e → d.Innermost offset e := by
  have hshortest := shortest_exprAt h offset
  cases hfound : d.exprAt offset with
  | none =>
    rw [hfound] at hshortest
    refine ⟨iff_of_true rfl fun e he ↦ ?_, nofun⟩
    exact Bool.eq_false_iff.mpr fun ht ↦ hshortest e (List.mem_filter.mpr ⟨he, ht⟩)
  | some e =>
    rw [hfound] at hshortest
    have hinnermost := innermost_of_shortest h hshortest
    refine ⟨iff_of_false nofun fun hnone ↦ ?_, ?_⟩
    · exact absurd hinnermost.touches (by simp [hnone e hinnermost.mem])
    · rintro _ ⟨⟩
      exact hinnermost

def negated : List Char := "<?php f($a+-$b[1]);".toList

theorem exprAt_innermost_negated :
    ∃ d e, parse 0 "negated.php" negated 0 = .ok d ∧ d.exprAt 11 = some e ∧ e.span = ⟨11, 17⟩ ∧
      d.Innermost 11 e ∧ d.exprAt 3 = none ∧
        ∀ e, .expr e ∈ d.nodes → e.span.touches 3 = false := by
  have hspans : (parse 0 "negated.php" negated 0).toOption.map (fun d ↦
      ((d.exprAt 11).map Expr.span, (d.exprAt 3).map Expr.span)) = some (some ⟨11, 17⟩, none) := by
    decide +kernel
  obtain ⟨d, hd, hspans⟩ := Option.map_eq_some_iff.mp hspans
  obtain ⟨hsign, htag⟩ := Prod.mk.inj hspans
  obtain ⟨e, he, hspan⟩ := Option.map_eq_some_iff.mp hsign
  have hparse := parse_of_toOption hd
  have htag := Option.map_eq_none_iff.mp htag
  exact ⟨d, e, hparse, he, hspan, (exprAt_innermost hparse 11).2 e he, htag,
    (exprAt_innermost hparse 3).1.mp htag⟩

end Document

end PhpInsight

import Mathlib.Data.List.Perm.Subperm
import PhpInsight.Proofs.Span.Family
import PhpInsight.Proofs.Types.Source

namespace PhpInsight

namespace Node

variable {n m : Node} {name : String}

def boundName? : Node → Option String
  | .expr ⟨.assign target _ _, _⟩ => target.variableName?
  | .param p => some p.name.name
  | _ => none

theorem binds_iff : n.binds name = true ↔ n.boundName? = some name := by
  unfold binds boundName?
  split <;> simp

/-- The nodes of the value that a binding gives its variable, if only by default. -/
def valueNodes : Node → List Node
  | .expr ⟨.assign _ value _, _⟩ => (Node.expr value).walk
  | .param p => (ofExprs p.default.toList).flatMap walk
  | _ => []

theorem mem_walk_of_mem_valueNodes (hm : m ∈ n.valueNodes) : m ∈ n.walk := by
  unfold valueNodes at hm
  split at hm
  · rename_i target value byRef span
    refine mem_walk.mpr (.inr ⟨.expr value, ?_, hm⟩)
    simp [children, ExprKind.children, ofExprs]
  · obtain ⟨k, hk, hm⟩ := List.mem_flatMap.mp hm
    exact mem_walk.mpr (.inr ⟨k, List.mem_append_right _ hk, hm⟩)
  · cases hm

theorem walk_variable {e : Expr} (he : e.variableName? = some name) :
    (Node.expr e).walk = [.expr e] := by
  obtain ⟨kind, span⟩ := e
  cases kind with
  | «variable» => rw [walk_eq]; rfl
  | _ => cases he

theorem binds_variable {e : Expr} {name' : String} (he : e.variableName? = some name) :
    (Node.expr e).binds name' = false := by
  obtain ⟨kind, span⟩ := e
  cases kind with
  | «variable» => rfl
  | _ => cases he

end Node

namespace Document

variable {id : Nat} {uri : String} {source : List Char} {version : Int} {d : Document}
  {e e' : Expr} {b : Node} {hops : List (Expr × Node)}

def bindings (d : Document) : List Node := d.nodes.filter fun n ↦ n.boundName?.isSome

/-- A node is the binding that is chosen for a variable other than the object itself. -/
def Chosen (d : Document) (e : Expr) (b : Node) : Prop :=
  ∃ name, e.variableName? = some name ∧ name ≠ "this" ∧ d.bindingOf name e.span = some b

/-- Where a node binds a variable, neither is below the other: what goes around the variable is not
chosen, and nothing is below a variable. So they are apart, and the one that ends first comes
first. -/
theorem Chosen.earlier (h : parse id uri source version = .ok d) (he : .expr e ∈ d.nodes)
    (hb : d.Chosen e b) : b ∈ d.bindings ∧ b.span.stop ≤ e.span.start := by
  obtain ⟨name, hname, -, hb⟩ := hb
  obtain ⟨hb, -⟩ := Node.lastReaching_eq_some hb
  obtain ⟨hmem, hb⟩ := List.mem_filter.mp hb
  simp only [Bool.and_eq_true, decide_eq_true_eq, Bool.not_eq_true'] at hb
  obtain ⟨⟨hbinds, hstop⟩, hapart⟩ := hb
  have hspread := spread_nodes h
  have hbelow : Node.expr e ∉ b.walk := by
    intro hm
    have hinside := (formed_of_mem_nodes h b hmem).encloses_of_mem_walk _ hm
    rw [Bool.eq_false_iff, ne_eq, Span.encloses_iff] at hapart
    exact hapart hinside
  have habove : b ∉ (Node.expr e).walk := by
    rw [Node.walk_variable hname, List.mem_singleton]
    rintro rfl
    rw [Node.binds_variable hname] at hbinds
    cases hbinds
  refine ⟨List.mem_filter.mpr ⟨hmem, by simp [Node.binds_iff.mp hbinds]⟩, ?_⟩
  have hpos := hspread.nonempty b hmem
  rcases hspread.apart b hmem _ he habove hbelow with hbefore | hbehind
  · exact hbefore
  · have hstart : (Node.expr e).span.stop = e.span.stop := rfl
    omega

theorem Chosen.exprType (h : d.Chosen e b) (w : Workspace) (depth : Nat) :
    w.exprType (depth + 1) d e = w.boundType depth d (some b) := by
  obtain ⟨name, hname, hthis, hb⟩ := h
  rw [w.exprType_variable depth d hname hthis, hb]

/-- From a variable to the binding chosen for it, from there to a variable in the value that is
given, to the binding chosen for that one, and so on. -/
inductive WayBack (d : Document) : Expr → List (Expr × Node) → Prop
  | last {e : Expr} {b : Node} (hb : d.Chosen e b) : WayBack d e [(e, b)]
  | hop {e e' : Expr} {b : Node} {hops : List (Expr × Node)} (hb : d.Chosen e b)
      (he : .expr e' ∈ b.valueNodes) (h : WayBack d e' hops) : WayBack d e ((e, b) :: hops)

theorem Chosen.of_mem_valueNodes (h : parse id uri source version = .ok d)
    (he : .expr e ∈ d.nodes) (hb : d.Chosen e b) (he' : .expr e' ∈ b.valueNodes) :
    .expr e' ∈ d.nodes ∧ e'.span.start < e'.span.stop ∧ e'.span.stop ≤ b.span.stop := by
  have hmem : b ∈ d.nodes := (List.mem_filter.mp (hb.earlier h he).1).1
  have hwalk := Node.mem_walk_of_mem_valueNodes he'
  have hinside := (formed_of_mem_nodes h b hmem).encloses_of_mem_walk _ hwalk
  have hnode := mem_nodes_of_mem_walk hmem hwalk
  exact ⟨hnode, (spread_nodes h).nonempty _ hnode, hinside.2⟩

theorem WayBack.bounded (h : parse id uri source version = .ok d) (hw : d.WayBack e hops)
    (he : .expr e ∈ d.nodes) : ∀ hop ∈ hops, hop.2 ∈ d.bindings ∧
      hop.2.span.stop ≤ hop.1.span.start ∧ hop.1.span.start ≤ e.span.start := by
  induction hw with
  | last hb =>
    intro hop hmem
    cases List.mem_singleton.mp hmem
    obtain ⟨hbinding, hstop⟩ := hb.earlier h he
    exact ⟨hbinding, hstop, Nat.le_refl _⟩
  | hop hb he' _ ih =>
    intro hop hmem
    obtain ⟨hbinding, hstop⟩ := hb.earlier h he
    rcases List.mem_cons.mp hmem with rfl | hmem
    · exact ⟨hbinding, hstop, Nat.le_refl _⟩
    · obtain ⟨hnode, hpos, hinside⟩ := hb.of_mem_valueNodes h he he'
      obtain ⟨hbinding', hstop', hstart⟩ := ih hnode hop hmem
      exact ⟨hbinding', hstop', by omega⟩

theorem WayBack.descends (h : parse id uri source version = .ok d) (hw : d.WayBack e hops)
    (he : .expr e ∈ d.nodes) : hops.Pairwise fun hop hop' ↦
      hop'.1.span.start < hop.1.span.start ∧ hop'.2.span.stop < hop.2.span.stop := by
  induction hw with
  | last _ => exact List.pairwise_singleton _ _
  | hop hb he' hw ih =>
    obtain ⟨hnode, hpos, hinside⟩ := hb.of_mem_valueNodes h he he'
    obtain ⟨-, hstop⟩ := hb.earlier h he
    refine List.pairwise_cons.mpr ⟨fun hop hmem ↦ ?_, ih hnode⟩
    obtain ⟨-, hstop', hstart⟩ := hw.bounded h hnode hop hmem
    simp only
    omega

theorem WayBack.length_le (h : parse id uri source version = .ok d) (hw : d.WayBack e hops)
    (he : .expr e ∈ d.nodes) : hops.length ≤ d.bindings.length := by
  have hnodup : (hops.map fun hop ↦ hop.2.span.stop).Nodup :=
    List.pairwise_map.mpr ((hw.descends h he).imp fun hlt ↦ Nat.ne_of_gt hlt.2)
  have hsub : (hops.map fun hop ↦ hop.2.span.stop) ⊆ d.bindings.map fun b ↦ b.span.stop := by
    intro stop hstop
    obtain ⟨hop, hmem, rfl⟩ := List.mem_map.mp hstop
    exact List.mem_map_of_mem (f := fun b : Node ↦ b.span.stop) (hw.bounded h he hop hmem).1
  simpa using (hnodup.subperm hsub).length_le

/-- The binding chosen for a variable ends where the variable starts or before, so that the way back
over bindings and the variables in their values meets ever smaller positions, and no more bindings
than there are. -/
theorem bound_earlier (h : parse id uri source version = .ok d) (he : .expr e ∈ d.nodes) :
    (∀ b, d.Chosen e b → b ∈ d.bindings ∧ b.span.stop ≤ e.span.start ∧
      ∀ (w : Workspace) depth, w.exprType (depth + 1) d e = w.boundType depth d (some b)) ∧
    ∀ hops, d.WayBack e hops →
      (hops.Pairwise fun hop hop' ↦
        hop'.1.span.start < hop.1.span.start ∧ hop'.2.span.stop < hop.2.span.stop) ∧
      hops.length ≤ d.bindings.length := by
  refine ⟨fun b hb ↦ ?_, fun hops hw ↦ ⟨hw.descends h he, hw.length_le h he⟩⟩
  obtain ⟨hbinding, hstop⟩ := hb.earlier h he
  exact ⟨hbinding, hstop, hb.exprType⟩

def lastExpr? (ns : List Node) : Option Expr :=
  match ns.getLast? with
  | some (.expr e) => some e
  | _ => none

theorem mem_of_lastExpr? {ns : List Node} (h : lastExpr? ns = some e) : .expr e ∈ ns := by
  unfold lastExpr? at h
  split at h
  · cases h
    exact List.mem_of_getLast? ‹_›
  · cases h

/-- A variable at the end of a document, with the two bindings on the way back from it. -/
def retold : Option (Document × Expr × Node × Expr × Node) := do
  let d ← (parse 0 "b.php" "<?php $b=1;$b=($a=$b);$b;".toList 0).toOption
  let e ← lastExpr? d.nodes
  let b ← d.bindingOf "b" e.span
  let e' ← lastExpr? b.valueNodes
  return (d, e, b, e', ← d.bindingOf "b" e'.span)

theorem bound_earlier_retold :
    ∃ d e b e' b', parse 0 "b.php" "<?php $b=1;$b=($a=$b);$b;".toList 0 = .ok d ∧
      .expr e ∈ d.nodes ∧ d.WayBack e [(e, b), (e', b')] ∧ b.span = ⟨11, 21⟩ ∧
        b'.span = ⟨6, 10⟩ ∧ b.span.stop ≤ e.span.start ∧ e'.span.start < e.span.start ∧
          2 ≤ d.bindings.length := by
  have hfound : retold.map (fun (_, e, b, e', b') ↦
      (e.variableName?, e'.variableName?, b.span, b'.span)) =
        some (some "b", some "b", ⟨11, 21⟩, ⟨6, 10⟩) := by decide +kernel
  obtain ⟨⟨d, e, b, e', b'⟩, hretold, hfound⟩ := Option.map_eq_some_iff.mp hfound
  simp only [Prod.mk.injEq] at hfound
  obtain ⟨hname, hname', hspan, hspan'⟩ := hfound
  simp only [retold, Option.bind_eq_bind, Option.bind_eq_some_iff] at hretold
  obtain ⟨_, hparse, _, he, _, hb, _, he', _, hb', heq⟩ := hretold
  cases heq
  have hparse := parse_of_toOption hparse
  have hmem := mem_of_lastExpr? he
  have hchosen : d.Chosen e b := ⟨"b", hname, by decide, hb⟩
  have hway : d.WayBack e [(e, b), (e', b')] :=
    .hop hchosen (mem_of_lastExpr? he') (.last ⟨"b", hname', by decide, hb'⟩)
  obtain ⟨hbound, hhops⟩ := bound_earlier hparse hmem
  obtain ⟨hdescends, hlength⟩ := hhops _ hway
  exact ⟨d, e, b, e', b', hparse, hmem, hway, hspan, hspan', (hbound b hchosen).2.1,
    (List.rel_of_pairwise_cons hdescends (List.mem_singleton_self _)).1, hlength⟩

end Document

end PhpInsight

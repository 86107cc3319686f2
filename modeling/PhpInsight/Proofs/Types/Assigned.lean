import PhpInsight.Proofs.Span.Family
import PhpInsight.Proofs.Types.Source

namespace PhpInsight

namespace Document

variable {d : Document}

theorem mem_nodes_of_mem_children {n m : Node} (hn : n ∈ d.nodes) (hm : m ∈ n.children) :
    m ∈ d.nodes := mem_nodes_of_mem_walk hn (Node.mem_walk_of_mem_children hm)

theorem stmt_mem_nodes {s : Stmt} (hs : s ∈ d.statements) : .stmt s ∈ d.nodes :=
  List.mem_flatMap.mpr ⟨.stmt s, List.mem_map_of_mem hs, Node.mem_walk.mpr (.inl rfl)⟩

theorem mem_classesOf {space : Option Name} {body : List Stmt} {c : DeclaredClass}
    (hc : c ∈ classesOf space body) : ∃ s ∈ body, s.kind = .classLike c.decl := by
  obtain ⟨s, hs, hc⟩ := List.mem_filterMap.mp hc
  split at hc
  · cases hc
    exact ⟨s, hs, ‹_›⟩
  · cases hc

theorem mem_classesFrom {current : Option Name} {ss : List Stmt} {c : DeclaredClass}
    (hc : c ∈ classesFrom current ss) :
    ∃ s ∈ ss, s.kind = .classLike c.decl ∨
      ∃ space body, s.kind = .namespace space (some body) ∧
        ∃ s' ∈ body, s'.kind = .classLike c.decl := by
  induction ss generalizing current with
  | nil => cases hc
  | cons s ss ih =>
    unfold classesFrom at hc
    split at hc
    · obtain ⟨s', hs', h⟩ := ih hc
      exact ⟨s', List.mem_cons_of_mem _ hs', h⟩
    · rename_i space body hkind
      rcases List.mem_append.mp hc with hc | hc
      · exact ⟨s, List.mem_cons_self, .inr ⟨space, body, hkind, mem_classesOf hc⟩⟩
      · obtain ⟨s', hs', h⟩ := ih hc
        exact ⟨s', List.mem_cons_of_mem _ hs', h⟩
    · rename_i decl hkind
      rcases List.mem_cons.mp hc with rfl | hc
      · exact ⟨s, List.mem_cons_self, .inl hkind⟩
      · obtain ⟨s', hs', h⟩ := ih hc
        exact ⟨s', List.mem_cons_of_mem _ hs', h⟩
    · obtain ⟨s', hs', h⟩ := ih hc
      exact ⟨s', List.mem_cons_of_mem _ hs', h⟩

theorem exists_classLike {c : DeclaredClass} (hc : c ∈ d.classes) :
    ∃ s : Stmt, .stmt s ∈ d.nodes ∧ s.kind = .classLike c.decl := by
  obtain ⟨s, hs, hkind | ⟨space, body, hkind, s', hs', hkind'⟩⟩ := mem_classesFrom hc
  · exact ⟨s, stmt_mem_nodes hs, hkind⟩
  · refine ⟨s', mem_nodes_of_mem_children (stmt_mem_nodes hs) ?_, hkind'⟩
    rw [Node.children, hkind]
    exact List.mem_map_of_mem hs'

theorem body_mem_nodes {c : DeclaredClass} (hc : c ∈ d.classes) {m : MethodDecl}
    (hm : m ∈ c.decl.methods) {s : Stmt} (hs : s ∈ m.body.getD []) : .stmt s ∈ d.nodes := by
  obtain ⟨cs, hcs, hkind⟩ := exists_classLike hc
  obtain ⟨member, hmember, hmethod⟩ := List.mem_filterMap.mp hm
  have hmethod : member.kind = .method m := by
    split at hmethod
    · cases hmethod
      assumption
    · cases hmethod
  have hnode : Node.member member ∈ d.nodes := by
    refine mem_nodes_of_mem_children hcs ?_
    rw [Node.children, hkind]
    exact List.mem_append_right _ (List.mem_map_of_mem hmember)
  refine mem_nodes_of_mem_children hnode ?_
  rw [Node.children, hmethod]
  exact List.mem_append_right _ (List.mem_map_of_mem hs)

theorem assigned_mem_nodes {property : String} {s : Stmt} {value : Expr}
    (hs : .stmt s ∈ d.nodes) (h : s.assignedToThis? property = some value) :
    .expr value ∈ d.nodes := by
  unfold Stmt.assignedToThis? at h
  split at h
  · rename_i receiver name nullsafe inner value' byRef outer hkind
    split at h
    · cases h
      have hexpr : Node.expr ⟨.assign ⟨.propertyFetch receiver name nullsafe, inner⟩ value byRef,
          outer⟩ ∈ d.nodes := by
        refine mem_nodes_of_mem_children hs ?_
        rw [Node.children, hkind]
        exact List.mem_singleton_self _
      refine mem_nodes_of_mem_children hexpr ?_
      simp [Node.children, ExprKind.children, Node.ofExprs]
    · cases h
  · cases h

end Document

namespace Workspace

variable {d : Document}

/-- What the constructor that a document declares for a class assigns to a property. -/
def assigned? (owner : Document) (declaringClass property : String) : Option (Document × Expr) :=
  let found := owner.classes.find? fun k ↦ Text.sameIgnoringCase k.name declaringClass
  let body := (found.bind fun k ↦ k.decl.constructor?).bind MethodDecl.body
  (body.bind fun ss ↦ ss.findSome? (Stmt.assignedToThis? property)).map (owner, ·)

theorem assigned?_mem_nodes {declaringClass property : String} {v : Document × Expr}
    (h : assigned? d declaringClass property = some v) : v.1 = d ∧ .expr v.2 ∈ d.nodes := by
  obtain ⟨value, hvalue, rfl⟩ := Option.map_eq_some_iff.mp h
  obtain ⟨body, hbody, hvalue⟩ := Option.bind_eq_some_iff.mp hvalue
  obtain ⟨m, hm, hbody⟩ := Option.bind_eq_some_iff.mp hbody
  obtain ⟨k, hk, hm⟩ := Option.bind_eq_some_iff.mp hm
  obtain ⟨s, hs, hvalue⟩ := List.exists_of_findSome?_eq_some hvalue
  refine ⟨rfl, Document.assigned_mem_nodes (Document.body_mem_nodes (List.mem_of_find?_eq_some hk)
    (List.mem_of_find?_eq_some hm) ?_) hvalue⟩
  rw [hbody]
  exact hs

end Workspace

end PhpInsight

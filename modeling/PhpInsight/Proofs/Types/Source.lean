import PhpInsight.Inference.Infer

namespace PhpInsight

namespace Node

variable {ns : List Node}

theorem lastReaching_eq_none (h : lastReaching ns = none) : ns = [] := by
  cases ns with
  | nil => rfl
  | cons n ns =>
    unfold lastReaching at h
    split at h
    · split at h <;> cases h
    · cases h

theorem lastReaching_eq_some {m : Node} (h : lastReaching ns = some m) :
    m ∈ ns ∧ ∀ n ∈ ns, n.span.stop ≤ m.span.stop := by
  induction ns generalizing m with
  | nil => cases h
  | cons n ns ih =>
    cases hrest : lastReaching ns with
    | none =>
      obtain rfl := lastReaching_eq_none hrest
      obtain rfl : n = m := by simpa [lastReaching] using h
      simp
    | some k =>
      obtain ⟨hk, hmax⟩ := ih hrest
      simp only [lastReaching, hrest] at h
      split at h
      · rename_i hlt
        obtain rfl := Option.some.inj h
        refine ⟨List.mem_cons_self, fun n' hn' ↦ ?_⟩
        rcases List.mem_cons.mp hn' with rfl | hn'
        · exact Nat.le_refl _
        · exact Nat.le_trans (hmax n' hn') (Nat.le_of_lt hlt)
      · rename_i hle
        obtain rfl := Option.some.inj h
        refine ⟨List.mem_cons_of_mem _ hk, fun n' hn' ↦ ?_⟩
        rcases List.mem_cons.mp hn' with rfl | hn'
        · exact Nat.le_of_not_lt hle
        · exact hmax n' hn'

theorem lastReaching_le_iff {bound : Nat} :
    (∀ m, lastReaching ns = some m → m.span.stop ≤ bound) ↔ ∀ n ∈ ns, n.span.stop ≤ bound := by
  constructor
  · intro h n hn
    cases hlast : lastReaching ns with
    | none =>
      obtain rfl := lastReaching_eq_none hlast
      cases hn
    | some m => exact Nat.le_trans ((lastReaching_eq_some hlast).2 n hn) (h m hlast)
  · exact fun h m hm ↦ h m (lastReaching_eq_some hm).1

end Node

/-- A type that is known at once, or the type of another expression. -/
inductive TypeSource
  | known (type : InferredType)
  | expr (d : Document) (e : Expr)

inductive MemberUse
  | method (name : String)
  | property (name : String)

def ExprKind.memberUse? : ExprKind → Option (Expr × MemberUse)
  | .methodCall receiver name _ _ => some (receiver, .method name.name)
  | .propertyFetch receiver name _ => some (receiver, .property name.name)
  | _ => none

theorem Expr.mem_children_of_memberUse {e : Expr} {use : Expr × MemberUse}
    (hm : e.kind.memberUse? = some use) : .expr use.1 ∈ (Node.expr e).children := by
  obtain ⟨kind, span⟩ := e
  cases kind with
  | methodCall =>
    cases hm
    exact List.mem_cons_self
  | propertyFetch =>
    cases hm
    exact List.mem_cons_self
  | _ => cases hm

namespace Document

def bindingSource (d : Document) : Option Node → TypeSource
  | some (.expr b) => .expr d b
  | some (.param p) => .known ((p.typeHint.map d.typeHintType).getD .unresolved)
  | _ => .known .unresolved

def classRefSource (d : Document) : ClassRef → TypeSource
  | .named n => .known (d.classNameType n)
  | .dynamic e => .expr d e

/-- Of an expression that asks nothing of an object. -/
def typeSource (d : Document) (e : Expr) : TypeSource :=
  match e.kind with
  | .variable name =>
    if name = "this" then .known (.ofClass? d.className?)
    else d.bindingSource (d.bindingOf name e.span)
  | .staticPropertyFetch c _ | .classConstFetch c _ | .staticCall c _ _ | .new c _ =>
    d.classRefSource c
  | .assign _ value _ => .expr d value
  | _ => .known .unresolved

/-- What an expression has its type from is below it or binds it, in the same document. -/
theorem typeSource_eq_expr {d d' : Document} {e e' : Expr} (h : d.typeSource e = .expr d' e') :
    d' = d ∧ (.expr e' ∈ (Node.expr e).children ∨ .expr e' ∈ d.nodes) := by
  have hclass {c : ClassRef} (hc : d.classRefSource c = .expr d' e') :
      d' = d ∧ .expr e' = c.node := by
    cases c <;> cases hc
    exact ⟨rfl, rfl⟩
  obtain ⟨kind, span⟩ := e
  cases kind with
  | «variable» name =>
    simp only [typeSource] at h
    split at h
    · cases h
    · unfold bindingSource at h
      split at h <;> cases h
      rename_i b hbinding
      exact ⟨rfl, .inr (List.mem_filter.mp (Node.lastReaching_eq_some hbinding).1).1⟩
  | staticPropertyFetch c name =>
    obtain ⟨hd, hc⟩ := hclass h
    exact ⟨hd, .inl (hc ▸ List.mem_cons_self)⟩
  | classConstFetch c name =>
    obtain ⟨hd, hc⟩ := hclass h
    exact ⟨hd, .inl (hc ▸ List.mem_cons_self)⟩
  | staticCall c name args =>
    obtain ⟨hd, hc⟩ := hclass h
    exact ⟨hd, .inl (hc ▸ List.mem_cons_self)⟩
  | new c args =>
    obtain ⟨hd, hc⟩ := hclass h
    exact ⟨hd, .inl (hc ▸ List.mem_cons_self)⟩
  | assign target value byRef =>
    cases h
    exact ⟨rfl, .inl (by simp [Node.children, ExprKind.children, Node.ofExprs])⟩
  | _ => cases h

end Document

namespace Workspace

variable (w : Workspace)

def propertySource (d : Document) (receiver : InferredType) (name : String) :
    Infer TypeSource := do
  let some c ← w.receiverClass? d receiver | return .known .unresolved
  let declared := declaredPropertyType c name
  if declared.isResolved then return .known declared
  match ← w.constructorValue? d c name with
  | some (owner, value) => return .expr owner value
  | none => return .known .unresolved

def memberSource (d : Document) (receiver : InferredType) : MemberUse → Infer TypeSource
  | .method name => return .known (← w.returnType d receiver name)
  | .property name => w.propertySource d receiver name

def sourceType (depth : Nat) : TypeSource → Infer InferredType
  | .known t => return t
  | .expr d e => w.exprType depth d e

def boundType (depth : Nat) (d : Document) : Option Node → Infer InferredType
  | some (.expr b) => w.exprType depth d b
  | some (.param p) => return (p.typeHint.map d.typeHintType).getD .unresolved
  | _ => return .unresolved

theorem exprType_variable (depth : Nat) (d : Document) {e : Expr} {name : String}
    (hname : e.variableName? = some name) (hthis : name ≠ "this") :
    w.exprType (depth + 1) d e = w.boundType depth d (d.bindingOf name e.span) := by
  unfold Expr.variableName? at hname
  split at hname
  · rename_i name' hkind
    obtain rfl := Option.some.inj hname
    rw [exprType]
    simp only [hkind]
    rfl
  · cases hname

variable {w} {depth : Nat} {d : Document} {e receiver : Expr} {m : MemberUse}

theorem boundType_eq (b : Option Node) :
    w.boundType depth d b = w.sourceType depth (d.bindingSource b) := by
  unfold boundType Document.bindingSource
  split <;> rfl

theorem exprType_of_typeSource (hm : e.kind.memberUse? = none) :
    w.exprType (depth + 1) d e = w.sourceType depth (d.typeSource e) := by
  obtain ⟨kind, span⟩ := e
  have hclass (c : ClassRef) : (match c with
      | .named n => return d.classNameType n
      | .dynamic e => w.exprType depth d e) = w.sourceType depth (d.classRefSource c) := by
    cases c <;> rfl
  cases kind with
  | «variable» name =>
    by_cases hthis : name = "this"
    · subst hthis
      rfl
    · rw [w.exprType_variable depth d rfl hthis, boundType_eq, Document.typeSource]
      simp only [hthis, if_false]
  | staticPropertyFetch c _ => exact hclass c
  | classConstFetch c _ => exact hclass c
  | staticCall c _ _ => exact hclass c
  | new c _ => exact hclass c
  | methodCall => cases hm
  | propertyFetch => cases hm
  | _ => rfl

theorem exprType_of_memberUse (hm : e.kind.memberUse? = some (receiver, m)) :
    w.exprType (depth + 1) d e =
      (do w.sourceType depth (← w.memberSource d (← w.exprType depth d receiver) m)) := by
  obtain ⟨kind, span⟩ := e
  cases kind with
  | methodCall =>
    cases hm
    rfl
  | propertyFetch receiver name nullsafe =>
    cases hm
    rw [exprType]
    refine bind_congr fun t ↦ ?_
    rw [memberSource, propertySource, bind_assoc]
    refine bind_congr fun c ↦ ?_
    cases c with
    | none => rfl
    | some c =>
      simp only
      split
      · rfl
      · rw [bind_assoc]
        refine bind_congr fun v ↦ ?_
        cases v <;> rfl
  | _ => cases hm

theorem exprType_run_of_memberUse (hm : e.kind.memberUse? = some (receiver, m))
    {s s₁ s₂ : ClassCache} {object : InferredType} {source : TypeSource}
    (hobject : (w.exprType depth d receiver).run s = (object, s₁))
    (hsource : (w.memberSource d object m).run s₁ = (source, s₂)) :
    (w.exprType (depth + 1) d e).run s = (w.sourceType depth source).run s₂ := by
  rw [exprType_of_memberUse hm, StateT.run_bind, hobject]
  exact congrArg (fun r ↦ (w.sourceType depth r.1).run r.2) hsource

end Workspace

end PhpInsight

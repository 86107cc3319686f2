import PhpInsight.Proofs.Types.Source

namespace PhpInsight.Workspace

variable {w : Workspace} {depth : Nat} {d : Document} {e receiver : Expr} {m : MemberUse}

theorem memberSource_unresolved (d : Document) (m : MemberUse) (s : ClassCache) :
    (w.memberSource d .unresolved m).run s = (.known .unresolved, s) := by
  cases m <;> rfl

/-- What an expression turns out to be when nothing ends the search, and the cache that is left.
The number bounds how deeply expressions are nested in one another on the way. -/
inductive Resolves (w : Workspace) :
    Nat → Document → Expr → ClassCache → InferredType × ClassCache → Prop
  | known {n : Nat} {d : Document} {e : Expr} {s : ClassCache} {t : InferredType}
      (hm : e.kind.memberUse? = none) (ht : d.typeSource e = .known t) :
      Resolves w (n + 1) d e s (t, s)
  | expr {n : Nat} {d d' : Document} {e e' : Expr} {s : ClassCache}
      {found : InferredType × ClassCache} (hm : e.kind.memberUse? = none)
      (ht : d.typeSource e = .expr d' e') (h : Resolves w n d' e' s found) :
      Resolves w (n + 1) d e s found
  | member {n : Nat} {d : Document} {e receiver : Expr} {m : MemberUse} {s s₁ s₂ : ClassCache}
      {object t : InferredType} (hm : e.kind.memberUse? = some (receiver, m))
      (h : Resolves w n d receiver s (object, s₁))
      (ht : (w.memberSource d object m).run s₁ = (.known t, s₂)) : Resolves w (n + 1) d e s (t, s₂)
  | value {n : Nat} {d d' : Document} {e e' receiver : Expr} {m : MemberUse} {s s₁ s₂ : ClassCache}
      {object : InferredType} {found : InferredType × ClassCache}
      (hm : e.kind.memberUse? = some (receiver, m)) (h : Resolves w n d receiver s (object, s₁))
      (ht : (w.memberSource d object m).run s₁ = (.expr d' e', s₂))
      (h' : Resolves w n d' e' s₂ found) : Resolves w (n + 1) d e s found

variable {n : Nat} {s : ClassCache} {found : InferredType × ClassCache}

theorem Resolves.mono (h : w.Resolves n d e s found) {n' : Nat} (hn : n ≤ n') :
    w.Resolves n' d e s found := by
  induction h generalizing n' with
  | known hm ht =>
    cases n' with
    | zero => omega
    | succ n' => exact .known hm ht
  | expr hm ht _ ih =>
    cases n' with
    | zero => omega
    | succ n' => exact .expr hm ht (ih (Nat.le_of_succ_le_succ hn))
  | member hm _ ht ih =>
    cases n' with
    | zero => omega
    | succ n' => exact .member hm (ih (Nat.le_of_succ_le_succ hn)) ht
  | value hm _ ht _ ih ih' =>
    cases n' with
    | zero => omega
    | succ n' =>
      have hn := Nat.le_of_succ_le_succ hn
      exact .value hm (ih hn) ht (ih' hn)

theorem Resolves.exprType_run (h : w.Resolves n d e s found) :
    (w.exprType n d e).run s = found := by
  induction h with
  | known hm ht =>
    rw [exprType_of_typeSource hm, ht]
    rfl
  | expr hm ht _ ih =>
    rw [exprType_of_typeSource hm, ht]
    exact ih
  | member hm _ ht ih => exact exprType_run_of_memberUse hm ih ht
  | value hm _ ht _ ih ih' => exact (exprType_run_of_memberUse hm ih ht).trans ih'

/-- Where a type is found nothing was cut off on the way: of the members of an object that was cut
off nothing would be known. -/
theorem resolves_of_exprType (h : ((w.exprType n d e).run s).1 ≠ .unresolved) :
    w.Resolves n d e s ((w.exprType n d e).run s) := by
  induction n generalizing d e s with
  | zero => exact absurd rfl h
  | succ n ih =>
    cases hm : e.kind.memberUse? with
    | none =>
      rw [exprType_of_typeSource hm] at h ⊢
      cases ht : d.typeSource e with
      | known t => exact .known hm ht
      | expr d' e' =>
        rw [ht] at h
        exact .expr hm ht (ih h)
    | some use =>
      obtain ⟨receiver, m⟩ := use
      obtain ⟨object, s₁, hobject⟩ :
          ∃ object s₁, (w.exprType n d receiver).run s = (object, s₁) := ⟨_, _, rfl⟩
      obtain ⟨source, s₂, hsource⟩ :
          ∃ source s₂, (w.memberSource d object m).run s₁ = (source, s₂) := ⟨_, _, rfl⟩
      rw [exprType_run_of_memberUse hm hobject hsource] at h ⊢
      have hreceiver : w.Resolves n d receiver s (object, s₁) := by
        rw [← hobject]
        refine ih fun hcut ↦ ?_
        obtain rfl : object = .unresolved := by rw [← hcut, hobject]
        rw [memberSource_unresolved] at hsource
        cases hsource
        exact h rfl
      cases source with
      | known t => exact .member hm hreceiver hsource
      | expr d' e' => exact .value hm hreceiver hsource (ih h)

/-- The type of a node when so many expressions have been looked into already, and no more than a
bound may be. -/
def nodeTypeAfter (w : Workspace) (bound start : Nat) (d : Document) (n : Node) :
    Infer InferredType :=
  if bound < start then return .unresolved else w.nodeType (bound - start) d n

def NodeResolves (w : Workspace) (n : Nat) (d : Document) :
    Node → ClassCache → InferredType × ClassCache → Prop
  | .expr e, s, found => w.Resolves n d e s found
  | m, s, found => (w.nodeType 0 d m).run s = found

theorem NodeResolves.mono {m : Node} (h : w.NodeResolves n d m s found) {n' : Nat} (hn : n ≤ n') :
    w.NodeResolves n' d m s found := by
  cases m with
  | expr e => exact Resolves.mono h hn
  | _ => exact h

theorem NodeResolves.nodeType_run {m : Node} (h : w.NodeResolves n d m s found) :
    (w.nodeType n d m).run s = found := by
  cases m with
  | expr e => exact Resolves.exprType_run h
  | _ => exact h

theorem nodeResolves_of_nodeType {m : Node} (h : ((w.nodeType n d m).run s).1 ≠ .unresolved) :
    w.NodeResolves n d m s ((w.nodeType n d m).run s) := by
  cases m with
  | expr e => exact resolves_of_exprType h
  | _ => rfl

theorem nodeType_run_of_le {m : Node} {n' : Nat} (hn : n ≤ n')
    (h : ((w.nodeType n d m).run s).1 ≠ .unresolved) :
    (w.nodeType n' d m).run s = (w.nodeType n d m).run s :=
  ((nodeResolves_of_nodeType h).mono hn).nodeType_run

theorem nodeTypeAfter_run_of_le {m : Node} {bound bound' start start' : Nat} (hb : bound ≤ bound')
    (hs : start' ≤ start) (h : ((w.nodeTypeAfter bound start d m).run s).1 ≠ .unresolved) :
    (w.nodeTypeAfter bound' start' d m).run s = (w.nodeTypeAfter bound start d m).run s := by
  unfold nodeTypeAfter at h ⊢
  by_cases hcut : bound < start
  · rw [if_pos hcut] at h
    exact absurd rfl h
  · rw [if_neg hcut] at h ⊢
    rw [if_neg (by omega)]
    exact nodeType_run_of_le (by omega) h

/-- A bound on the depth takes answers away and changes none. What is found at some depth is found
from every lesser one, and within every larger bound; what inference without a bound arrives at in
so many nested steps is found within a bound of as many; and nothing else is found. -/
theorem nodeType_bounded (w : Workspace) (d : Document) (m : Node) (s : ClassCache) :
    (∀ bound start start', start ≤ start' →
      ((w.nodeTypeAfter bound start' d m).run s).1 ≠ .unresolved →
        (w.nodeTypeAfter bound start d m).run s = (w.nodeTypeAfter bound start' d m).run s) ∧
    (∀ bound bound', bound ≤ bound' → ((w.nodeTypeAfter bound 0 d m).run s).1 ≠ .unresolved →
      (w.nodeTypeAfter bound' 0 d m).run s = (w.nodeTypeAfter bound 0 d m).run s) ∧
    (∀ bound found, w.NodeResolves bound d m s found →
      (w.nodeTypeAfter bound 0 d m).run s = found) ∧
    (∀ bound, ((w.nodeTypeAfter bound 0 d m).run s).1 ≠ .unresolved →
      w.NodeResolves bound d m s ((w.nodeTypeAfter bound 0 d m).run s)) ∧
    w.infer d m = w.nodeTypeAfter maxDepth 0 d m := by
  refine ⟨fun _ _ _ hs h ↦ nodeTypeAfter_run_of_le (Nat.le_refl _) hs h,
    fun _ _ hb h ↦ nodeTypeAfter_run_of_le hb (Nat.le_refl _) h,
    fun _ _ h ↦ h.nodeType_run, fun _ h ↦ nodeResolves_of_nodeType h, rfl⟩

/-- A document and the last expression of it, whose type is five expressions away. -/
def remote : Option (Document × Node) := do
  let source := "<?php class A{function __construct(){$this->b=new A;}} $a=new A; $a->b->b;"
  let d ← (Document.parse 0 "a.php" source.toList 0).toOption
  match (← d.statements.getLast?).kind with
  | .expression e => return (d, .expr e)
  | _ => none

theorem nodeType_bounded_remote :
    ∃ d m, remote = some (d, m) ∧
      ((({} : Workspace).nodeTypeAfter 4 0 d m).run {}).1 = .unresolved ∧
      ((({} : Workspace).nodeTypeAfter 5 0 d m).run {}).1 = .class "A" ∧
      ((({} : Workspace).nodeTypeAfter maxDepth 27 d m).run {}).1 = .class "A" ∧
      (({} : Workspace).infer d m).run {} =
        (({} : Workspace).nodeTypeAfter maxDepth 27 d m).run {} ∧
      (({} : Workspace).nodeTypeAfter 100000 0 d m).run {} =
        (({} : Workspace).nodeTypeAfter 5 0 d m).run {} ∧
      ({} : Workspace).NodeResolves 5 d m {} ((({} : Workspace).nodeTypeAfter 5 0 d m).run {}) := by
  have hfound : remote.map (fun (d, m) ↦
      (((({} : Workspace).nodeTypeAfter 4 0 d m).run {}).1,
        ((({} : Workspace).nodeTypeAfter 5 0 d m).run {}).1,
        ((({} : Workspace).nodeTypeAfter maxDepth 27 d m).run {}).1)) =
      some (.unresolved, .class "A", .class "A") := by decide +kernel
  obtain ⟨⟨d, m⟩, hremote, hfound⟩ := Option.map_eq_some_iff.mp hfound
  obtain ⟨hfour, hfound⟩ := Prod.mk.inj hfound
  obtain ⟨hfive, hlate⟩ := Prod.mk.inj hfound
  obtain ⟨hstart, hbound, _, hresolves, hinfer⟩ := nodeType_bounded {} d m {}
  have hfive' : ((({} : Workspace).nodeTypeAfter 5 0 d m).run {}).1 ≠ .unresolved := by simp [hfive]
  have hlate' : ((({} : Workspace).nodeTypeAfter maxDepth 27 d m).run {}).1 ≠ .unresolved := by
    simp [hlate]
  have hsame : (({} : Workspace).infer d m).run {} =
      (({} : Workspace).nodeTypeAfter maxDepth 27 d m).run {} := by
    rw [hinfer]
    exact hstart maxDepth 0 27 (by decide) hlate'
  exact ⟨d, m, hremote, hfour, hfive, hlate, hsame, hbound 5 100000 (by decide) hfive',
    hresolves 5 hfive'⟩

end PhpInsight.Workspace

import PhpInsight.Proofs.Inheritance.Remembered
import PhpInsight.Proofs.Types.Source

namespace PhpInsight

/-- A question that every state of a kind answers alike, and that leaves such a state. -/
def Steady {σ α : Type} (I : σ → Prop) (p : StateM σ α) (post : α → Prop) : Prop :=
  ∃ a, post a ∧ ∀ s, I s → (p.run s).1 = a ∧ I (p.run s).2

namespace Steady

variable {σ α β : Type} {I : σ → Prop} {p : StateM σ α} {post : α → Prop}

theorem pure {a : α} (h : post a) : Steady I (Pure.pure a) post := ⟨a, h, fun _ hs ↦ ⟨rfl, hs⟩⟩

theorem bind (hp : Steady I p post) {f : α → StateM σ β} {post' : β → Prop}
    (hf : ∀ a, post a → Steady I (f a) post') : Steady I (p >>= f) post' := by
  obtain ⟨a, ha, hp⟩ := hp
  obtain ⟨b, hb, hf⟩ := hf a ha
  refine ⟨b, hb, fun s hs ↦ ?_⟩
  obtain ⟨hvalue, hstate⟩ := hp s hs
  have hrun : (p >>= f).run s = (f (p.run s).1).run (p.run s).2 := rfl
  rw [hrun, hvalue]
  exact hf _ hstate

theorem imp (h : Steady I p post) {post' : α → Prop} (hpost : ∀ a, post a → post' a) :
    Steady I p post' := by
  obtain ⟨a, ha, h⟩ := h
  exact ⟨a, hpost a ha, h⟩

theorem run_eq (h : Steady I p post) {s t : σ} (hs : I s) (ht : I t) :
    (p.run s).1 = (p.run t).1 := by
  obtain ⟨a, _, h⟩ := h
  rw [(h s hs).1, (h t ht).1]

theorem run_state (h : Steady I p post) {s : σ} (hs : I s) : I (p.run s).2 := by
  obtain ⟨a, _, h⟩ := h
  exact (h s hs).2

end Steady

def TypeSource.Within (docs : List Document) : TypeSource → Prop
  | .known _ => True
  | .expr d _ => d ∈ docs

namespace Workspace

variable {w : Workspace} {docs : List Document}

theorem steady_reflect? (hw : w.Acyclic) (name : String) :
    Steady w.Sound (w.reflect? name) fun _ ↦ True := by
  refine ⟨(w.locate? name).map (w.flattened {}), trivial, fun cache hs ↦ ?_⟩
  obtain ⟨cache', hrun, hs'⟩ := reflect?_run hw hs name
  rw [hrun]
  exact ⟨rfl, hs'⟩

section

variable (hacyclic : AcyclicAmong docs) (hs : w.documents ⊆ docs)

include hacyclic hs

theorem steady_reflectFrom? {d : Document} (hd : d ∈ docs) (name : String) :
    Steady w.Sound (w.reflectFrom? d name) fun o ↦ ∀ c ∈ o, c.origin ∈ docs := by
  refine ⟨(w.seen? d name).map (w.flattened {}), ?_, fun cache hcache ↦ ?_⟩
  · intro c hc
    obtain ⟨a, ha, rfl⟩ := Option.map_eq_some_iff.mp hc
    rw [origin_flattened]
    rcases Option.or_eq_some_iff.mp ha with ha | ⟨_, ha⟩
    · obtain ⟨k, _, _, rfl⟩ := Document.locate?_eq_some ha
      exact hd
    · obtain ⟨d', hd', k, _, _, rfl⟩ := locate?_eq_some ha
      exact hs hd'
  · obtain ⟨cache', hrun, hs'⟩ := reflectFrom?_run (acyclic_of_among hacyclic hs) hcache d name
      fun c hc ↦ clear_of_among hacyclic hs hd hc
    rw [hrun]
    exact ⟨rfl, hs'⟩

theorem steady_receiverClass? {d : Document} (hd : d ∈ docs) (receiver : InferredType) :
    Steady w.Sound (w.receiverClass? d receiver) fun o ↦ ∀ c ∈ o, c.origin ∈ docs := by
  unfold receiverClass?
  split
  · exact steady_reflectFrom? hacyclic hs hd _
  · exact .pure (by simp)

theorem steady_returnType {d : Document} (hd : d ∈ docs) (receiver : InferredType)
    (method : String) : Steady w.Sound (w.returnType d receiver method) fun _ ↦ True := by
  unfold returnType
  refine (steady_receiverClass? hacyclic hs hd receiver).bind fun c _ ↦ ?_
  cases c with
  | none => exact .pure trivial
  | some c =>
    simp only
    split <;> exact .pure trivial

theorem steady_constructorValue? {d : Document} (hd : d ∈ docs) {c : ClassInfo}
    (hc : c.origin ∈ docs) (property : String) :
    Steady w.Sound (w.constructorValue? d c property) fun o ↦ ∀ v ∈ o, v.1 ∈ docs := by
  have hvalue {owner : Document} (howner : owner ∈ docs) (value : Option Expr) :
      Steady w.Sound (return value.map (owner, ·))
        fun (found : Option (Document × Expr)) ↦ ∀ v ∈ found, v.1 ∈ docs := by
    refine .pure fun v hv ↦ ?_
    obtain ⟨value, _, rfl⟩ := Option.map_eq_some_iff.mp hv
    exact howner
  unfold constructorValue?
  split
  · simp only
    split
    · exact hvalue hc _
    · refine (steady_reflectFrom? hacyclic hs hd _).bind fun o ho ↦ ?_
      cases o with
      | none => exact .pure (by simp)
      | some a => exact hvalue (ho a rfl) _
  · exact .pure (by simp)

theorem steady_memberSource {d : Document} (hd : d ∈ docs) (receiver : InferredType)
    (m : MemberUse) :
    Steady w.Sound (w.memberSource d receiver m) (TypeSource.Within docs) := by
  cases m with
  | method name =>
    exact (steady_returnType hacyclic hs hd receiver name).bind fun _ _ ↦ .pure trivial
  | property name =>
    refine (steady_receiverClass? hacyclic hs hd receiver).bind fun c hc ↦ ?_
    cases c with
    | none => exact .pure trivial
    | some c =>
      simp only
      split
      · exact .pure trivial
      · refine (steady_constructorValue? hacyclic hs hd (hc c rfl) name).bind fun v hv ↦ ?_
        cases v with
        | none => exact .pure trivial
        | some v => exact .pure (hv v rfl)

theorem steady_exprType (depth : Nat) {d : Document} (hd : d ∈ docs) (e : Expr) :
    Steady w.Sound (w.exprType depth d e) fun _ ↦ True := by
  induction depth generalizing d e with
  | zero => exact .pure trivial
  | succ depth ih =>
    have hsource (source : TypeSource) (hsource : source.Within docs) :
        Steady w.Sound (w.sourceType depth source) fun _ ↦ True := by
      cases source with
      | known t => exact .pure trivial
      | expr d e => exact ih hsource e
    cases hm : e.kind.memberUse? with
    | none =>
      rw [exprType_of_typeSource hm]
      refine hsource _ ?_
      cases ht : d.typeSource e with
      | known t => trivial
      | expr d' e' => exact (Document.typeSource_eq_expr ht).1 ▸ hd
    | some use =>
      rw [exprType_of_memberUse hm]
      exact (ih hd use.1).bind fun t _ ↦
        (steady_memberSource hacyclic hs hd t use.2).bind hsource

theorem steady_infer {d : Document} (hd : d ∈ docs) (n : Node) :
    Steady w.Sound (w.infer d n) fun _ ↦ True := by
  unfold infer nodeType
  cases n with
  | expr e => exact steady_exprType hacyclic hs _ hd e
  | _ => exact .pure trivial

end

end Workspace

end PhpInsight

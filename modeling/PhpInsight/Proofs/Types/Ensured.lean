import PhpInsight.Proofs.Types.Assigned

namespace PhpInsight

/-- A program that gives an answer of a kind, and leaves the kind of state that it meets. -/
def Ensures {σ α : Type} (I : σ → Prop) (p : StateM σ α) (post : α → Prop) : Prop :=
  ∀ s, I s → post (p.run s).1 ∧ I (p.run s).2

namespace Ensures

variable {σ α β : Type} {I : σ → Prop} {p : StateM σ α} {post : α → Prop}

theorem pure {a : α} (h : post a) : Ensures I (Pure.pure a : StateM σ α) post :=
  fun _ hs ↦ ⟨h, hs⟩

theorem bind (hp : Ensures I p post) {f : α → StateM σ β} {post' : β → Prop}
    (hf : ∀ a, post a → Ensures I (f a) post') : Ensures I (p >>= f) post' := by
  intro s hs
  obtain ⟨ha, hstate⟩ := hp s hs
  exact hf _ ha _ hstate

end Ensures

def TypeSource.Of (docs : Document → Prop) (exprs : Expr → Prop) (types : InferredType → Prop) :
    TypeSource → Prop
  | .known t => types t
  | .expr d e => docs d ∧ exprs e

namespace Workspace

/-- What a step of inference hands on: of a document and an expression to what gives the
expression its type, and of a class to the document that declares it and to what its texts mean. -/
structure HandsOn (docs : Document → Prop) (exprs : Expr → Prop) (classes : ClassInfo → Prop)
    (types : InferredType → Prop) : Prop where
  unresolved : types .unresolved
  source {d : Document} {e : Expr} (hd : docs d) (he : exprs e) :
    (d.typeSource e).Of docs exprs types
  receiver {e : Expr} {use : Expr × MemberUse} (he : exprs e)
    (h : e.kind.memberUse? = some use) : exprs use.1
  origin {c : ClassInfo} (hc : classes c) : docs c.origin
  typeOfText {c : ClassInfo} (hc : classes c) (text : String) : types (c.typeOfText text)
  assigned {d : Document} {declaringClass property : String} {v : Document × Expr} (hd : docs d)
    (h : assigned? d declaringClass property = some v) : exprs v.2

variable {w : Workspace} {I : ClassCache → Prop} {docs : Document → Prop} {exprs : Expr → Prop}
  {classes : ClassInfo → Prop} {types : InferredType → Prop}

theorem HandsOn.firstResolved (h : HandsOn docs exprs classes types) {ts : List InferredType}
    (hts : ∀ t ∈ ts, types t) : types (firstResolved ts) := by
  unfold Workspace.firstResolved
  cases hfound : ts.find? InferredType.isResolved with
  | none => exact h.unresolved
  | some t => exact hts t (List.mem_of_find?_eq_some hfound)

theorem HandsOn.declaredPropertyType (h : HandsOn docs exprs classes types) {c : ClassInfo}
    (hc : classes c) (name : String) : types (declaredPropertyType c name) := by
  refine h.firstResolved fun t ht ↦ ?_
  obtain ⟨text, _, rfl⟩ := List.mem_map.mp ht
  exact h.typeOfText hc text

section

variable
  (hreflect : ∀ d, docs d → ∀ name, Ensures I (w.reflectFrom? d name) fun o ↦ ∀ c ∈ o, classes c)

include hreflect

theorem ensures_receiverClass? {d : Document} (hd : docs d) (receiver : InferredType) :
    Ensures I (w.receiverClass? d receiver) fun o ↦ ∀ c ∈ o, classes c := by
  unfold receiverClass?
  split
  · exact hreflect d hd _
  · exact .pure fun _ hc ↦ absurd hc (Option.not_mem_none _)

variable (h : HandsOn docs exprs classes types)

include h

theorem ensures_returnType {d : Document} (hd : docs d) (receiver : InferredType)
    (method : String) : Ensures I (w.returnType d receiver method) types := by
  unfold returnType
  refine (ensures_receiverClass? hreflect hd receiver).bind fun o ho ↦ ?_
  cases o with
  | none => exact .pure h.unresolved
  | some c =>
    simp only
    split
    · exact .pure (h.typeOfText (ho c rfl) _)
    · exact .pure h.unresolved

theorem ensures_constructorValue? {d : Document} (hd : docs d) {c : ClassInfo} (hc : classes c)
    (property : String) :
    Ensures I (w.constructorValue? d c property) fun o ↦ ∀ v ∈ o, docs v.1 ∧ exprs v.2 := by
  have hvalue {owner : Document} (howner : docs owner) (declaringClass : String) :
      ∀ v ∈ assigned? owner declaringClass property, docs v.1 ∧ exprs v.2 := fun v hv ↦
    ⟨(assigned?_mem_nodes hv).1 ▸ howner, h.assigned howner hv⟩
  unfold constructorValue?
  split
  · simp only
    split
    · exact .pure (hvalue (h.origin hc) _)
    · refine (hreflect d hd _).bind fun o ho ↦ ?_
      cases o with
      | none => exact .pure fun _ hv ↦ absurd hv (Option.not_mem_none _)
      | some a => exact .pure (hvalue (h.origin (ho a rfl)) _)
  · exact .pure fun _ hv ↦ absurd hv (Option.not_mem_none _)

theorem ensures_memberSource {d : Document} (hd : docs d) (receiver : InferredType)
    (m : MemberUse) : Ensures I (w.memberSource d receiver m) (TypeSource.Of docs exprs types) := by
  cases m with
  | method name =>
    exact (ensures_returnType hreflect h hd receiver name).bind fun _ ht ↦ .pure ht
  | property name =>
    refine (ensures_receiverClass? hreflect hd receiver).bind fun o ho ↦ ?_
    cases o with
    | none => exact .pure h.unresolved
    | some c =>
      simp only
      split
      · exact .pure (h.declaredPropertyType (ho c rfl) name)
      · refine (ensures_constructorValue? hreflect h hd (ho c rfl) name).bind fun o ho ↦ ?_
        cases o with
        | none => exact .pure h.unresolved
        | some v => exact .pure (ho v rfl)

theorem ensures_exprType (depth : Nat) {d : Document} (hd : docs d) {e : Expr} (he : exprs e) :
    Ensures I (w.exprType depth d e) types := by
  induction depth generalizing d e with
  | zero => exact .pure h.unresolved
  | succ depth ih =>
    have hsource (source : TypeSource) (hof : source.Of docs exprs types) :
        Ensures I (w.sourceType depth source) types := by
      cases source with
      | known t => exact .pure hof
      | expr d e => exact ih hof.1 hof.2
    cases hm : e.kind.memberUse? with
    | none =>
      rw [exprType_of_typeSource hm]
      exact hsource _ (h.source hd he)
    | some use =>
      rw [exprType_of_memberUse hm]
      exact (ih hd (h.receiver he hm)).bind fun t _ ↦
        (ensures_memberSource hreflect h hd t use.2).bind hsource

end

end Workspace

end PhpInsight

import PhpInsight.Proofs.Inheritance.Hierarchy
import PhpInsight.Proofs.Types.Assigned

namespace PhpInsight

/-- Two computations that give related answers and leave the same state, from every state. -/
def Alike {σ α β : Type} (R : α → β → Prop) (p : StateM σ α) (q : StateM σ β) : Prop :=
  ∀ s, R (p.run s).1 (q.run s).1 ∧ (p.run s).2 = (q.run s).2

namespace Alike

variable {σ α β γ δ : Type} {R : α → β → Prop} {p : StateM σ α} {q : StateM σ β}

theorem pure {a : α} {b : β} (h : R a b) :
    Alike R (Pure.pure a : StateM σ α) (Pure.pure b) := fun _ ↦ ⟨h, rfl⟩

theorem refl (p : StateM σ α) : Alike Eq p p := fun _ ↦ ⟨rfl, rfl⟩

theorem mono (h : Alike R p q) {R' : α → β → Prop} (hR : ∀ a b, R a b → R' a b) : Alike R' p q :=
  fun s ↦ ⟨hR _ _ (h s).1, (h s).2⟩

theorem bind (h : Alike R p q) {S : γ → δ → Prop} {f : α → StateM σ γ} {g : β → StateM σ δ}
    (hf : ∀ a b, R a b → Alike S (f a) (g b)) : Alike S (p >>= f) (q >>= g) := by
  intro s
  obtain ⟨hvalue, hstate⟩ := h s
  have hp : (p >>= f).run s = (f (p.run s).1).run (p.run s).2 := rfl
  have hq : (q >>= g).run s = (g (q.run s).1).run (q.run s).2 := rfl
  rw [hp, hq, ← hstate]
  exact hf _ _ hvalue _

theorem eq {q : StateM σ α} (h : Alike Eq p q) : p = q := by
  funext s
  exact Prod.ext (h s).1 (h s).2

end Alike

theorem rel_self {α : Type} {R : α → α → Prop} (h : ∀ a, R a a) (o : Option α) :
    Option.Rel R o o := by
  cases o with
  | none => exact .none
  | some a => exact .some (h a)

def Stmt.declares (s : Stmt) : Bool :=
  match s.kind with
  | .namespace _ _ | .use _ _ | .classLike _ => true
  | _ => false

namespace Document

variable {d d' : Document} {later : List Stmt}

theorem classesFrom_append {current : Option Name} {ss : List Stmt}
    (h : ∀ s ∈ later, s.declares = false) :
    classesFrom current (ss ++ later) = classesFrom current ss := by
  induction ss generalizing current with
  | nil =>
    induction later with
    | nil => rfl
    | cons s later ih =>
      have hs := h s List.mem_cons_self
      have ih := ih fun s hs ↦ h s (List.mem_cons_of_mem _ hs)
      rw [List.nil_append] at ih ⊢
      unfold Stmt.declares at hs
      unfold classesFrom
      split <;> simp_all [classesFrom]
  | cons s ss ih =>
    rw [List.cons_append, classesFrom, classesFrom]
    split <;> simp only [ih]

theorem importsOfAll_append {ss : List Stmt} (h : ∀ s ∈ later, s.declares = false) :
    importsOfAll (ss ++ later) = importsOfAll ss := by
  induction ss with
  | nil =>
    induction later with
    | nil => rfl
    | cons s later ih =>
      have hs := h s List.mem_cons_self
      have ih := ih fun s hs ↦ h s (List.mem_cons_of_mem _ hs)
      rw [List.nil_append] at ih ⊢
      have hown : importsOf s = [] := by
        obtain ⟨kind, span⟩ := s
        cases kind <;> first | rfl | cases hs
      have hcons : importsOfAll (s :: later) = importsOf s ++ importsOfAll later := rfl
      rw [hcons, hown, ih]
      rfl
  | cons s ss ih => rw [List.cons_append, importsOfAll, importsOfAll, ih]

structure Redeclares (d' d : Document) : Prop where
  namespaceName : d'.namespaceName = d.namespaceName
  imports : d'.imports = d.imports
  classes : d'.classes = d.classes

theorem redeclares_of_append (hs : d'.statements = d.statements ++ later)
    (h : ∀ s ∈ later, s.declares = false) : d'.Redeclares d where
  namespaceName := by
    rw [Document.namespaceName, hs, List.findSome?_append]
    refine (congrArg _ (List.findSome?_eq_none_iff.mpr fun s hs ↦ ?_)).trans Option.or_none
    have hs := h s hs
    unfold Stmt.declares at hs
    split <;> simp_all
  imports := by rw [Document.imports, hs, importsOfAll_append h]; rfl
  classes := by rw [Document.classes, hs, classesFrom_append h]; rfl

namespace Redeclares

theorem className? (h : d'.Redeclares d) : d'.className? = d.className? := by
  rw [Document.className?, h.classes]
  rfl

theorem qualify (h : d'.Redeclares d) : d'.qualify = d.qualify := by
  funext n
  rw [Document.qualify, Document.qualify, h.namespaceName, import?, import?, h.imports]

theorem parentName? (h : d'.Redeclares d) : d'.parentName? = d.parentName? := by
  rw [Document.parentName?, Document.parentName?, class?, class?, h.classes, h.qualify]

theorem resolveName? (h : d'.Redeclares d) : d'.resolveName? = d.resolveName? := by
  funext n
  rw [Document.resolveName?, Document.resolveName?, h.className?, h.parentName?, h.qualify]

theorem resolveText? (h : d'.Redeclares d) : d'.resolveText? = d.resolveText? := by
  funext text
  rw [Document.resolveText?, Document.resolveText?, h.resolveName?]

theorem classNameType (h : d'.Redeclares d) : d'.classNameType = d.classNameType := by
  funext n
  rw [Document.classNameType, Document.classNameType, h.resolveName?]

theorem simpleTypeOf (h : d'.Redeclares d) : d'.simpleTypeOf = d.simpleTypeOf := by
  funext t
  cases t with
  | builtin keyword => rfl
  | named n => exact congrFun h.classNameType n

theorem unionMemberOf? (h : d'.Redeclares d) : d'.unionMemberOf? = d.unionMemberOf? := by
  funext t
  simp only [Document.unionMemberOf?, h.simpleTypeOf]

theorem typeHintType (h : d'.Redeclares d) : d'.typeHintType = d.typeHintType := by
  funext t
  cases t <;> simp only [Document.typeHintType, h.simpleTypeOf, h.unionMemberOf?]

theorem canonicalSimpleType (h : d'.Redeclares d) :
    d'.canonicalSimpleType = d.canonicalSimpleType := by
  funext t
  cases t <;> simp only [Document.canonicalSimpleType, h.resolveName?]

theorem canonicalTypeHint (h : d'.Redeclares d) : d'.canonicalTypeHint = d.canonicalTypeHint := by
  funext t
  cases t <;> simp only [Document.canonicalTypeHint, h.canonicalSimpleType]

theorem canonicalDocType (h : d'.Redeclares d) : d'.canonicalDocType = d.canonicalDocType := by
  funext text
  simp only [Document.canonicalDocType, h.resolveText?]

theorem canonicalDocTypes (h : d'.Redeclares d) : d'.canonicalDocTypes = d.canonicalDocTypes := by
  funext types
  rw [Document.canonicalDocTypes, Document.canonicalDocTypes, h.canonicalDocType]

end Redeclares

end Document

namespace ClassInfo

def movedTo (c : ClassInfo) (d : Document) : ClassInfo := { c with origin := d }

variable {d d' : Document} {c c' : ClassInfo}

theorem ofDeclaration_of_redeclares (h : d'.Redeclares d) (k : DeclaredClass) :
    ofDeclaration d' k = (ofDeclaration d k).movedTo d' := by
  have hparam : ParamInfo.ofParam d' = ParamInfo.ofParam d := by
    funext doc p
    simp only [ParamInfo.ofParam, h.canonicalTypeHint, h.canonicalDocTypes]
  have hmethod : MethodInfo.ofMethod d' = MethodInfo.ofMethod d := by
    funext owner doc m
    simp only [MethodInfo.ofMethod, hparam, h.canonicalTypeHint, h.canonicalDocTypes]
  have hmethods : methodsOf d' = methodsOf d := by
    funext owner m
    simp only [methodsOf, hmethod]
  have hproperties : propertiesOf d' = propertiesOf d := by
    funext owner m
    simp only [propertiesOf, h.canonicalTypeHint, h.canonicalDocTypes]
  have htraits : traitsOf d' = traitsOf d := by
    funext m
    simp only [traitsOf, h.resolveName?]
  simp only [ofDeclaration, movedTo, hmethods, hproperties, htraits, h.resolveName?]

theorem typeOfText_movedTo (h : d'.Redeclares c.origin) :
    (c.movedTo d').typeOfText = c.typeOfText := by
  have hsingle : (c.movedTo d').singleType = c.singleType := by
    funext text
    simp only [singleType, movedTo, h.resolveText?]
  have hmember : (c.movedTo d').memberType = c.memberType := by
    funext text
    rw [memberType, hsingle]
    rfl
  have hunion : (c.movedTo d').unionMember? = c.unionMember? := by
    funext text
    rw [unionMember?, hmember]
    rfl
  funext text
  simp only [typeOfText, hsingle, hmember, hunion]

theorem declaredPropertyType_movedTo (h : d'.Redeclares c.origin) :
    Workspace.declaredPropertyType (c.movedTo d') = Workspace.declaredPropertyType c := by
  have horigin : (c.movedTo d').origin.canonicalDocType = c.origin.canonicalDocType :=
    h.canonicalDocType
  funext name
  simp only [Workspace.declaredPropertyType, typeOfText_movedTo h, horigin]
  rfl

/-- A class is the same for two documents, or it is that of the one here and of the other there. -/
def Moved (d d' : Document) (c c' : ClassInfo) : Prop :=
  c' = c ∨ c.origin = d ∧ c' = c.movedTo d'

namespace Moved

variable (h : Moved d d' c c')

include h

theorem congr {α : Type} (f : ClassInfo → α) (hf : f (c.movedTo d') = f c) : f c' = f c := by
  rcases h with rfl | ⟨_, rfl⟩
  · rfl
  · exact hf

theorem typeOfText (hd : d'.Redeclares d) : c'.typeOfText = c.typeOfText := by
  rcases h with rfl | ⟨rfl, rfl⟩
  · rfl
  · exact typeOfText_movedTo hd

theorem declaredPropertyType (hd : d'.Redeclares d) :
    Workspace.declaredPropertyType c' = Workspace.declaredPropertyType c := by
  rcases h with rfl | ⟨rfl, rfl⟩
  · rfl
  · exact declaredPropertyType_movedTo hd

theorem origin : c'.origin = c.origin ∨ c.origin = d ∧ c'.origin = d' := by
  rcases h with rfl | ⟨hc, rfl⟩
  · exact .inl rfl
  · exact .inr ⟨hc, rfl⟩

end Moved

end ClassInfo

def TypeSource.movedTo (d' : Document) : TypeSource → TypeSource
  | .known t => .known t
  | .expr _ e => .expr d' e

namespace Workspace

open ClassInfo

variable {w : Workspace} {d d' : Document}

/-- A document declares what another one does, and binds the variables of its nodes as that one. -/
structure Continues (d' d : Document) : Prop where
  redeclares : d'.Redeclares d
  bindingOf (name : String) {e : Expr} : .expr e ∈ d.nodes →
    d'.bindingOf name e.span = d.bindingOf name e.span

theorem Continues.typeSource (h : Continues d' d) {e : Expr} (he : .expr e ∈ d.nodes) :
    d'.typeSource e = (d.typeSource e).movedTo d' := by
  have hclass (c : ClassRef) : d'.classRefSource c = (d.classRefSource c).movedTo d' := by
    cases c with
    | named n => exact congrArg (fun f ↦ TypeSource.known (f n)) h.redeclares.classNameType
    | dynamic e => rfl
  obtain ⟨kind, span⟩ := e
  cases kind with
  | «variable» name =>
    simp only [Document.typeSource, h.redeclares.className?, h.bindingOf name he]
    split
    · rfl
    · unfold Document.bindingSource
      split
      · rfl
      · simp only [h.redeclares.typeHintType]
        rfl
      · rfl
  | staticPropertyFetch c _ => exact hclass c
  | classConstFetch c _ => exact hclass c
  | staticCall c _ _ => exact hclass c
  | new c _ => exact hclass c
  | _ => rfl

theorem alike_foldlM_inheritFrom (d' : Document) (path : List String)
    (flatten : ClassInfo → StateM ClassCache ClassInfo) (withPrivate : Bool) (names : List String)
    (c : ClassInfo) :
    Alike (fun a b ↦ b = a.movedTo d') (names.foldlM (w.inheritFrom path flatten withPrivate) c)
      (names.foldlM (w.inheritFrom path flatten withPrivate) (c.movedTo d')) := by
  induction names generalizing c with
  | nil => exact .pure rfl
  | cons name names ih =>
    have hname : Alike (fun a b ↦ b = a.movedTo d') (w.inheritFrom path flatten withPrivate c name)
        (w.inheritFrom path flatten withPrivate (c.movedTo d') name) := by
      refine (Alike.refl (w.findAncestor? path flatten name)).bind fun ancestor _ he ↦ ?_
      subst he
      cases ancestor <;> exact .pure rfl
    rw [List.foldlM_cons, List.foldlM_cons]
    refine hname.bind fun a b hb ↦ ?_
    subst hb
    exact ih a

/-- Flattening looks at the names in a class and never at its document. -/
theorem alike_flattenedUsing (d' : Document) (c : ClassInfo) :
    Alike (fun a b ↦ b = a.movedTo d') (w.flattenedUsing c) (w.flattenedUsing (c.movedTo d')) := by
  refine (alike_foldlM_inheritFrom d' _ _ true c.traits c).bind fun a b hb ↦ ?_
  subst hb
  exact alike_foldlM_inheritFrom d' _ _ false (c.parent.toList ++ c.interfaces) a

theorem locate?_movedTo (h : d'.Redeclares d) (name : String) :
    d'.locate? name = (d.locate? name).map (·.movedTo d') := by
  rw [Document.locate?, Document.locate?, h.classes, Option.map_map]
  exact congrArg (Option.map · _) (funext (ofDeclaration_of_redeclares h))

theorem alike_reflectFrom? (h : d'.Redeclares d) (name : String) :
    Alike (Option.Rel (Moved d d')) (w.reflectFrom? d name) (w.reflectFrom? d' name) := by
  unfold reflectFrom?
  rw [locate?_movedTo h]
  cases hc : d.locate? name with
  | none => exact (Alike.refl _).mono fun a b he ↦ he ▸ rel_self (fun c ↦ .inl rfl) a
  | some c =>
    have hkept : Alike (fun a b ↦ a.origin = d ∧ b = a.movedTo d') (w.flattenedUsing c)
        (w.flattenedUsing (c.movedTo d')) := by
      intro cache
      have horigin : c.origin = d := by
        obtain ⟨k, -, -, hk⟩ := Document.locate?_eq_some hc
        exact congrArg ClassInfo.origin hk
      obtain ⟨hmoved, hstate⟩ := alike_flattenedUsing d' c cache
      obtain ⟨later, hrun, -⟩ := w.flattenedUsing_run cache c
      refine ⟨⟨?_, hmoved⟩, hstate⟩
      rw [hrun]
      exact (origin_flattened w cache c).trans horigin
    exact hkept.bind fun a b hab ↦ .pure (.some (.inr hab))

theorem alike_receiverClass? (h : d'.Redeclares d) (receiver : InferredType) :
    Alike (Option.Rel (Moved d d')) (w.receiverClass? d receiver)
      (w.receiverClass? d' receiver) := by
  unfold receiverClass?
  split
  · exact alike_reflectFrom? h _
  · exact .pure .none

theorem alike_returnType (h : d'.Redeclares d) (receiver : InferredType) (method : String) :
    Alike Eq (w.returnType d receiver method) (w.returnType d' receiver method) := by
  unfold returnType
  refine (alike_receiverClass? h receiver).bind fun o o' ho ↦ ?_
  cases ho with
  | none => exact .pure rfl
  | some hc =>
    simp only [hc.congr (fun c ↦ c.method? method) rfl, hc.typeOfText h]
    exact .refl _

def SameValue (d d' : Document) (v v' : Document × Expr) : Prop :=
  v'.2 = v.2 ∧ (v'.1 = v.1 ∨ v.1 = d ∧ v'.1 = d' ∧ .expr v.2 ∈ d.nodes)

/-- What gives an expression its type in the one document and in the other. -/
inductive SameSource (d d' : Document) : TypeSource → TypeSource → Prop
  | known (t : InferredType) : SameSource d d' (.known t) (.known t)
  | expr {v v' : Document × Expr} (h : SameValue d d' v v') :
    SameSource d d' (.expr v.1 v.2) (.expr v'.1 v'.2)

theorem Continues.sameSource (h : Continues d' d) {e : Expr} (he : .expr e ∈ d.nodes) :
    SameSource d d' (d.typeSource e) (d'.typeSource e) := by
  rw [h.typeSource he]
  cases ht : d.typeSource e with
  | known t => exact .known t
  | expr d₀ value =>
    obtain ⟨hfirst, hplace⟩ := Document.typeSource_eq_expr ht
    have hmem : .expr value ∈ d.nodes := hplace.elim (Document.mem_nodes_of_mem_children he) id
    have hvalue : SameValue d d' (d₀, value) (d', value) := ⟨rfl, .inr ⟨hfirst, rfl, hmem⟩⟩
    exact .expr hvalue

theorem assigned?_sameValue (h : d'.Redeclares d) {owner owner' : Document}
    (howner : owner' = owner ∨ owner = d ∧ owner' = d') (declaringClass property : String) :
    Option.Rel (SameValue d d') (assigned? owner declaringClass property)
      (assigned? owner' declaringClass property) := by
  rcases howner with rfl | ⟨rfl, rfl⟩
  · exact rel_self (fun v ↦ ⟨rfl, .inl rfl⟩) _
  · have hmoved : assigned? owner' declaringClass property =
        (assigned? owner declaringClass property).map fun v ↦ (owner', v.2) := by
      simp only [assigned?, h.classes, Option.map_map]
      rfl
    rw [hmoved]
    cases hv : assigned? owner declaringClass property with
    | none => exact .none
    | some v =>
      obtain ⟨hfirst, hmem⟩ := assigned?_mem_nodes hv
      exact .some ⟨rfl, .inr ⟨hfirst, rfl, hmem⟩⟩

theorem alike_constructorValue? (h : d'.Redeclares d) {c c' : ClassInfo} (hc : Moved d d' c c')
    (property : String) : Alike (Option.Rel (SameValue d d')) (w.constructorValue? d c property)
      (w.constructorValue? d' c' property) := by
  unfold constructorValue?
  rw [hc.congr (fun c ↦ c.method? ClassDecl.constructorName) rfl, hc.congr ClassInfo.name rfl]
  split
  · simp only
    split
    · exact .pure (assigned?_sameValue h hc.origin _ _)
    · refine (alike_reflectFrom? h _).bind fun o o' ho ↦ ?_
      cases ho with
      | none => exact .pure .none
      | some ha => exact .pure (assigned?_sameValue h ha.origin _ _)
  · exact .pure .none

theorem alike_memberSource (h : d'.Redeclares d) (receiver : InferredType) (m : MemberUse) :
    Alike (SameSource d d') (w.memberSource d receiver m) (w.memberSource d' receiver m) := by
  cases m with
  | method name =>
    refine (alike_returnType h receiver name).bind fun t t' ht ↦ ?_
    exact .pure (ht ▸ .known t)
  | property name =>
    refine (alike_receiverClass? h receiver).bind fun o o' ho ↦ ?_
    cases ho with
    | none => exact .pure (.known _)
    | some hc =>
      simp only [hc.declaredPropertyType h]
      split
      · exact .pure (.known _)
      · refine (alike_constructorValue? h hc name).bind fun v v' hv ↦ ?_
        cases hv with
        | none => exact .pure (.known _)
        | some hv => exact .pure (.expr hv)

theorem exprType_of_continues (h : Continues d' d) (depth : Nat) {e : Expr}
    (he : .expr e ∈ d.nodes) : w.exprType depth d' e = w.exprType depth d e := by
  induction depth generalizing e with
  | zero => rfl
  | succ depth ih =>
    have hsource {source source' : TypeSource} (hs : SameSource d d' source source') :
        w.sourceType depth source' = w.sourceType depth source := by
      cases hs with
      | known t => rfl
      | expr hv =>
        obtain ⟨hvalue, hfirst | ⟨hfirst, hfirst', hmem⟩⟩ := hv
        · rw [hvalue, hfirst]
        · rw [hvalue, hfirst, hfirst']
          exact ih hmem
    cases hm : e.kind.memberUse? with
    | none =>
      rw [exprType_of_typeSource hm, exprType_of_typeSource hm]
      exact hsource (h.sameSource he)
    | some use =>
      rw [exprType_of_memberUse hm, exprType_of_memberUse hm,
        ih (Document.mem_nodes_of_mem_children he (Expr.mem_children_of_memberUse hm))]
      refine congrArg (w.exprType depth d use.1 >>= ·) (funext fun t ↦ Eq.symm (Alike.eq ?_))
      exact (alike_memberSource h.redeclares t use.2).bind fun source source' hs ↦
        hsource hs ▸ .refl _

end Workspace

theorem Span.Tiled.stop_le_start {lo hi : Nat} {ss ts : List Span} (h : Tiled lo hi (ss ++ ts))
    {s t : Span} (hs : s ∈ ss) (ht : t ∈ ts) : s.stop ≤ t.start := by
  induction ss generalizing lo with
  | nil => cases hs
  | cons u ss ih =>
    rcases List.mem_cons.mp hs with rfl | hs
    · exact (h.2.2.mem (List.mem_append_right _ ht)).1
    · exact ih h.2.2 hs

namespace Workspace

variable {w : Workspace} {d d' : Document} {later : List Stmt} {id : Nat} {uri : String}
  {source : List Char} {version : Int}

theorem continues_of_append (hparse : Document.parse id uri source version = .ok d')
    (hs : d'.statements = d.statements ++ later) (hl : ∀ s ∈ later, s.declares = false) :
    Continues d' d where
  redeclares := Document.redeclares_of_append hs hl
  bindingOf name e he := by
    obtain ⟨hi, _, hlaid⟩ := Document.laid_of_parse hparse
    have hnodes : d'.nodes = d.nodes ++ Stmt.nodes later := by
      rw [Document.nodes, hs, Stmt.nodes, Node.ofStmts, List.map_append, List.flatMap_append]
      rfl
    -- Every later node ends behind the reference, and so binds nothing for it.
    have hlate : ∀ n ∈ Stmt.nodes later, e.span.stop < n.span.stop := by
      intro n hn
      obtain ⟨t, ht, hn⟩ := List.mem_flatMap.mp hn
      obtain ⟨s, hs', he⟩ := List.mem_flatMap.mp he
      have hall : Node.ofStmts d'.statements = Node.ofStmts d.statements ++ Node.ofStmts later := by
        rw [hs, Node.ofStmts, List.map_append]
        rfl
      have hst : s.span.stop ≤ t.span.start := by
        have htiled := hlaid.tiled
        rw [hall, List.map_append] at htiled
        exact htiled.stop_le_start (List.mem_map_of_mem hs') (List.mem_map_of_mem ht)
      have hformed := hlaid.formed
      rw [hall] at hformed
      have hs := (hformed s (List.mem_append_left _ hs')).encloses_of_mem_walk _ he
      have ht := hformed t (List.mem_append_right _ ht)
      have htn := ht.encloses_of_mem_walk n hn
      have hn := (ht.of_mem_walk n hn).nonempty
      have hstop : (Node.expr e).span.stop = e.span.stop := rfl
      omega
    have hnone : (Stmt.nodes later).filter (fun n ↦
        n.binds name && n.span.stop ≤ e.span.stop && !n.span.encloses e.span) = [] := by
      rw [List.filter_eq_nil_iff]
      intro n hn hbinds
      simp only [Bool.and_eq_true, decide_eq_true_eq] at hbinds
      exact absurd (hlate n hn) (Nat.not_lt.mpr hbinds.1.2)
    rw [Document.bindingOf, hnodes, List.filter_append, hnone, List.append_nil]
    rfl

/-- No type changes when a file goes on behind its last statement, whatever is in the workspace and
whatever is remembered of it. The statements of a text follow one another, so that further ones
start where the last one has ended. -/
theorem infer_append (hparse : Document.parse id uri source version = .ok d')
    (hs : d'.statements = d.statements ++ later) (hl : ∀ s ∈ later, s.declares = false) {n : Node}
    (hn : n ∈ d.nodes) : w.infer d' n = w.infer d n := by
  have h := continues_of_append hparse hs hl
  cases n with
  | expr e => exact exprType_of_continues h _ hn
  | name n => simp only [infer, nodeType, h.redeclares.classNameType]
  | type t => simp only [infer, nodeType, h.redeclares.typeHintType]
  | param p => simp only [infer, nodeType, h.redeclares.typeHintType]
  | _ => rfl

def reused : List Char :=
  ("<?php class A{var $x; function __construct(){$v=new A;$this->x=$v;}} $a=new A;$a->x;" ++
    "$v=1; $a=$v;").toList

/-- A document, the same without the statements that give both of its variables another value, and
the property that the constructor sets to one of them. -/
def outlived : Option (Document × Document × Node) := do
  let d' ← (Document.parse 0 "a.php" reused 0).toOption
  let d := { d' with statements := d'.statements.take 3 }
  return (d', d, ← d.nodes.reverse[1]?)

theorem infer_append_outlived :
    ∃ d' d later n, outlived = some (d', d, n) ∧ Document.parse 0 "a.php" reused 0 = .ok d' ∧
      d'.statements = d.statements ++ later ∧ later.length = 2 ∧
      (∀ s ∈ later, s.declares = false) ∧ n ∈ d.nodes ∧
      ((({} : Workspace).infer d n).run {}).1 = .class "A" ∧
      ({} : Workspace).infer d' n = ({} : Workspace).infer d n := by
  have hfound : outlived.map (fun (d', d, n) ↦ ((d'.statements.drop 3).map Stmt.declares,
      ((({} : Workspace).infer d n).run {}).1)) = some ([false, false], .class "A") := by
    decide +kernel
  obtain ⟨⟨d', d, n⟩, houtlived, hfound⟩ := Option.map_eq_some_iff.mp hfound
  obtain ⟨hdeclares, htype⟩ := Prod.mk.inj hfound
  have hunfold := houtlived
  simp only [outlived, Option.bind_eq_bind, Option.bind_eq_some_iff] at hunfold
  obtain ⟨d'', hd, n', hn, he⟩ := hunfold
  cases he
  have hparse : Document.parse 0 "a.php" reused 0 = .ok d' := by
    cases hp : Document.parse 0 "a.php" reused 0 with
    | error e =>
      rw [hp] at hd
      cases hd
    | ok d'' =>
      rw [hp] at hd
      cases hd
      rfl
  have hs : d'.statements = d'.statements.take 3 ++ d'.statements.drop 3 :=
    (List.take_append_drop 3 d'.statements).symm
  have hlength : (d'.statements.drop 3).length = 2 := by
    simpa using congrArg List.length hdeclares
  have hl : ∀ s ∈ d'.statements.drop 3, s.declares = false := by
    intro s hs
    have hmem := List.mem_map_of_mem (f := Stmt.declares) hs
    rw [hdeclares] at hmem
    simpa using hmem
  have hmem := List.mem_reverse.mp (List.mem_of_getElem? hn)
  exact ⟨d', _, _, n, houtlived, hparse, hs, hlength, hl, hmem, htype,
    infer_append hparse hs hl hmem⟩

end Workspace

end PhpInsight

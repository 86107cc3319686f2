import Mathlib.Data.List.Forall2
import Mathlib.Data.List.Flatten
import PhpInsight.Tree.Node

namespace PhpInsight

/-- What relates the places and texts of one tree to those of another one. -/
structure Likeness where
  position : Nat → Nat → Prop
  /-- The texts of literals and of names. -/
  text : String → String → Prop
  /-- The texts of member names, which are kept as they are written where they are computed. -/
  written : String → String → Prop
  /-- A text of the first source and the span it stands in. -/
  quotes : List Char → Span → Prop
  doc : Option String → Option String → Prop
  text_refl (w : String) : text w w
  written_of_text {w w' : String} : text w w' → written w w'
  doc_none : doc none none

def Likeness.shape : Likeness where
  position _ _ := True
  text _ _ := True
  written _ _ := True
  quotes _ _ := True
  doc _ _ := True
  text_refl _ := trivial
  written_of_text h := h
  doc_none := trivial

/-- The same for names that are kept as they are written. -/
def Likeness.asWritten (L : Likeness) : Likeness where
  position := L.position
  text := L.written
  written := L.written
  quotes := L.quotes
  doc := L.doc
  text_refl w := L.written_of_text (L.text_refl w)
  written_of_text h := h
  doc_none := L.doc_none

def Likeness.spans (L : Likeness) (s t : Span) : Prop :=
  L.position s.start t.start ∧ L.position s.stop t.stop

section

variable (L : Likeness)

/-- Two identifiers, in front of which a sign stands that belongs to the span. -/
structure Identifier.Like (sign : List Char) (i i' : Identifier) : Prop where
  name : L.text i.name i'.name
  span : L.spans i.span i'.span
  quotes : L.quotes (sign ++ i.name.toList) i.span

theorem Identifier.Like.asWritten {L : Likeness} {sign : List Char} {i i' : Identifier}
    (h : i.Like L sign i') : i.Like L.asWritten sign i' where
  name := L.written_of_text h.name
  span := h.span
  quotes := h.quotes

structure Name.Like (n n' : Name) : Prop where
  parts : n.parts = n'.parts
  kind : n.kind = n'.kind
  span : L.spans n.span n'.span
  quotes : L.quotes n.display.toList n.span
  single : n.isUnqualified = true → n.display = n.last

inductive SimpleType.Like : SimpleType → SimpleType → Prop
  | builtin {k k' : Identifier} (keyword : k.Like L [] k') : Like (.builtin k) (.builtin k')
  | named {n n' : Name} (name : n.Like L n') : Like (.named n) (.named n')

inductive TypeHint.Like : TypeHint → TypeHint → Prop
  | simple {t t' : SimpleType} (type : t.Like L t') : Like (.simple t) (.simple t')
  | nullable {t t' : SimpleType} {s s' : Span} (inner : t.Like L t') (span : L.spans s s') :
    Like (.nullable t s) (.nullable t' s')
  | union {ts ts' : List SimpleType} {s s' : Span}
    (members : List.Forall₂ (SimpleType.Like L) ts ts') (span : L.spans s s') :
    Like (.union ts s) (.union ts' s')

/-- The name of an import need not stand anywhere as one text. -/
structure UseItem.Like (u u' : UseItem) : Prop where
  parts : u.name.parts = u'.name.parts
  kind : u.name.kind = u'.name.kind
  nameSpan : L.spans u.name.span u'.name.span
  aliasName : Option.Rel (Identifier.Like L []) u.aliasName u'.aliasName
  span : L.spans u.span u'.span

structure ClosureUse.Like (u u' : ClosureUse) : Prop where
  name : u.name.Like L ['$'] u'.name
  byRef : u.byRef = u'.byRef

end

mutual

inductive Expr.Like (L : Likeness) : Expr → Expr → Prop
  | mk {k k' : ExprKind} {s s' : Span} (kind : ExprKind.Like L k k') (span : L.spans s s') :
    Expr.Like L ⟨k, s⟩ ⟨k', s'⟩

inductive ExprKind.Like (L : Likeness) : ExprKind → ExprKind → Prop
  | variable {v v' : String} (name : L.text v v') : ExprKind.Like L (.variable v) (.variable v')
  | assign {t t' v v' : Expr} {byRef : Bool} (target : Expr.Like L t t')
    (value : Expr.Like L v v') :
    ExprKind.Like L (.assign t v byRef) (.assign t' v' byRef)
  | compoundAssign {t t' v v' : Expr} {op : BinaryOp} (target : Expr.Like L t t')
    (value : Expr.Like L v v') : ExprKind.Like L (.compoundAssign op t v) (.compoundAssign op t' v')
  | new {t t' : ClassRef} {as as' : List Argument} (target : ClassRef.Like L t t')
    (args : List.Forall₂ (Argument.Like L) as as') : ExprKind.Like L (.new t as) (.new t' as')
  | methodCall {r r' : Expr} {i i' : Identifier} {as as' : List Argument} {nullsafe : Bool}
    (receiver : Expr.Like L r r') (name : i.Like L.asWritten [] i')
    (args : List.Forall₂ (Argument.Like L) as as') :
    ExprKind.Like L (.methodCall r i as nullsafe) (.methodCall r' i' as' nullsafe)
  | propertyFetch {r r' : Expr} {i i' : Identifier} {nullsafe : Bool}
    (receiver : Expr.Like L r r') (name : i.Like L.asWritten [] i') :
    ExprKind.Like L (.propertyFetch r i nullsafe) (.propertyFetch r' i' nullsafe)
  | staticCall {t t' : ClassRef} {i i' : Identifier} {as as' : List Argument}
    (target : ClassRef.Like L t t') (name : i.Like L [] i')
    (args : List.Forall₂ (Argument.Like L) as as') :
    ExprKind.Like L (.staticCall t i as) (.staticCall t' i' as')
  | staticPropertyFetch {t t' : ClassRef} {i i' : Identifier} (target : ClassRef.Like L t t')
    (name : i.Like L ['$'] i') :
    ExprKind.Like L (.staticPropertyFetch t i) (.staticPropertyFetch t' i')
  | classConstFetch {t t' : ClassRef} {i i' : Identifier} (target : ClassRef.Like L t t')
    (name : i.Like L [] i') : ExprKind.Like L (.classConstFetch t i) (.classConstFetch t' i')
  | functionCall {n n' : Name} {as as' : List Argument} (name : n.Like L n')
    (args : List.Forall₂ (Argument.Like L) as as') :
    ExprKind.Like L (.functionCall n as) (.functionCall n' as')
  | invoke {e e' : Expr} {as as' : List Argument} (callee : Expr.Like L e e')
    (args : List.Forall₂ (Argument.Like L) as as') :
    ExprKind.Like L (.invoke e as) (.invoke e' as')
  | constFetch {n n' : Name} (name : n.Like L n') :
    ExprKind.Like L (.constFetch n) (.constFetch n')
  | string {v v' : String} (value : L.text v v') : ExprKind.Like L (.string v) (.string v')
  | number {v v' : String} (value : L.text v v') : ExprKind.Like L (.number v) (.number v')
  | array {is is' : List ArrayItem} (items : List.Forall₂ (ArrayItem.Like L) is is') :
    ExprKind.Like L (.array is) (.array is')
  | arrayDimFetch {e e' : Expr} {o o' : Option Expr} (array : Expr.Like L e e')
    (index : Option.Rel (Expr.Like L) o o') :
    ExprKind.Like L (.arrayDimFetch e o) (.arrayDimFetch e' o')
  | binary {op : BinaryOp} {l l' r r' : Expr} (left : Expr.Like L l l')
    (right : Expr.Like L r r') : ExprKind.Like L (.binary op l r) (.binary op l' r')
  | unary {op : UnaryOp} {e e' : Expr} (operand : Expr.Like L e e') :
    ExprKind.Like L (.unary op e) (.unary op e')
  | ternary {c c' a a' : Expr} {o o' : Option Expr} (condition : Expr.Like L c c')
    (consequent : Option.Rel (Expr.Like L) o o') (alternative : Expr.Like L a a') :
    ExprKind.Like L (.ternary c o a) (.ternary c' o' a')
  | instanceOf {e e' : Expr} {t t' : ClassRef} (expr : Expr.Like L e e')
    (target : ClassRef.Like L t t') : ExprKind.Like L (.instanceOf e t) (.instanceOf e' t')
  | cast {type : String} {e e' : Expr} (expr : Expr.Like L e e') :
    ExprKind.Like L (.cast type e) (.cast type e')
  | clone {e e' : Expr} (expr : Expr.Like L e e') : ExprKind.Like L (.clone e) (.clone e')
  | throw {e e' : Expr} (expr : Expr.Like L e e') : ExprKind.Like L (.throw e) (.throw e')
  | include {e e' : Expr} (expr : Expr.Like L e e') : ExprKind.Like L (.include e) (.include e')
  | isset {es es' : List Expr} (items : List.Forall₂ (Expr.Like L) es es') :
    ExprKind.Like L (.isset es) (.isset es')
  | empty {e e' : Expr} (expr : Expr.Like L e e') : ExprKind.Like L (.empty e) (.empty e')
  | closure {isStatic byRef : Bool} {ps ps' : List Param} {us us' : List ClosureUse}
    {t t' : Option TypeHint} {b b' : List Stmt} (params : List.Forall₂ (Param.Like L) ps ps')
    (uses : List.Forall₂ (ClosureUse.Like L) us us')
    (returnType : Option.Rel (TypeHint.Like L) t t') (body : List.Forall₂ (Stmt.Like L) b b') :
    ExprKind.Like L (.closure isStatic byRef ps us t b) (.closure isStatic byRef ps' us' t' b')
  | arrowFunction {isStatic byRef : Bool} {ps ps' : List Param} {t t' : Option TypeHint}
    {b b' : Expr} (params : List.Forall₂ (Param.Like L) ps ps')
    (returnType : Option.Rel (TypeHint.Like L) t t') (body : Expr.Like L b b') :
    ExprKind.Like L (.arrowFunction isStatic byRef ps t b) (.arrowFunction isStatic byRef ps' t' b')

inductive ClassRef.Like (L : Likeness) : ClassRef → ClassRef → Prop
  | named {n n' : Name} (name : n.Like L n') : ClassRef.Like L (.named n) (.named n')
  | dynamic {e e' : Expr} (expr : Expr.Like L e e') : ClassRef.Like L (.dynamic e) (.dynamic e')

inductive Argument.Like (L : Likeness) : Argument → Argument → Prop
  | mk {e e' : Expr} {spread : Bool} {o o' : Option Identifier} (value : Expr.Like L e e')
    (name : Option.Rel (Identifier.Like L []) o o') :
    Argument.Like L ⟨e, spread, o⟩ ⟨e', spread, o'⟩

inductive ArrayItem.Like (L : Likeness) : ArrayItem → ArrayItem → Prop
  | mk {o o' : Option Expr} {e e' : Expr} {byRef spread : Bool}
    (key : Option.Rel (Expr.Like L) o o') (value : Expr.Like L e e') :
    ArrayItem.Like L ⟨o, e, byRef, spread⟩ ⟨o', e', byRef, spread⟩

inductive Param.Like (L : Likeness) : Param → Param → Prop
  | mk {i i' : Identifier} {t t' : Option TypeHint} {o o' : Option Expr} {byRef variadic : Bool}
    {promoted : Option Modifiers} {s s' : Span} (name : i.Like L ['$'] i')
    (typeHint : Option.Rel (TypeHint.Like L) t t') (default : Option.Rel (Expr.Like L) o o')
    (span : L.spans s s') :
    Param.Like L ⟨i, t, o, byRef, variadic, promoted, s⟩ ⟨i', t', o', byRef, variadic, promoted, s'⟩

inductive Stmt.Like (L : Likeness) : Stmt → Stmt → Prop
  | mk {k k' : StmtKind} {s s' : Span} (kind : StmtKind.Like L k k') (span : L.spans s s') :
    Stmt.Like L ⟨k, s⟩ ⟨k', s'⟩

inductive StmtKind.Like (L : Likeness) : StmtKind → StmtKind → Prop
  | namespace {n n' : Option Name} {b b' : Option (List Stmt)}
    (name : Option.Rel (Name.Like L) n n')
    (body : Option.Rel (List.Forall₂ (Stmt.Like L)) b b') :
    StmtKind.Like L (.namespace n b) (.namespace n' b')
  | use {kind : UseKind} {us us' : List UseItem} (items : List.Forall₂ (UseItem.Like L) us us') :
    StmtKind.Like L (.use kind us) (.use kind us')
  | classLike {d d' : ClassDecl} (decl : ClassDecl.Like L d d') :
    StmtKind.Like L (.classLike d) (.classLike d')
  | function {d d' : FunctionDecl} (decl : FunctionDecl.Like L d d') :
    StmtKind.Like L (.function d) (.function d')
  | const {is is' : List ConstItem} (items : List.Forall₂ (ConstItem.Like L) is is') :
    StmtKind.Like L (.const is) (.const is')
  | expression {e e' : Expr} (expr : Expr.Like L e e') :
    StmtKind.Like L (.expression e) (.expression e')
  | return {o o' : Option Expr} (value : Option.Rel (Expr.Like L) o o') :
    StmtKind.Like L (.return o) (.return o')
  | echo {es es' : List Expr} (values : List.Forall₂ (Expr.Like L) es es') :
    StmtKind.Like L (.echo es) (.echo es')
  | if {c c' : Expr} {b b' : List Stmt} {is is' : List ElseIf} {o o' : Option (List Stmt)}
    (condition : Expr.Like L c c') (consequent : List.Forall₂ (Stmt.Like L) b b')
    (elseIfs : List.Forall₂ (ElseIf.Like L) is is')
    (otherwise : Option.Rel (List.Forall₂ (Stmt.Like L)) o o') :
    StmtKind.Like L (.if c b is o) (.if c' b' is' o')
  | while {c c' : Expr} {b b' : List Stmt} (condition : Expr.Like L c c')
    (body : List.Forall₂ (Stmt.Like L) b b') : StmtKind.Like L (.while c b) (.while c' b')
  | doWhile {c c' : Expr} {b b' : List Stmt} (body : List.Forall₂ (Stmt.Like L) b b')
    (condition : Expr.Like L c c') : StmtKind.Like L (.doWhile b c) (.doWhile b' c')
  | for {is is' cs cs' ts ts' : List Expr} {b b' : List Stmt}
    (init : List.Forall₂ (Expr.Like L) is is') (condition : List.Forall₂ (Expr.Like L) cs cs')
    (step : List.Forall₂ (Expr.Like L) ts ts') (body : List.Forall₂ (Stmt.Like L) b b') :
    StmtKind.Like L (.for is cs ts b) (.for is' cs' ts' b')
  | foreach {e e' v v' : Expr} {o o' : Option Expr} {b b' : List Stmt} (subject : Expr.Like L e e')
    (key : Option.Rel (Expr.Like L) o o') (value : Expr.Like L v v')
    (body : List.Forall₂ (Stmt.Like L) b b') :
    StmtKind.Like L (.foreach e o v b) (.foreach e' o' v' b')
  | switch {e e' : Expr} {cs cs' : List Case} (subject : Expr.Like L e e')
    (cases : List.Forall₂ (Case.Like L) cs cs') : StmtKind.Like L (.switch e cs) (.switch e' cs')
  | try {b b' : List Stmt} {cs cs' : List Catch} {o o' : Option (List Stmt)}
    (body : List.Forall₂ (Stmt.Like L) b b') (catches : List.Forall₂ (Catch.Like L) cs cs')
    (cleanup : Option.Rel (List.Forall₂ (Stmt.Like L)) o o') :
    StmtKind.Like L (.try b cs o) (.try b' cs' o')
  | block {b b' : List Stmt} (body : List.Forall₂ (Stmt.Like L) b b') :
    StmtKind.Like L (.block b) (.block b')
  | global {is is' : List Identifier} (names : List.Forall₂ (Identifier.Like L ['$']) is is') :
    StmtKind.Like L (.global is) (.global is')
  | static {vs vs' : List StaticVar} (vars : List.Forall₂ (StaticVar.Like L) vs vs') :
    StmtKind.Like L (.static vs) (.static vs')
  | break : StmtKind.Like L .break .break
  | continue : StmtKind.Like L .continue .continue
  | nop : StmtKind.Like L .nop .nop

inductive ElseIf.Like (L : Likeness) : ElseIf → ElseIf → Prop
  | mk {c c' : Expr} {b b' : List Stmt} (condition : Expr.Like L c c')
    (body : List.Forall₂ (Stmt.Like L) b b') : ElseIf.Like L ⟨c, b⟩ ⟨c', b'⟩

inductive Case.Like (L : Likeness) : Case → Case → Prop
  | mk {o o' : Option Expr} {b b' : List Stmt} (condition : Option.Rel (Expr.Like L) o o')
    (body : List.Forall₂ (Stmt.Like L) b b') : Case.Like L ⟨o, b⟩ ⟨o', b'⟩

inductive Catch.Like (L : Likeness) : Catch → Catch → Prop
  | mk {ns ns' : List Name} {o o' : Option Identifier} {b b' : List Stmt}
    (types : List.Forall₂ (Name.Like L) ns ns')
    (binding : Option.Rel (Identifier.Like L ['$']) o o') (body : List.Forall₂ (Stmt.Like L) b b') :
    Catch.Like L ⟨ns, o, b⟩ ⟨ns', o', b'⟩

inductive StaticVar.Like (L : Likeness) : StaticVar → StaticVar → Prop
  | mk {i i' : Identifier} {o o' : Option Expr} (name : i.Like L ['$'] i')
    (default : Option.Rel (Expr.Like L) o o') : StaticVar.Like L ⟨i, o⟩ ⟨i', o'⟩

inductive ConstItem.Like (L : Likeness) : ConstItem → ConstItem → Prop
  | mk {i i' : Identifier} {e e' : Expr} (name : i.Like L [] i') (value : Expr.Like L e e') :
    ConstItem.Like L ⟨i, e⟩ ⟨i', e'⟩

inductive ClassDecl.Like (L : Likeness) : ClassDecl → ClassDecl → Prop
  | mk {kind : ClassKind} {i i' : Identifier} {mods : Modifiers} {ps ps' ns ns' : List Name}
    {ms ms' : List Member} {o o' : Option String} (name : i.Like L [] i')
    (parents : List.Forall₂ (Name.Like L) ps ps') (interfaces : List.Forall₂ (Name.Like L) ns ns')
    (members : List.Forall₂ (Member.Like L) ms ms') (doc : L.doc o o') :
    ClassDecl.Like L ⟨kind, i, mods, ps, ns, ms, o⟩ ⟨kind, i', mods, ps', ns', ms', o'⟩

inductive FunctionDecl.Like (L : Likeness) : FunctionDecl → FunctionDecl → Prop
  | mk {i i' : Identifier} {byRef : Bool} {ps ps' : List Param} {t t' : Option TypeHint}
    {b b' : List Stmt} {o o' : Option String} (name : i.Like L [] i')
    (params : List.Forall₂ (Param.Like L) ps ps') (returnType : Option.Rel (TypeHint.Like L) t t')
    (body : List.Forall₂ (Stmt.Like L) b b') (doc : L.doc o o') :
    FunctionDecl.Like L ⟨i, byRef, ps, t, b, o⟩ ⟨i', byRef, ps', t', b', o'⟩

inductive Member.Like (L : Likeness) : Member → Member → Prop
  | mk {k k' : MemberKind} {s s' : Span} {o o' : Option String} (kind : MemberKind.Like L k k')
    (span : L.spans s s') (doc : L.doc o o') : Member.Like L ⟨k, s, o⟩ ⟨k', s', o'⟩

inductive MemberKind.Like (L : Likeness) : MemberKind → MemberKind → Prop
  | property {mods : Modifiers} {t t' : Option TypeHint} {is is' : List PropertyItem}
    (typeHint : Option.Rel (TypeHint.Like L) t t')
    (items : List.Forall₂ (PropertyItem.Like L) is is') :
    MemberKind.Like L (.property mods t is) (.property mods t' is')
  | method {d d' : MethodDecl} (decl : MethodDecl.Like L d d') :
    MemberKind.Like L (.method d) (.method d')
  | constant {mods : Modifiers} {is is' : List ConstItem}
    (items : List.Forall₂ (ConstItem.Like L) is is') :
    MemberKind.Like L (.constant mods is) (.constant mods is')
  | traitUse {ns ns' : List Name} (names : List.Forall₂ (Name.Like L) ns ns') :
    MemberKind.Like L (.traitUse ns) (.traitUse ns')

inductive PropertyItem.Like (L : Likeness) : PropertyItem → PropertyItem → Prop
  | mk {i i' : Identifier} {o o' : Option Expr} {s s' : Span} (name : i.Like L ['$'] i')
    (default : Option.Rel (Expr.Like L) o o') (span : L.spans s s') :
    PropertyItem.Like L ⟨i, o, s⟩ ⟨i', o', s'⟩

inductive MethodDecl.Like (L : Likeness) : MethodDecl → MethodDecl → Prop
  | mk {mods : Modifiers} {i i' : Identifier} {byRef : Bool} {ps ps' : List Param}
    {t t' : Option TypeHint} {b b' : Option (List Stmt)} (name : i.Like L [] i')
    (params : List.Forall₂ (Param.Like L) ps ps') (returnType : Option.Rel (TypeHint.Like L) t t')
    (body : Option.Rel (List.Forall₂ (Stmt.Like L)) b b') :
    MethodDecl.Like L ⟨mods, i, byRef, ps, t, b⟩ ⟨mods, i', byRef, ps', t', b'⟩

end

section

variable {L : Likeness} {e e' : Expr}

theorem Expr.Like.kind (h : e.Like L e') : e.kind.Like L e'.kind := by
  cases h with
  | mk kind _ => exact kind

theorem Expr.Like.span (h : e.Like L e') : L.spans e.span e'.span := by
  cases h with
  | mk _ span => exact span

theorem ExprKind.Like.constFetch_or {k k' : ExprKind} (h : k.Like L k') :
    (∃ n n', k = .constFetch n ∧ k' = .constFetch n' ∧ n.Like L n') ∨
      (∀ n, k ≠ .constFetch n) ∧ ∀ n, k' ≠ .constFetch n := by
  cases h with
  | @constFetch n n' name => exact .inl ⟨n, n', rfl, rfl, name⟩
  | _ => exact .inr ⟨fun _ ↦ nofun, fun _ ↦ nofun⟩

end

inductive Node.Like (L : Likeness) : Node → Node → Prop
  | stmt {s s' : Stmt} (h : s.Like L s') : Node.Like L (.stmt s) (.stmt s')
  | expr {e e' : Expr} (h : e.Like L e') : Node.Like L (.expr e) (.expr e')
  | param {p p' : Param} (h : p.Like L p') : Node.Like L (.param p) (.param p')
  | member {m m' : Member} (h : m.Like L m') : Node.Like L (.member m) (.member m')
  | name {n n' : Name} (h : n.Like L n') : Node.Like L (.name n) (.name n')
  | type {t t' : TypeHint} (h : t.Like L t') : Node.Like L (.type t) (.type t')

open Node

variable {L : Likeness}

theorem isSome_eq {α : Type} {R : α → α → Prop} {o o' : Option α} (h : Option.Rel R o o') :
    o.isSome = o'.isSome := by
  cases h <;> rfl

theorem forall₂_toList {α : Type} {R : α → α → Prop} {o o' : Option α} (h : Option.Rel R o o') :
    List.Forall₂ R o.toList o'.toList := by
  cases h with
  | none => exact .nil
  | some h => exact .cons h .nil

theorem forall₂_getD {α : Type} {R : α → α → Prop} {o o' : Option (List α)}
    (h : Option.Rel (List.Forall₂ R) o o') : List.Forall₂ R (o.getD []) (o'.getD []) := by
  cases h with
  | none => exact .nil
  | some h => exact h

namespace Node.Like

theorem ofExprs {es es' : List Expr} (h : List.Forall₂ (Expr.Like L) es es') :
    List.Forall₂ (Node.Like L) (ofExprs es) (Node.ofExprs es') :=
  List.rel_map (fun _ _ ↦ .expr) h

theorem ofStmts {ss ss' : List Stmt} (h : List.Forall₂ (Stmt.Like L) ss ss') :
    List.Forall₂ (Node.Like L) (ofStmts ss) (Node.ofStmts ss') :=
  List.rel_map (fun _ _ ↦ .stmt) h

theorem ofNames {ns ns' : List Name} (h : List.Forall₂ (Name.Like L) ns ns') :
    List.Forall₂ (Node.Like L) (ofNames ns) (Node.ofNames ns') :=
  List.rel_map (fun _ _ ↦ .name) h

theorem ofParams {ps ps' : List Param} (h : List.Forall₂ (Param.Like L) ps ps') :
    List.Forall₂ (Node.Like L) (ofParams ps) (Node.ofParams ps') :=
  List.rel_map (fun _ _ ↦ .param) h

theorem ofType? {t t' : Option TypeHint} (h : Option.Rel (TypeHint.Like L) t t') :
    List.Forall₂ (Node.Like L) (ofType? t) (Node.ofType? t') :=
  List.rel_map (fun _ _ ↦ .type) (forall₂_toList h)

theorem ofArgs {as as' : List Argument} (h : List.Forall₂ (Argument.Like L) as as') :
    List.Forall₂ (Node.Like L) (ofArgs as) (Node.ofArgs as') :=
  List.rel_map (fun _ _ h ↦ by cases h with | mk value _ => exact .expr value) h

theorem classRef {c c' : ClassRef} (h : c.Like L c') : Node.Like L c.node c'.node := by
  cases h with
  | named h => exact .name h
  | dynamic h => exact .expr h

end Node.Like

section

open Node.Like
open List (rel_append rel_flatMap rel_map)

theorem TypeHint.Like.children {t t' : TypeHint} (h : t.Like L t') :
    List.Forall₂ (Node.Like L) t.children t'.children := by
  cases h with
  | simple h =>
    cases h with
    | builtin => exact .nil
    | named h => exact .cons (.name h) .nil
  | nullable h => exact .cons (.type (.simple h)) .nil
  | union h => exact rel_map (fun _ _ h ↦ .type (.simple h)) h

theorem Param.Like.children {p p' : Param} (h : p.Like L p') :
    List.Forall₂ (Node.Like L) p.children p'.children := by
  cases h with
  | mk _ typeHint default => exact rel_append (ofType? typeHint) (ofExprs (forall₂_toList default))

theorem ArrayItem.Like.children {i i' : ArrayItem} (h : i.Like L i') :
    List.Forall₂ (Node.Like L) i.children i'.children := by
  cases h with
  | mk key value => exact ofExprs (rel_append (forall₂_toList key) (.cons value .nil))

theorem ExprKind.Like.children {k k' : ExprKind} (h : k.Like L k') :
    List.Forall₂ (Node.Like L) k.children k'.children := by
  cases h with
  | «variable» | string | number => exact .nil
  | constFetch name => exact .cons (.name name) .nil
  | assign a b | compoundAssign a b | binary a b => exact ofExprs (.cons a (.cons b .nil))
  | new target args | staticCall target _ args => exact .cons (classRef target) (ofArgs args)
  | methodCall e _ args | invoke e args => exact .cons (.expr e) (ofArgs args)
  | propertyFetch e => exact .cons (.expr e) .nil
  | staticPropertyFetch target | classConstFetch target => exact .cons (classRef target) .nil
  | functionCall name args => exact .cons (.name name) (ofArgs args)
  | array items => exact rel_flatMap items fun _ _ h ↦ h.children
  | arrayDimFetch array index => exact ofExprs (.cons array (forall₂_toList index))
  | unary e | cast e | clone e | throw e | «include» e | empty e => exact .cons (.expr e) .nil
  | ternary condition consequent alternative =>
    have hbranches := rel_append (forall₂_toList consequent) (.cons alternative .nil)
    exact ofExprs (.cons condition hbranches)
  | instanceOf e target => exact .cons (.expr e) (.cons (classRef target) .nil)
  | isset items => exact ofExprs items
  | closure params _ returnType body =>
    exact rel_append (rel_append (ofParams params) (ofType? returnType)) (ofStmts body)
  | arrowFunction params returnType body =>
    exact rel_append (rel_append (ofParams params) (ofType? returnType)) (.cons (.expr body) .nil)

theorem forall₂_constItems {is is' : List ConstItem} (h : List.Forall₂ (ConstItem.Like L) is is') :
    List.Forall₂ (Node.Like L) (is.map fun i ↦ .expr i.value) (is'.map fun i ↦ .expr i.value) :=
  rel_map (fun _ _ h ↦ by cases h with | mk _ value => exact .expr value) h

theorem MemberKind.Like.children {k k' : MemberKind} (h : k.Like L k') :
    List.Forall₂ (Node.Like L) k.children k'.children := by
  cases h with
  | property typeHint items =>
    refine rel_append (ofType? typeHint) (rel_flatMap items fun _ _ h ↦ ?_)
    cases h with
    | mk _ default => exact ofExprs (forall₂_toList default)
  | method decl =>
    cases decl with
    | mk _ params returnType body =>
      exact rel_append (rel_append (ofParams params) (ofType? returnType))
        (ofStmts (forall₂_getD body))
  | constant items => exact forall₂_constItems items
  | traitUse names => exact ofNames names

theorem StmtKind.Like.children {k k' : StmtKind} (h : k.Like L k') :
    List.Forall₂ (Node.Like L) k.children k'.children := by
  cases h with
  | «namespace» _ body => exact ofStmts (forall₂_getD body)
  | use | global | «break» | «continue» | nop => exact .nil
  | classLike decl =>
    cases decl with
    | mk _ parents interfaces members =>
      exact rel_append (rel_append (ofNames parents) (ofNames interfaces))
        (rel_map (fun _ _ ↦ .member) members)
  | function decl =>
    cases decl with
    | mk _ params returnType body =>
      exact rel_append (rel_append (ofParams params) (ofType? returnType)) (ofStmts body)
  | const items => exact forall₂_constItems items
  | expression e => exact .cons (.expr e) .nil
  | «return» value => exact ofExprs (forall₂_toList value)
  | echo values => exact ofExprs values
  | «if» condition consequent elseIfs otherwise =>
    refine rel_append (rel_append (.cons (.expr condition) (ofStmts consequent))
      (rel_flatMap elseIfs fun _ _ h ↦ ?_)) (ofStmts (forall₂_getD otherwise))
    cases h with
    | mk condition body => exact .cons (.expr condition) (ofStmts body)
  | «while» condition body => exact .cons (.expr condition) (ofStmts body)
  | doWhile body condition => exact rel_append (ofStmts body) (.cons (.expr condition) .nil)
  | «for» init condition step body =>
    exact rel_append (rel_append (rel_append (ofExprs init) (ofExprs condition)) (ofExprs step))
      (ofStmts body)
  | foreach subject key value body =>
    exact rel_append (ofExprs (.cons subject (rel_append (forall₂_toList key) (.cons value .nil))))
      (ofStmts body)
  | switch subject cases =>
    refine .cons (.expr subject) (rel_flatMap cases fun _ _ h ↦ ?_)
    cases h with
    | mk condition body => exact rel_append (ofExprs (forall₂_toList condition)) (ofStmts body)
  | «try» body catches cleanup =>
    refine rel_append (rel_append (ofStmts body) (rel_flatMap catches fun _ _ h ↦ ?_))
      (ofStmts (forall₂_getD cleanup))
    cases h with
    | mk types _ body => exact rel_append (ofNames types) (ofStmts body)
  | block body => exact ofStmts body
  | static vars =>
    refine rel_flatMap vars fun _ _ h ↦ ?_
    cases h with
    | mk _ default => exact ofExprs (forall₂_toList default)

end

namespace Node.Like

theorem children {n n' : Node} (h : n.Like L n') :
    List.Forall₂ (Node.Like L) n.children n'.children := by
  cases h with
  | stmt h => cases h with | mk kind _ => exact kind.children
  | expr h => cases h with | mk kind _ => exact kind.children
  | param h => exact h.children
  | member h => cases h with | mk kind _ _ => exact kind.children
  | name => exact .nil
  | type h => exact h.children

theorem walk {n n' : Node} (h : n.Like L n') : List.Forall₂ (Node.Like L) n.walk n'.walk := by
  induction n using Node.induction generalizing n' with
  | step n ih =>
    rw [walk_eq n, walk_eq n']
    have hchildren : List.Forall₂ (fun m m' ↦ m ∈ n.children ∧ m.Like L m')
        n.children n'.children :=
      (List.forall₂_and_left _ _).mpr ⟨fun _ hm ↦ hm, h.children⟩
    exact .cons h (List.rel_flatMap hchildren fun m m' hm ↦ ih m hm.1 hm.2)

end Node.Like

theorem Stmt.nodes_like {ss ss' : List Stmt} (h : List.Forall₂ (Stmt.Like L) ss ss') :
    List.Forall₂ (Node.Like L) (Stmt.nodes ss) (Stmt.nodes ss') :=
  List.rel_flatMap (Node.Like.ofStmts h) fun _ _ h ↦ h.walk

end PhpInsight

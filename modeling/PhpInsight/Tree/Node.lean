import PhpInsight.Tree

namespace PhpInsight

/-- One view of all the nodes of a tree. Whatever visits a tree goes through the children of its
nodes, which are in the order of the source. -/
inductive Node
  | stmt (s : Stmt)
  | expr (e : Expr)
  | param (p : Param)
  | member (m : Member)
  | name (n : Name)
  | type (t : TypeHint)

inductive NodeKind
  | stmt | expr | param | member | name | type
  deriving DecidableEq, Inhabited

namespace Node

def kind : Node → NodeKind
  | stmt _ => .stmt
  | expr _ => .expr
  | param _ => .param
  | member _ => .member
  | name _ => .name
  | type _ => .type

def span : Node → Span
  | stmt s => s.span
  | expr e => e.span
  | param p => p.span
  | member m => m.span
  | name n => n.span
  | type t => t.span

def ofExprs (es : List Expr) : List Node := es.map expr

def ofStmts (ss : List Stmt) : List Node := ss.map stmt

def ofNames (ns : List Name) : List Node := ns.map name

def ofParams (ps : List Param) : List Node := ps.map param

def ofType? (t : Option TypeHint) : List Node := t.toList.map type

def ofArgs (as : List Argument) : List Node := as.map fun a ↦ expr a.value

end Node

open Node

def ClassRef.node : ClassRef → Node
  | named n => .name n
  | dynamic e => .expr e

def ArrayItem.children (i : ArrayItem) : List Node := ofExprs (i.key.toList ++ [i.value])

def Param.children (p : Param) : List Node := ofType? p.typeHint ++ ofExprs p.default.toList

def SimpleType.children : SimpleType → List Node
  | builtin _ => []
  | named n => [.name n]

def TypeHint.children : TypeHint → List Node
  | simple t => t.children
  | nullable t _ => [.type (.simple t)]
  | union ts _ => ts.map fun t ↦ .type (.simple t)

def ExprKind.children : ExprKind → List Node
  | .variable _ | .string _ | .number _ => []
  | .constFetch n => [.name n]
  | .assign target value _ | .compoundAssign _ target value => ofExprs [target, value]
  | .new target args | .staticCall target _ args => target.node :: ofArgs args
  | .methodCall receiver _ args _ => .expr receiver :: ofArgs args
  | .propertyFetch receiver _ _ => [.expr receiver]
  | .staticPropertyFetch target _ | .classConstFetch target _ => [target.node]
  | .functionCall n args => .name n :: ofArgs args
  | .invoke callee args => .expr callee :: ofArgs args
  | .array items => items.flatMap ArrayItem.children
  | .arrayDimFetch a index => ofExprs (a :: index.toList)
  | .binary _ left right => ofExprs [left, right]
  | .unary _ e | .cast _ e | .clone e | .throw e | .include e | .empty e => [.expr e]
  | .ternary condition consequent alternative =>
    ofExprs (condition :: consequent.toList ++ [alternative])
  | .instanceOf e target => [.expr e, target.node]
  | .isset items => ofExprs items
  | .closure _ _ params _ hint body => ofParams params ++ ofType? hint ++ ofStmts body
  | .arrowFunction _ _ params hint body => ofParams params ++ ofType? hint ++ [.expr body]

def MemberKind.children : MemberKind → List Node
  | .property _ hint items => ofType? hint ++ items.flatMap fun i ↦ ofExprs i.default.toList
  | .method d => ofParams d.params ++ ofType? d.returnType ++ ofStmts (d.body.getD [])
  | .constant _ items => items.map fun i ↦ .expr i.value
  | .traitUse names => ofNames names

def StmtKind.children : StmtKind → List Node
  | .namespace _ body => ofStmts (body.getD [])
  | .use _ _ | .global _ | .break | .continue | .nop => []
  | .classLike d => ofNames d.parents ++ ofNames d.interfaces ++ d.members.map .member
  | .function d => ofParams d.params ++ ofType? d.returnType ++ ofStmts d.body
  | .const items => items.map fun i ↦ .expr i.value
  | .expression e => [.expr e]
  | .return value => ofExprs value.toList
  | .echo values => ofExprs values
  | .if condition consequent elseIfs otherwise =>
    .expr condition :: ofStmts consequent ++
      elseIfs.flatMap (fun i ↦ .expr i.condition :: ofStmts i.body) ++ ofStmts (otherwise.getD [])
  | .while condition body => .expr condition :: ofStmts body
  | .doWhile body condition => ofStmts body ++ [.expr condition]
  | .for init condition step body =>
    ofExprs init ++ ofExprs condition ++ ofExprs step ++ ofStmts body
  | .foreach subject key value body => ofExprs (subject :: key.toList ++ [value]) ++ ofStmts body
  | .switch subject cases =>
    .expr subject :: cases.flatMap fun c ↦ ofExprs c.condition.toList ++ ofStmts c.body
  | .try body catches cleanup =>
    ofStmts body ++ catches.flatMap (fun c ↦ ofNames c.types ++ ofStmts c.body) ++
      ofStmts (cleanup.getD [])
  | .block body => ofStmts body
  | .static vars => vars.flatMap fun v ↦ ofExprs v.default.toList

namespace Node

def children : Node → List Node
  | stmt s => s.kind.children
  | expr e => e.kind.children
  | param p => p.children
  | member m => m.kind.children
  | name _ => []
  | type t => t.children

/-- Falls from a node to its children. -/
noncomputable def weight : Node → Nat
  | stmt s => sizeOf s
  | expr e => sizeOf e
  | param p => sizeOf p
  | member m => sizeOf m
  | name _ => 0
  | type t => sizeOf t

theorem weight_classRef (c : ClassRef) : c.node.weight < sizeOf c := by
  cases c <;> simp only [ClassRef.node, weight, ClassRef.named.sizeOf_spec,
    ClassRef.dynamic.sizeOf_spec] <;> omega

theorem sizeOf_body (o : Option (List Stmt)) : sizeOf (o.getD []) ≤ sizeOf o := by
  cases o <;> simp

theorem sizeOf_argument (a : Argument) : sizeOf a.value < sizeOf a := by
  cases a
  simp only [Argument.mk.sizeOf_spec]
  omega

theorem sizeOf_arrayItem (i : ArrayItem) : sizeOf i.key + sizeOf i.value < sizeOf i := by
  cases i
  simp only [ArrayItem.mk.sizeOf_spec]
  omega

theorem sizeOf_elseIf (i : ElseIf) : sizeOf i.condition + sizeOf i.body < sizeOf i := by
  cases i
  simp only [ElseIf.mk.sizeOf_spec]
  omega

theorem sizeOf_case (c : Case) : sizeOf c.condition + sizeOf c.body < sizeOf c := by
  cases c
  simp only [Case.mk.sizeOf_spec]
  omega

theorem sizeOf_catch (c : Catch) : sizeOf c.types + sizeOf c.body < sizeOf c := by
  cases c
  simp only [Catch.mk.sizeOf_spec]
  omega

theorem sizeOf_staticVar (v : StaticVar) : sizeOf v.default < sizeOf v := by
  cases v
  simp only [StaticVar.mk.sizeOf_spec]
  omega

theorem sizeOf_constItem (i : ConstItem) : sizeOf i.value < sizeOf i := by
  cases i
  simp only [ConstItem.mk.sizeOf_spec]
  omega

theorem sizeOf_propertyItem (i : PropertyItem) : sizeOf i.default < sizeOf i := by
  cases i
  simp only [PropertyItem.mk.sizeOf_spec]
  omega

theorem sizeOf_functionDecl (d : FunctionDecl) :
    sizeOf d.params + sizeOf d.returnType + sizeOf d.body < sizeOf d := by
  cases d
  simp only [FunctionDecl.mk.sizeOf_spec]
  omega

theorem sizeOf_methodDecl (d : MethodDecl) :
    sizeOf d.params + sizeOf d.returnType + sizeOf d.body < sizeOf d := by
  cases d
  simp only [MethodDecl.mk.sizeOf_spec]
  omega

theorem sizeOf_classDecl (d : ClassDecl) : sizeOf d.members < sizeOf d := by
  cases d
  simp only [ClassDecl.mk.sizeOf_spec]
  omega

theorem weight_of_mem_exprKind {k : ExprKind} {m : Node} (h : m ∈ k.children) :
    m.weight < sizeOf k := by
  cases k
  all_goals simp only [ExprKind.children, ArrayItem.children, ofExprs, ofStmts, ofParams, ofType?,
    ofArgs, List.map_cons, List.map_append, List.map_nil, List.mem_append, List.mem_cons,
    List.mem_map, List.not_mem_nil, List.mem_flatMap, or_false, Option.mem_toList] at h
  all_goals grind [weight, weight_classRef, sizeOf_argument, sizeOf_arrayItem,
    → List.sizeOf_lt_of_mem]

theorem weight_of_mem_stmtKind {k : StmtKind} {m : Node} (h : m ∈ k.children) :
    m.weight < sizeOf k := by
  cases k
  all_goals simp only [StmtKind.children, ofExprs, ofStmts, ofParams, ofType?, ofNames,
    List.map_cons, List.map_append, List.map_nil, List.mem_append, List.mem_cons, List.mem_map,
    List.not_mem_nil, List.mem_flatMap, or_false, Option.mem_toList] at h
  all_goals grind [weight, sizeOf_body, sizeOf_elseIf, sizeOf_case, sizeOf_catch, sizeOf_staticVar,
    sizeOf_constItem, sizeOf_functionDecl, sizeOf_classDecl, → List.sizeOf_lt_of_mem]

theorem weight_of_mem_memberKind {k : MemberKind} {m : Node} (h : m ∈ k.children) :
    m.weight < sizeOf k := by
  cases k
  all_goals simp only [MemberKind.children, ofExprs, ofStmts, ofParams, ofType?, ofNames,
    List.mem_append, List.mem_map, List.mem_flatMap, Option.mem_toList] at h
  all_goals grind [weight, sizeOf_body, sizeOf_constItem, sizeOf_propertyItem, sizeOf_methodDecl,
    → List.sizeOf_lt_of_mem]

theorem weight_of_mem_param {p : Param} {m : Node} (h : m ∈ p.children) :
    m.weight < sizeOf p := by
  cases p
  simp only [Param.children, ofExprs, ofType?, List.mem_append, List.mem_map,
    Option.mem_toList] at h
  grind [weight]

theorem sizeOf_span (s : Span) : 0 < sizeOf s := by
  cases s
  simp only [Span.mk.sizeOf_spec]
  omega

theorem weight_of_mem_typeHint {t : TypeHint} {m : Node} (h : m ∈ t.children) :
    m.weight < sizeOf t := by
  rcases t with (_ | _) | _ | _
  all_goals simp only [TypeHint.children, SimpleType.children, List.mem_cons, List.mem_map,
    List.not_mem_nil, or_false] at h
  all_goals grind [weight, sizeOf_span, → List.sizeOf_lt_of_mem]

theorem weight_lt_of_mem_children {n m : Node} (h : m ∈ n.children) : m.weight < n.weight := by
  cases n with
  | stmt s =>
    cases s
    refine Nat.lt_trans (weight_of_mem_stmtKind h) ?_
    simp only [weight, Stmt.mk.sizeOf_spec]
    omega
  | expr e =>
    cases e
    refine Nat.lt_trans (weight_of_mem_exprKind h) ?_
    simp only [weight, Expr.mk.sizeOf_spec]
    omega
  | param p => exact weight_of_mem_param h
  | member d =>
    cases d
    refine Nat.lt_trans (weight_of_mem_memberKind h) ?_
    simp only [weight, Member.mk.sizeOf_spec]
    omega
  | name _ => simp [children] at h
  | type t => exact weight_of_mem_typeHint h

/-- What holds of a node whenever it holds of its children holds of every node. -/
theorem induction {motive : Node → Prop}
    (step : ∀ n, (∀ m ∈ n.children, motive m) → motive n) (n : Node) : motive n :=
  step n fun m _ ↦ induction step m
termination_by n.weight
decreasing_by exact weight_lt_of_mem_children ‹_›

/-- A node and everything below it, without what lies below a node that `enter` refuses. -/
def walkWhere (enter : Node → Bool) (n : Node) : List Node :=
  n :: if enter n then n.children.attach.flatMap fun m ↦ walkWhere enter m.1 else []
termination_by n.weight
decreasing_by exact weight_lt_of_mem_children m.2

theorem walkWhere_eq (enter : Node → Bool) (n : Node) :
    n.walkWhere enter = n :: if enter n then n.children.flatMap (walkWhere enter) else [] := by
  rw [walkWhere, List.flatMap_def, List.flatMap_def, List.attach_map_val]

def walk (n : Node) : List Node := n.walkWhere fun _ ↦ true

theorem walk_eq (n : Node) : n.walk = n :: n.children.flatMap walk := by
  rw [walk, walkWhere_eq, if_pos rfl]
  rfl

end Node

namespace Stmt

def walkWhere (enter : Node → Bool) (ss : List Stmt) : List Node :=
  (Node.ofStmts ss).flatMap (Node.walkWhere enter)

def nodes (ss : List Stmt) : List Node := (Node.ofStmts ss).flatMap Node.walk

end Stmt

end PhpInsight

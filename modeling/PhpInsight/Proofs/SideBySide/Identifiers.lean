import PhpInsight.Proofs.SideBySide.Likeness

namespace PhpInsight

def argumentNames (args : List Argument) : List Identifier := args.flatMap fun a ↦ a.name.toList

def ExprKind.identifiers : ExprKind → List Identifier
  | .methodCall _ name args _ | .staticCall _ name args => name :: argumentNames args
  | .propertyFetch _ name _ | .classConstFetch _ name => [name]
  | .new _ args | .functionCall _ args | .invoke _ args => argumentNames args
  | _ => []

def ExprKind.variableNames : ExprKind → List Identifier
  | .staticPropertyFetch _ name => [name]
  | .closure _ _ _ uses _ _ => uses.map ClosureUse.name
  | _ => []

def TypeHint.identifiers : TypeHint → List Identifier
  | .simple (.builtin keyword) => [keyword]
  | _ => []

def MemberKind.identifiers : MemberKind → List Identifier
  | .method d => [d.name]
  | .constant _ items => items.map ConstItem.name
  | _ => []

def MemberKind.variableNames : MemberKind → List Identifier
  | .property _ _ items => items.map PropertyItem.name
  | _ => []

def StmtKind.identifiers : StmtKind → List Identifier
  | .use _ items => items.flatMap fun u ↦ u.aliasName.toList
  | .classLike d => [d.name]
  | .function d => [d.name]
  | .const items => items.map ConstItem.name
  | _ => []

def StmtKind.variableNames : StmtKind → List Identifier
  | .try _ catches _ => catches.flatMap fun c ↦ c.binding.toList
  | .global names => names
  | .static vars => vars.map StaticVar.name
  | _ => []

namespace Node

def names : Node → List Name
  | name n => [n]
  | _ => []

/-- The names that a node declares, accesses or gives to its arguments, and a built-in type. -/
def identifiers : Node → List Identifier
  | stmt s => s.kind.identifiers
  | expr e => e.kind.identifiers
  | member m => m.kind.identifiers
  | type t => t.identifiers
  | param _ | name _ => []

def variableNames : Node → List Identifier
  | stmt s => s.kind.variableNames
  | expr e => e.kind.variableNames
  | param p => [p.name]
  | member m => m.kind.variableNames
  | name _ | type _ => []

end Node

def StmtKind.spans : StmtKind → List Span
  | .namespace name _ => name.toList.map Name.span
  | .use _ items => items.flatMap fun u ↦ [u.span, u.name.span]
  | _ => []

def MemberKind.spans : MemberKind → List Span
  | .property _ _ items => items.map PropertyItem.span
  | _ => []

namespace Node

def partSpans : Node → List Span
  | stmt s => s.kind.spans
  | member m => m.kind.spans
  | _ => []

/-- Every span that is kept in a node itself and not below it. -/
def spans (n : Node) : List Span :=
  n.span ::
    (n.identifiers.map Identifier.span ++ n.variableNames.map Identifier.span ++ n.partSpans)

end Node

variable {L : Likeness}

open List (rel_flatMap rel_map)

theorem forall₂_argumentNames {as as' : List Argument} (h : List.Forall₂ (Argument.Like L) as as') :
    List.Forall₂ (Identifier.Like L.asWritten []) (argumentNames as) (argumentNames as') := by
  refine rel_flatMap h fun _ _ h ↦ ?_
  cases h with
  | mk _ name => exact (forall₂_toList name).imp fun _ _ h ↦ h.asWritten

theorem ExprKind.Like.identifiers {k k' : ExprKind} (h : k.Like L k') :
    List.Forall₂ (Identifier.Like L.asWritten []) k.identifiers k'.identifiers := by
  cases h with
  | methodCall _ name args => exact .cons name (forall₂_argumentNames args)
  | staticCall _ name args => exact .cons name.asWritten (forall₂_argumentNames args)
  | propertyFetch _ name => exact .cons name .nil
  | classConstFetch _ name => exact .cons name.asWritten .nil
  | new _ args | functionCall _ args | invoke _ args => exact forall₂_argumentNames args
  | _ => exact .nil

theorem ExprKind.Like.variableNames {k k' : ExprKind} (h : k.Like L k') :
    List.Forall₂ (Identifier.Like L ['$']) k.variableNames k'.variableNames := by
  cases h with
  | staticPropertyFetch _ name => exact .cons name .nil
  | closure _ uses => exact rel_map (fun _ _ h ↦ h.name) uses
  | _ => exact .nil

theorem TypeHint.Like.identifiers {t t' : TypeHint} (h : t.Like L t') :
    List.Forall₂ (Identifier.Like L.asWritten []) t.identifiers t'.identifiers := by
  cases h with
  | simple h =>
    cases h with
    | builtin keyword => exact .cons keyword.asWritten .nil
    | named => exact .nil
  | nullable | union => exact .nil

theorem forall₂_constNames {is is' : List ConstItem} (h : List.Forall₂ (ConstItem.Like L) is is') :
    List.Forall₂ (Identifier.Like L.asWritten []) (is.map ConstItem.name)
      (is'.map ConstItem.name) :=
  rel_map (fun _ _ h ↦ by cases h with | mk name _ => exact name.asWritten) h

theorem MemberKind.Like.identifiers {k k' : MemberKind} (h : k.Like L k') :
    List.Forall₂ (Identifier.Like L.asWritten []) k.identifiers k'.identifiers := by
  cases h with
  | method decl => cases decl with | mk name => exact .cons name.asWritten .nil
  | constant items => exact forall₂_constNames items
  | property | traitUse => exact .nil

theorem MemberKind.Like.variableNames {k k' : MemberKind} (h : k.Like L k') :
    List.Forall₂ (Identifier.Like L ['$']) k.variableNames k'.variableNames := by
  cases h with
  | property _ items => exact rel_map (fun _ _ h ↦ by cases h with | mk name => exact name) items
  | method | constant | traitUse => exact .nil

theorem StmtKind.Like.identifiers {k k' : StmtKind} (h : k.Like L k') :
    List.Forall₂ (Identifier.Like L.asWritten []) k.identifiers k'.identifiers := by
  cases h with
  | use items =>
    exact rel_flatMap items fun _ _ h ↦
      (forall₂_toList h.aliasName).imp fun _ _ h ↦ h.asWritten
  | classLike decl => cases decl with | mk name => exact .cons name.asWritten .nil
  | function decl => cases decl with | mk name => exact .cons name.asWritten .nil
  | const items => exact forall₂_constNames items
  | _ => exact .nil

theorem StmtKind.Like.variableNames {k k' : StmtKind} (h : k.Like L k') :
    List.Forall₂ (Identifier.Like L ['$']) k.variableNames k'.variableNames := by
  cases h with
  | «try» _ catches =>
    refine rel_flatMap catches fun _ _ h ↦ ?_
    cases h with
    | mk _ binding => exact forall₂_toList binding
  | global names => exact names
  | static vars => exact rel_map (fun _ _ h ↦ by cases h with | mk name => exact name) vars
  | _ => exact .nil

theorem StmtKind.Like.spans {k k' : StmtKind} (h : k.Like L k') :
    List.Forall₂ L.spans k.spans k'.spans := by
  cases h with
  | «namespace» name => exact rel_map (fun _ _ h ↦ h.span) (forall₂_toList name)
  | use items => exact rel_flatMap items fun _ _ h ↦ .cons h.span (.cons h.nameSpan .nil)
  | _ => exact .nil

theorem MemberKind.Like.spans {k k' : MemberKind} (h : k.Like L k') :
    List.Forall₂ L.spans k.spans k'.spans := by
  cases h with
  | property _ items =>
    refine rel_map (fun _ _ h ↦ ?_) items
    cases h with
    | mk _ _ span => exact span
  | method | constant | traitUse => exact .nil

namespace Node.Like

variable {n n' : Node}

theorem identifiers (h : n.Like L n') :
    List.Forall₂ (Identifier.Like L.asWritten []) n.identifiers n'.identifiers := by
  cases h with
  | stmt h => cases h with | mk kind => exact kind.identifiers
  | expr h => exact h.kind.identifiers
  | member h => cases h with | mk kind => exact kind.identifiers
  | type h => exact h.identifiers
  | param | name => exact .nil

theorem variableNames (h : n.Like L n') :
    List.Forall₂ (Identifier.Like L ['$']) n.variableNames n'.variableNames := by
  cases h with
  | stmt h => cases h with | mk kind => exact kind.variableNames
  | expr h => exact h.kind.variableNames
  | param h => cases h with | mk name => exact .cons name .nil
  | member h => cases h with | mk kind => exact kind.variableNames
  | name | type => exact .nil

theorem names (h : n.Like L n') : List.Forall₂ (Name.Like L) n.names n'.names := by
  cases h with
  | name h => exact .cons h .nil
  | stmt | expr | param | member | type => exact .nil

theorem partSpans (h : n.Like L n') : List.Forall₂ L.spans n.partSpans n'.partSpans := by
  cases h with
  | stmt h => cases h with | mk kind => exact kind.spans
  | member h => cases h with | mk kind => exact kind.spans
  | expr | param | name | type => exact .nil

theorem span (h : n.Like L n') : L.spans n.span n'.span := by
  cases h with
  | stmt h => cases h with | mk _ span => exact span
  | expr h => exact h.span
  | param h => cases h with | mk _ _ _ span => exact span
  | member h => cases h with | mk _ span => exact span
  | name h => exact h.span
  | type h =>
    cases h with
    | simple h =>
      cases h with
      | builtin keyword => exact keyword.span
      | named name => exact name.span
    | nullable _ span | union _ span => exact span

theorem spans (h : n.Like L n') : List.Forall₂ L.spans n.spans n'.spans :=
  .cons h.span (List.rel_append (List.rel_append
    (rel_map (fun _ _ h ↦ h.span) h.identifiers) (rel_map (fun _ _ h ↦ h.span) h.variableNames))
    h.partSpans)

end Node.Like

end PhpInsight

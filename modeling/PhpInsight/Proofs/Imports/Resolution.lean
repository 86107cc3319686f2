import PhpInsight.Document.NameResolution
import PhpInsight.Proofs.SideBySide.Likeness

namespace PhpInsight

structure Imported where
  parts : List String
  kind : NameKind
  aliasName : Option String
  localName : String
  deriving DecidableEq

def UseItem.imported (u : UseItem) : Imported where
  parts := u.name.parts
  kind := u.name.kind
  aliasName := u.aliasName.map Identifier.name
  localName := u.localName

theorem UseItem.localName_eq (u : UseItem) :
    u.localName = (u.aliasName.map Identifier.name).getD u.name.last := by
  rw [localName]
  cases u.aliasName <;> rfl

def Stmt.Imports (kind : UseKind) (items : List Imported) (s : Stmt) : Prop :=
  ∃ us, s.kind = .use kind us ∧ us.map UseItem.imported = items

def sameTexts : Likeness where
  position _ _ := True
  text := Eq
  written := Eq
  quotes _ _ := True
  doc _ _ := True
  text_refl _ := rfl
  written_of_text h := h
  doc_none := trivial

/-- Two statements are alike but for the way in which imports are written. -/
inductive Stmt.Regrouped : Stmt → Stmt → Prop
  | alike {s s' : Stmt} (h : s.Like sameTexts s') : Stmt.Regrouped s s'
  | imports {kind : UseKind} {us us' : List UseItem} {span span' : Span}
    (items : us.map UseItem.imported = us'.map UseItem.imported) :
    Stmt.Regrouped ⟨.use kind us, span⟩ ⟨.use kind us', span'⟩
  | namespace {n n' : Option Name} {b b' : List Stmt} {span span' : Span}
    (name : Option.Rel (Name.Like sameTexts) n n') (body : List.Forall₂ Stmt.Regrouped b b') :
    Stmt.Regrouped ⟨.namespace n (some b), span⟩ ⟨.namespace n' (some b'), span'⟩

theorem Stmt.Imports.regrouped {kind : UseKind} {items : List Imported} {s s' : Stmt}
    (h : s.Imports kind items) (h' : s'.Imports kind items) : s.Regrouped s' := by
  obtain ⟨_, _⟩ := s
  obtain ⟨_, _⟩ := s'
  obtain ⟨us, rfl, hus⟩ := h
  obtain ⟨us', rfl, hus'⟩ := h'
  exact .imports (hus.trans hus'.symm)

section

variable {L : Likeness} {n n' : Name}

theorem Name.Like.joined (h : n.Like L n') : n.joined = n'.joined := by
  rw [Name.joined, Name.joined, h.parts]

theorem map_joined {o o' : Option Name} (h : Option.Rel (Name.Like L) o o') :
    o.map Name.joined = o'.map Name.joined := by
  cases h with
  | none => rfl
  | some h => exact congrArg some h.joined

theorem rel_head? {α : Type} {R : α → α → Prop} {as as' : List α} (h : List.Forall₂ R as as') :
    Option.Rel R as.head? as'.head? := by
  cases h with
  | nil => exact .none
  | cons h _ => exact .some h

theorem map_name {sign : List Char} {o o' : Option Identifier}
    (h : Option.Rel (Identifier.Like sameTexts sign) o o') :
    o.map Identifier.name = o'.map Identifier.name := by
  cases h with
  | none => rfl
  | some h => exact congrArg some (Identifier.Like.name h)

theorem UseItem.Like.imported {u u' : UseItem} (h : u.Like sameTexts u') :
    u.imported = u'.imported := by
  rw [UseItem.imported, UseItem.imported, localName_eq, localName_eq, map_name h.aliasName,
    Name.last, Name.last, h.parts, h.kind]

end

namespace Document

mutual

theorem importsOf_regrouped : ∀ s s' : Stmt, s.Regrouped s' →
    (importsOf s).map UseItem.imported = (importsOf s').map UseItem.imported
  | ⟨k, span⟩, ⟨k', span'⟩, h => by
    cases h with
    | @imports kind _ _ _ _ items =>
      cases kind with
      | normal => exact items
      | function | const => rfl
    | «namespace» _ body => exact importsOfAll_regrouped _ _ body
    | alike h =>
      cases h with
      | mk hkind _ =>
        cases hkind with
        | @use kind us us' items =>
          cases kind with
          | normal =>
            exact List.forall₂_eq_eq_eq ▸ List.rel_map (fun _ _ h ↦ UseItem.Like.imported h) items
          | function | const => rfl
        | @«namespace» n n' b b' _ body =>
          cases body with
          | none => rfl
          | some body => exact importsOfAll_regrouped _ _ (body.imp fun _ _ ↦ .alike)
        | _ => rfl

theorem importsOfAll_regrouped : ∀ ss ss' : List Stmt, List.Forall₂ Stmt.Regrouped ss ss' →
    (importsOfAll ss).map UseItem.imported = (importsOfAll ss').map UseItem.imported
  | [], [], _ => rfl
  | s :: ss, s' :: ss', .cons hs hss => by
    rw [importsOfAll, importsOfAll, List.map_append, List.map_append,
      importsOf_regrouped s s' hs, importsOfAll_regrouped ss ss' hss]

end

structure SameClass (c c' : DeclaredClass) : Prop where
  name : c.name = c'.name
  kind : c.decl.kind = c'.decl.kind
  parents : List.Forall₂ (Name.Like sameTexts) c.decl.parents c'.decl.parents

theorem sameClass_of_like {n n' : Option Name} {d d' : ClassDecl}
    (hname : Option.Rel (Name.Like sameTexts) n n') (hdecl : d.Like sameTexts d') :
    SameClass ⟨n, d⟩ ⟨n', d'⟩ := by
  cases hdecl with
  | mk name parents =>
    refine ⟨?_, rfl, parents⟩
    cases hname with
    | none => exact name.name
    | some h => exact congrArg₂ (fun space name ↦ space ++ "\\" ++ name) h.joined name.name

theorem classesOf_regrouped {n n' : Option Name} {ss ss' : List Stmt}
    (hname : Option.Rel (Name.Like sameTexts) n n') (h : List.Forall₂ Stmt.Regrouped ss ss') :
    List.Forall₂ SameClass (classesOf n ss) (classesOf n' ss') := by
  refine List.rel_filterMap (fun s s' hs ↦ ?_) h
  cases hs with
  | imports | «namespace» => exact .none
  | alike hs =>
    cases hs with
    | mk hkind _ =>
      cases hkind with
      | classLike decl => exact .some (sameClass_of_like hname decl)
      | _ => exact .none

theorem classesFrom_regrouped {n n' : Option Name} {ss ss' : List Stmt}
    (hname : Option.Rel (Name.Like sameTexts) n n') (h : List.Forall₂ Stmt.Regrouped ss ss') :
    List.Forall₂ SameClass (classesFrom n ss) (classesFrom n' ss') := by
  induction h generalizing n n' with
  | nil => exact .nil
  | cons hs hss ih =>
    cases hs with
    | imports => exact ih hname
    | «namespace» inner body => exact List.rel_append (classesOf_regrouped inner body) (ih hname)
    | alike hs =>
      cases hs with
      | mk hkind _ =>
        cases hkind with
        | classLike decl => exact .cons (sameClass_of_like hname decl) (ih hname)
        | @«namespace» _ _ b b' inner body =>
          cases body with
          | none => exact ih inner
          | some body =>
            exact List.rel_append (classesOf_regrouped inner (body.imp fun _ _ ↦ .alike))
              (ih hname)
        | _ => exact ih hname

def openedNamespace? (s : Stmt) : Option String :=
  match s.kind with
  | .namespace n _ => n.map Name.joined
  | _ => none

theorem namespaceName_eq (d : Document) :
    d.namespaceName = d.statements.findSome? openedNamespace? := by
  rw [namespaceName]
  congr 1
  funext ⟨kind, span⟩
  cases kind with
  | «namespace» n body => cases n <;> rfl
  | _ => rfl

theorem openedNamespace?_regrouped {s s' : Stmt} (h : s.Regrouped s') :
    openedNamespace? s = openedNamespace? s' := by
  cases h with
  | imports => rfl
  | «namespace» name _ => exact map_joined name
  | alike h =>
    cases h with
    | mk hkind _ =>
      cases hkind with
      | «namespace» name _ => exact map_joined name
      | _ => rfl

theorem namespaceName_regrouped {d d' : Document}
    (h : List.Forall₂ Stmt.Regrouped d.statements d'.statements) :
    d.namespaceName = d'.namespaceName := by
  have hmap : d.statements.map openedNamespace? = d'.statements.map openedNamespace? :=
    List.forall₂_eq_eq_eq ▸ List.rel_map (fun _ _ h ↦ openedNamespace?_regrouped h) h
  rw [namespaceName_eq, namespaceName_eq, ← Function.id_comp openedNamespace?,
    ← List.findSome?_map, ← List.findSome?_map, hmap]

/-- The documents import the same under the same names, and have one namespace and classes of the
same names. -/
structure SameNames (d d' : Document) : Prop where
  imports : d.imports.map UseItem.imported = d'.imports.map UseItem.imported
  namespaceName : d.namespaceName = d'.namespaceName
  classes : List.Forall₂ SameClass d.classes d'.classes

theorem sameNames_of_regrouped {d d' : Document}
    (h : List.Forall₂ Stmt.Regrouped d.statements d'.statements) : d.SameNames d' where
  imports := importsOfAll_regrouped _ _ h
  classes := classesFrom_regrouped .none h
  namespaceName := namespaceName_regrouped h

theorem isClassKeyword_like {L : Likeness} {n n' : Name} (h : n.Like L n') :
    isClassKeyword n = isClassKeyword n' := by
  simp only [isClassKeyword, isKeyword, Name.isUnqualified, Name.last, h.parts, h.kind]

namespace SameNames

variable {d d' : Document} {n n' : Name}

theorem import? (h : d.SameNames d') (localName : String) :
    (d.import? localName).map UseItem.imported = (d'.import? localName).map UseItem.imported := by
  have hfind (d : Document) : (d.import? localName).map UseItem.imported =
      (d.imports.map UseItem.imported).reverse.find? fun t ↦
        Text.sameIgnoringCase t.localName localName := by
    rw [← List.map_reverse, List.find?_map]
    rfl
  rw [hfind, hfind, h.imports]

theorem qualify (h : d.SameNames d') (hparts : n.parts = n'.parts) (hkind : n.kind = n'.kind) :
    d.qualify n = d'.qualify n' := by
  obtain ⟨parts, kind, span⟩ := n
  obtain ⟨_, _, span'⟩ := n'
  obtain rfl : parts = _ := hparts
  obtain rfl : kind = _ := hkind
  have himport := h.import? (parts.headD "")
  simp only [Document.qualify, Name.isFullyQualified, Name.isUnqualified, Name.joined, Name.first,
    Name.last, h.namespaceName]
  cases hd : d.import? (parts.headD "") with
  | none =>
    rw [hd] at himport
    rw [Option.map_eq_none_iff.mp himport.symm]
    rfl
  | some u =>
    rw [hd] at himport
    obtain ⟨u', hd', hu⟩ := Option.map_eq_some_iff.mp himport.symm
    have hparts : u'.name.parts = u.name.parts := congrArg Imported.parts hu
    simp only [hd', hparts]
    rfl

theorem className? (h : d.SameNames d') : d.className? = d'.className? := by
  have hhead := rel_head? h.classes
  rw [Document.className?, Document.className?]
  generalize d.classes.head? = o, d'.classes.head? = o' at hhead
  cases hhead with
  | none => rfl
  | some hc => exact congrArg some hc.name

theorem parentName? (h : d.SameNames d') : d.parentName? = d'.parentName? := by
  have hhead := rel_head? h.classes
  rw [Document.parentName?, Document.parentName?, class?, class?]
  generalize d.classes.head? = o, d'.classes.head? = o' at hhead
  cases hhead with
  | none => rfl
  | @some c c' hc =>
    have hparent := rel_head? hc.parents
    change (guard (c.decl.kind = .class) >>= fun _ ↦ c.decl.parents.head? >>= fun p ↦
      guard (!isClassKeyword p) >>= fun _ ↦ some (d.qualify p)) =
      (guard (c'.decl.kind = .class) >>= fun _ ↦ c'.decl.parents.head? >>= fun p ↦
        guard (!isClassKeyword p) >>= fun _ ↦ some (d'.qualify p))
    rw [hc.kind]
    generalize c.decl.parents.head? = o, c'.decl.parents.head? = o' at hparent ⊢
    cases hparent with
    | none => rfl
    | @some p p' hp =>
      change (guard (c'.decl.kind = .class) >>= fun _ ↦ guard (!isClassKeyword p) >>= fun _ ↦
        some (d.qualify p)) = (guard (c'.decl.kind = .class) >>= fun _ ↦
          guard (!isClassKeyword p') >>= fun _ ↦ some (d'.qualify p'))
      rw [isClassKeyword_like hp, h.qualify hp.parts hp.kind]

theorem resolveName? (h : d.SameNames d') : d.resolveName? = d'.resolveName? := by
  funext n
  rw [Document.resolveName?, Document.resolveName?, h.className?, h.parentName?, h.qualify rfl rfl]

end SameNames

/-- Every name means the same class in both documents, and so does every text. -/
def ResolvesAs (d d' : Document) : Prop :=
  (∀ n, d.resolveName? n = d'.resolveName? n) ∧ ∀ text, d.resolveText? text = d'.resolveText? text

theorem resolvesAs_of_regrouped {d d' : Document}
    (h : List.Forall₂ Stmt.Regrouped d.statements d'.statements) : d.ResolvesAs d' := by
  have hname := (sameNames_of_regrouped h).resolveName?
  refine ⟨congrFun hname, fun text ↦ ?_⟩
  rw [resolveText?, resolveText?, hname]

end Document

end PhpInsight

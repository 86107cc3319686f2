import PhpInsight.Inference.Infer

namespace PhpInsight

/-- The nodes of the bodies of the methods of a class, at any depth. -/
def ClassDecl.bodyNodes (c : ClassDecl) : List Node :=
  c.methods.flatMap fun m ↦ Stmt.nodes (m.body.getD [])

def Name.isSelf (n : Name) : Bool := Document.isKeyword n "self" || Document.isKeyword n "static"

/-- Whether a node is `$this`, a new object of `self` or `static`, or one of these names. -/
def Node.isOwn : Node → Bool
  | .expr ⟨.variable x, _⟩ => x = "this"
  | .expr ⟨.new (.named n) _, _⟩ => n.isSelf
  | .name n => n.isSelf
  | _ => false

def ClassDecl.ownUses (c : ClassDecl) : List Node := c.bodyNodes.filter Node.isOwn

namespace Document

variable {d : Document}

theorem resolveName?_eq (n : Name) : d.resolveName? n =
    if n.isSelf then d.className?
    else if isKeyword n "parent" then d.parentName?
    else some (d.qualify n) := rfl

theorem classNameType_of_isSelf {n : Name} (h : n.isSelf = true) :
    d.classNameType n = .ofClass? d.className? := by
  rw [classNameType, resolveName?_eq, if_pos h]

theorem exists_first {k : DeclaredClass} (hk : k ∈ d.classes) :
    ∃ first, d.classes.head? = some first ∧ d.className? = some first.name := by
  cases hc : d.classes with
  | nil => simp [hc] at hk
  | cons first rest => exact ⟨first, rfl, by simp [className?, hc]⟩

end Document

namespace Workspace

variable {w : Workspace} {cache : ClassCache} {d : Document}

theorem infer_of_isOwn {n : Node} (h : n.isOwn = true) :
    (w.infer d n).run cache = (.ofClass? d.className?, cache) := by
  cases n with
  | expr e =>
    obtain ⟨kind, span⟩ := e
    cases kind with
    | «variable» x =>
      obtain rfl : x = "this" := by simpa [Node.isOwn] using h
      rfl
    | new target args =>
      cases target with
      | named n =>
        change n.isSelf = true at h
        rw [← Document.classNameType_of_isSelf h]
        rfl
      | dynamic e => cases h
    | _ => cases h
  | name n =>
    change n.isSelf = true at h
    rw [← Document.classNameType_of_isSelf h]
    rfl
  | _ => cases h

/-- In every class of a document `$this`, `self` and `static` mean the first class of the document,
and so the class itself only where that has its name. -/
theorem infer_ownUse {k : DeclaredClass} (hk : k ∈ d.classes) {n : Node}
    (hn : n ∈ k.decl.ownUses) :
    ∃ first, d.classes.head? = some first ∧
      (w.infer d n).run cache = (.class first.name, cache) ∧
      (((w.infer d n).run cache).1 = .class k.name ↔ first.name = k.name) := by
  obtain ⟨first, hfirst, hname⟩ := Document.exists_first hk
  have hrun : (w.infer d n).run cache = (.class first.name, cache) := by
    rw [infer_of_isOwn (List.mem_filter.mp hn).2, hname]
    rfl
  exact ⟨first, hfirst, hrun, by simp [hrun]⟩

end Workspace

namespace Workspace

def secondUse? : Option (Document × DeclaredClass × Node) := do
  let source := "<?php class A{} class B{function f(){fn()=>new static;}}".toList
  let d ← (Document.parse 0 "pair.php" source 0).toOption
  let k ← d.classes[1]?
  let n ← k.decl.ownUses.head?
  return (d, k, n)

theorem mem_of_secondUse {d : Document} {k : DeclaredClass} {n : Node}
    (h : secondUse? = some (d, k, n)) : k ∈ d.classes ∧ n ∈ k.decl.ownUses := by
  simp only [secondUse?, Option.bind_eq_bind, Option.bind_eq_some_iff] at h
  obtain ⟨d', _, k', hk, n', hn, he⟩ := h
  cases he
  exact ⟨List.mem_of_getElem? hk, List.mem_of_head? hn⟩

theorem infer_ownUse_second :
    ∃ d k n, secondUse? = some (d, k, n) ∧ k.name = "B" ∧ k ∈ d.classes ∧ n ∈ k.decl.ownUses ∧
      ∃ first, d.classes.head? = some first ∧
        (({} : Workspace).infer d n).run {} = (.class first.name, {}) ∧
        (((({} : Workspace).infer d n).run {}).1 = .class k.name ↔ first.name = k.name) := by
  have hname : secondUse?.map (fun u ↦ u.2.1.name) = some "B" := by decide +kernel
  obtain ⟨⟨d, k, n⟩, huse, hname⟩ := Option.map_eq_some_iff.mp hname
  obtain ⟨hk, hn⟩ := mem_of_secondUse huse
  exact ⟨d, k, n, huse, hname, hk, hn, infer_ownUse hk hn⟩

theorem infer_ownUse_elsewhere :
    ∃ d k n, secondUse? = some (d, k, n) ∧ k ∈ d.classes ∧ n ∈ k.decl.ownUses ∧
      k.name = "B" ∧ ((({} : Workspace).infer d n).run {}).1 = .class "A" := by
  have hfound : secondUse?.map (fun (d, k, n) ↦
      (k.name, ((({} : Workspace).infer d n).run {}).1)) = some ("B", .class "A") := by
    decide +kernel
  obtain ⟨⟨d, k, n⟩, huse, hfound⟩ := Option.map_eq_some_iff.mp hfound
  obtain ⟨hname, htype⟩ := Prod.mk.inj hfound
  obtain ⟨hk, hn⟩ := mem_of_secondUse huse
  exact ⟨d, k, n, huse, hk, hn, hname, htype⟩

end Workspace

end PhpInsight

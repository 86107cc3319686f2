import PhpInsight.Proofs.Completion.Target
import PhpInsight.Proofs.Inheritance.Cycles
import PhpInsight.Proofs.Session.Kept
import PhpInsight.Proofs.Span.Innermost
import PhpInsight.Proofs.Types.ClassNames

namespace PhpInsight

namespace Workspace

variable {w : Workspace} {cache : ClassCache} {c : ClassInfo} {d : Document}

def IsParsed (w : Workspace) : Prop := ∀ d ∈ w.documents, d.IsParsed

theorem IsParsed.proper_located (h : w.IsParsed) {name : String} (hc : w.locate? name = some c) :
    c.Proper := by
  obtain ⟨d, hd, k, hk, _, rfl⟩ := locate?_eq_some hc
  exact ⟨(h d hd).segmented_ofDeclaration hk, h d hd⟩

theorem proper_foldl {sources : List (Bool × ClassInfo)} (hc : c.Proper)
    (hs : ∀ s ∈ sources, s.2.Proper) :
    (sources.foldl (fun c s ↦ c.inherit s.2 s.1) c).Proper := by
  have hkept {α : Type} {f : ClassInfo → α}
      (hf : ∀ c a withPrivate, f (ClassInfo.inherit c a withPrivate) = f c) :=
    foldl_inherit_keeps hf sources c
  refine ⟨⟨?_, ?_, ?_, ?_, fun T m hm ↦ ?_⟩, ?_⟩
  · exact hkept (f := ClassInfo.name) (fun _ _ _ ↦ rfl) ▸ hc.name
  · exact hkept (f := ClassInfo.parent) (fun _ _ _ ↦ rfl) ▸ hc.parent
  · exact hkept (f := ClassInfo.interfaces) (fun _ _ _ ↦ rfl) ▸ hc.interfaces
  · exact hkept (f := ClassInfo.traits) (fun _ _ _ ↦ rfl) ▸ hc.traits
  · rcases T.mem_foldl hm with hm | ⟨s, hs', hm⟩
    · exact hc.declaringClass T m hm
    · exact (hs s hs').declaringClass T m (List.mem_filter.mp hm).1
  · exact hkept (f := ClassInfo.origin) (fun _ _ _ ↦ rfl) ▸ hc.origin

def StaysProper (w : Workspace) (c flat : ClassInfo) : Prop := w.IsParsed → c.Proper → flat.Proper

theorem flattened_staysProper (hs : w.Caches w.StaysProper cache) (c : ClassInfo) :
    w.StaysProper c (w.flattened cache c) := by
  refine flatten_related (fun _ _ hc ↦ hc) (fun c sources hsources hw hc ↦ ?_) hs _ _ c
  refine proper_foldl hc fun s hs' ↦ ?_
  obtain ⟨name, a, _, ha, hflat⟩ := hsources s hs'
  exact hflat hw (hw.proper_located ha)

theorem hereditary_staysProper (w : Workspace) : w.Hereditary w.StaysProper :=
  fun _ hs _ c _ ↦ flattened_staysProper hs c

theorem ensures_reflect? (hw : w.IsParsed) (name : String) :
    Ensures (w.Caches w.StaysProper) (w.reflect? name) fun o ↦ ∀ c ∈ o, c.Proper := by
  intro cache hs
  obtain ⟨answer, cache', hrun, hs', _, hflat⟩ :=
    Caches.reflect? hs name fun c _ ↦ flattened_staysProper hs c
  rw [hrun]
  refine ⟨fun flat hanswer ↦ ?_, hs'⟩
  obtain ⟨c, hc, hstays⟩ := hflat flat hanswer
  exact hstays hw (hw.proper_located hc)

theorem ensures_reflectFrom? (hw : w.IsParsed) (hd : d.IsParsed) (name : String) :
    Ensures (w.Caches w.StaysProper) (w.reflectFrom? d name) fun o ↦ ∀ c ∈ o, c.Proper := by
  cases hc : d.locate? name with
  | some c =>
    intro cache hs
    obtain ⟨later, hused, hrun⟩ := reflectFrom?_of_declared (w := w) hc cache
    rw [hrun]
    refine ⟨?_, hs.used hused⟩
    rintro _ ⟨⟩
    exact flattened_staysProper hs c hw (hd.proper_located hc)
  | none =>
    rw [reflectFrom?_of_undeclared hc]
    exact ensures_reflect? hw name

theorem ensures_infer (hw : w.IsParsed) (hd : d.IsParsed) {n : Node} (hn : n.Spelled) :
    Ensures (w.Caches w.StaysProper) (w.infer d n) InferredType.Segmented := by
  unfold infer nodeType
  cases n with
  | expr e =>
    exact ensures_exprType (fun _ hd ↦ ensures_reflectFrom? hw hd) handsOn_segmented _ hd hn
  | name n => exact .pure (hd.segmented_classNameType hn.self)
  | type t => exact .pure (hd.segmented_typeHintType hn.self)
  | param p =>
    refine .pure (hd.segmented_typeHint? fun t ht ↦ (hn.child (m := .type t) ?_).self)
    exact List.mem_append_left _ (List.mem_map_of_mem (Option.mem_toList.mpr ht))
  | stmt _ => exact .pure nofun
  | member _ => exact .pure nofun

end Workspace

/-- A node of a document, or of what completion is asked for. -/
def Node.IsRead (n : Node) : Prop :=
  (∃ d : Document, d.IsParsed ∧ n ∈ d.nodes) ∨ ∃ source cursor target,
    Grammar.completionTarget source cursor = some target ∧ n ∈ (Node.expr target).walk

theorem Node.IsRead.spelled {n : Node} (h : n.IsRead) : n.Spelled := by
  rcases h with ⟨d, hd, hn⟩ | ⟨source, cursor, target, htarget, hn⟩
  · exact hd.spelled hn
  · exact (Grammar.completionTarget_eq_some htarget).2.spelled.of_mem_walk hn

def Question.IsRead : Question → Prop
  | reflect _ | completeIn _ _ => True
  | reflectFrom d _ => d.IsParsed
  | resolve d n | infer d n => d.IsParsed ∧ n.IsRead

def Answer.Segmented : Answer → Prop
  | .class c => ∀ k ∈ c, k.Segmented
  | .type t => t.Segmented
  | .items _ => True

namespace Engine

/-- An engine for parsed documents, which remembers proper classes and types only. -/
structure Proper (e : Engine) : Prop where
  workspace : e.workspace.IsParsed
  classes : e.workspace.Caches e.workspace.StaysProper e.classes
  types : e.types.Every fun _ t ↦ t.Segmented

variable {e : Engine} {d : Document} {n : Node}

theorem Proper.caches (h : e.Proper) : e.Caches e.workspace e.workspace.StaysProper :=
  ⟨rfl, h.classes⟩

theorem types_ask (e : Engine) (q : Question) (hq : ∀ d n, q ≠ .resolve d n) :
    ((q.ask).run e).2.types = e.types := by
  have hkeep {α : Type} (ask : Workspace → StateM ClassCache α) :
      Keeps (fun e' : Engine ↦ e'.types = e.types) (withClasses ask) := fun _ ↦ id
  cases q with
  | reflect name => rfl
  | reflectFrom d name => rfl
  | resolve d n => exact absurd rfl (hq d n)
  | infer d n => rfl
  | completeIn d target =>
    have hreceiver : Keeps (fun e' : Engine ↦ e'.types = e.types) (receiverType d target) := by
      unfold receiverType
      split
      · exact hkeep _
      · exact hkeep _
      · exact .pure _
    have hitems (c : Option ClassInfo) : Keeps (fun e' : Engine ↦ e'.types = e.types) (do
        return Completion.completeWith (Completion.Provider.all (← get).tags) ⟨d, target, c⟩) :=
      fun _ ↦ id
    have hall : Keeps (fun e' : Engine ↦ e'.types = e.types) (completeIn d target) := by
      refine hreceiver.bind fun t ↦ ?_
      simp only
      split
      · exact (hkeep _).bind hitems
      · exact hitems none
    exact hall e rfl

theorem Proper.infer (h : e.Proper) (hd : d.IsParsed) (hn : n.Spelled) :
    ((infer d n).run e).1.Segmented :=
  (Workspace.ensures_infer h.workspace hd hn e.classes h.classes).1

theorem Proper.resolve (h : e.Proper) (hd : d.IsParsed) (hn : n.Spelled) :
    ((resolve d n).run e).1.Segmented ∧
      ((resolve d n).run e).2.types.Every fun _ t ↦ t.Segmented := by
  cases hp : e.types.peek? (e.typeKey d n) with
  | some type =>
    rw [resolve_run_of_some hp]
    exact ⟨UsageCache.Every.peek? h.types hp, h.types.touch _⟩
  | none =>
    rw [resolve_run_of_none hp]
    exact ⟨h.infer hd hn, UsageCache.Every.set h.types (h.infer hd hn)⟩

theorem Proper.answer (h : e.Proper) {q : Question} (hq : q.IsRead) :
    ((q.ask).run e).1.Segmented := by
  cases q with
  | reflect name =>
    exact fun c hc ↦
      ((Workspace.ensures_reflect? h.workspace name e.classes h.classes).1 c hc).toSegmented
  | reflectFrom d name =>
    exact fun c hc ↦
      ((Workspace.ensures_reflectFrom? h.workspace hq name e.classes h.classes).1 c hc).toSegmented
  | resolve d n => exact (h.resolve hq.1 hq.2.spelled).1
  | infer d n => exact h.infer hq.1 hq.2.spelled
  | completeIn d target => trivial

theorem Proper.ask (h : e.Proper) {q : Question} (hq : q.IsRead) : ((q.ask).run e).2.Proper := by
  obtain ⟨hworkspace, hclasses⟩ := keeps_ask (Workspace.hereditary_staysProper _) q e h.caches
  refine ⟨hworkspace ▸ h.workspace, hworkspace ▸ hclasses, ?_⟩
  by_cases hresolve : ∃ d n, q = .resolve d n
  · obtain ⟨d, n, rfl⟩ := hresolve
    exact (h.resolve hq.1 hq.2.spelled).2
  · rw [types_ask e q fun d n hsame ↦ hresolve ⟨d, n, hsame⟩]
    exact h.types

theorem Proper.typeAt (h : e.Proper) (hd : d.IsParsed) (offset : Nat) :
    ((typeAt d offset).run e).1.Segmented := by
  unfold Engine.typeAt
  split
  · rename_i x hx
    obtain ⟨id, uri, source, version, hparse⟩ := id hd
    have hshortest := Document.shortest_exprAt hparse offset
    rw [hx] at hshortest
    exact (h.resolve hd (hd.spelled (List.mem_filter.mp hshortest.1).1)).1
  · exact nofun

end Engine

def Event.IsRead : Event → Prop
  | add d => d.IsParsed
  | ask q => q.IsRead
  | _ => True

namespace Session

variable {s start : Session}

theorem proper_after (h : s.engine.Proper) {v : Event} (hv : v.IsRead) :
    (s.after v).engine.Proper := by
  cases v with
  | parse uri source version =>
    rw [after_parse]
    split
    · exact ⟨h.workspace, h.classes, h.types⟩
    · exact h
  | add d =>
    have hdocs : ({ s.engine.workspace with
        registry := s.engine.workspace.registry.add d } : Workspace).IsParsed := by
      intro d' hd'
      rcases List.mem_append.mp hd' with hd' | hd'
      · rcases List.mem_cons.mp hd' with rfl | hd'
        · exact hv
        · exact h.workspace d' (List.mem_append_left _ (List.mem_filter.mp hd').1)
      · exact h.workspace d' (List.mem_append_right _ hd')
    exact ⟨hdocs, (h.caches.changed (Nat.lt_succ_self _) _).classes, h.types⟩
  | clear =>
    exact ⟨fun d' hd' ↦ h.workspace d' (List.mem_append_right _ hd'),
      (h.caches.changed (Nat.lt_succ_self _) _).classes, h.types⟩
  | ask q => exact h.ask hv
  | wait seconds => exact ⟨h.workspace, h.classes, h.types⟩
  | clean =>
    exact ⟨h.workspace, (h.caches.of_subset List.filter_sublist.subset).classes,
      h.types.of_subset List.filter_sublist.subset⟩
  | purge keepClass keepType =>
    exact ⟨h.workspace, (h.caches.of_subset List.filter_sublist.subset).classes,
      h.types.of_subset List.filter_sublist.subset⟩

theorem proper_afterAll (h : s.engine.Proper) {events : List Event}
    (hevents : ∀ v ∈ events, v.IsRead) : (s.afterAll events).engine.Proper :=
  List.foldlRecOn (motive := fun s : Session ↦ s.engine.Proper) events _ h
    fun _ hs v hv ↦ proper_after hs (hevents v hv)

/-- Whatever an engine for parsed documents has been asked, the classes that it answers and the
types that are classes have names of segments. -/
theorem answer_segmented (hclasses : start.engine.classes.entries = [])
    (htypes : start.engine.types.entries = []) (hworkspace : start.engine.workspace.IsParsed)
    {events : List Event} (hevents : ∀ v ∈ events, v.IsRead) :
    (∀ q : Question, q.IsRead →
      ((q.ask).run (start.afterAll events).engine).1.Segmented) ∧
    ∀ d : Document, d.IsParsed → ∀ offset,
      ((Engine.typeAt d offset).run (start.afterAll events).engine).1.Segmented := by
  have hstart : start.engine.Proper := ⟨hworkspace, UsageCache.every_of_entries_eq_nil hclasses,
    UsageCache.every_of_entries_eq_nil htypes⟩
  have hafter := proper_afterAll hstart hevents
  exact ⟨fun q hq ↦ hafter.answer hq, fun d hd ↦ hafter.typeAt hd⟩

/-- A class whose parent is imported and whose property has a malformed type. -/
def untidy : List Char :=
  ("<?php namespace App; use Lib\\Kit as K; class A extends K\\Base\x7b" ++
    "/** @var K\\\\\\Item\\ */ public $p; function f()\x7b$this->p;\x7d\x7d").toList

theorem answer_segmented_untidy :
    ∃ d c, Document.parse 0 "a.php" untidy 0 = .ok d ∧ (opened d).engine.workspace.IsParsed ∧
      ((Engine.typeAt d 115).run ((opened d).afterAll
        [.ask (.reflect "App\\A"), .wait 60]).engine).1 = .class "Lib\\Kit\\Item" ∧
      IsSegmented "Lib\\Kit\\Item" ∧
      ((Engine.reflect? "\\app\\a").run ((opened d).afterAll
        [.ask (.reflect "App\\A"), .wait 60]).engine).1 = some c ∧
      c.parent = some "Lib\\Kit\\Base" ∧ c.Segmented := by
  have hfile : (Document.parse 0 "a.php" untidy 0).toOption.map (fun d ↦
      (((Engine.typeAt d 115).run ((opened d).afterAll
        [.ask (.reflect "App\\A"), .wait 60]).engine).1,
      ((Engine.reflect? "\\app\\a").run ((opened d).afterAll
        [.ask (.reflect "App\\A"), .wait 60]).engine).1.map ClassInfo.parent)) =
      some (.class "Lib\\Kit\\Item", some (some "Lib\\Kit\\Base")) := by decide +kernel
  obtain ⟨d, hd, hfile⟩ := Option.map_eq_some_iff.mp hfile
  obtain ⟨htype, hclass⟩ := Prod.mk.inj hfile
  obtain ⟨c, hc, hparent⟩ := Option.map_eq_some_iff.mp hclass
  have hparse := Document.parse_of_toOption hd
  have hparsed : d.IsParsed := ⟨_, _, _, _, hparse⟩
  have hworkspace : (opened d).engine.workspace.IsParsed := List.forall_mem_singleton.mpr hparsed
  have hevents : ∀ v ∈ ([.ask (.reflect "App\\A"), .wait 60] : List Event), v.IsRead :=
    List.forall_mem_cons.mpr ⟨trivial, List.forall_mem_singleton.mpr trivial⟩
  obtain ⟨hanswer, htypes⟩ := @answer_segmented (opened d) rfl rfl hworkspace _ hevents
  refine ⟨d, c, hparse, hworkspace, htype, ?_, hc, hparent, ?_⟩
  · have hsegmented := htypes d hparsed 115
    rw [htype] at hsegmented
    exact hsegmented _ rfl
  · exact hanswer (.reflect "\\app\\a") trivial c hc

end Session

end PhpInsight

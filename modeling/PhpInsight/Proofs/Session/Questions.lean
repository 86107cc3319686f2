import Mathlib.Data.List.Nodup
import PhpInsight.Engine
import PhpInsight.Proofs.Session.Steady

namespace PhpInsight

/-- The keys of an engine are of the present and earlier generations and of known documents. What
is remembered of types under the present generation is what inference finds. -/
structure Engine.Holds (docs : List Document) (w : Workspace)
    (index : Option Completion.TagsIndex) (limit : Nat) (e : Engine) : Prop where
  workspace : e.workspace = w
  tags : e.tags = index
  nextId : e.nextId = limit
  classes : w.Sound e.classes
  types : e.types.Every fun key value ↦
    (key.generation ≤ w.generation ∧ key.document < limit) ∧
      (key.generation = w.generation → ∀ d ∈ docs, d.id = key.document → ∀ n ∈ d.nodes,
        n.kind = key.kind → n.span = key.span → value = ((w.infer d n).run {}).1)

/-- What an engine is asked, and what its caches must hold for the answer to be that of an engine
that remembers nothing. -/
inductive Question
  | reflect (name : String)
  | reflectFrom (d : Document) (name : String)
  | resolve (d : Document) (n : Node)
  | infer (d : Document) (n : Node)
  | completeIn (d : Document) (target : Expr)

inductive Answer
  | class (c : Option ClassInfo)
  | type (t : InferredType)
  | items (items : List Completion.Item)

namespace Question

def ask : Question → StateM Engine Answer
  | reflect name => do return .class (← Engine.reflect? name)
  | reflectFrom d name => do return .class (← Engine.reflectFrom? d name)
  | resolve d n => do return .type (← Engine.resolve d n)
  | infer d n => do return .type (← Engine.infer d n)
  | completeIn d target => do return .items (← Engine.completeIn d target)

def documents : Question → List Document
  | reflect _ => []
  | reflectFrom d _ | resolve d _ | infer d _ | completeIn d _ => [d]

/-- Types are remembered for the nodes of a parsed document's own tree only. -/
def Fits (docs : List Document) : Question → Prop
  | resolve d n => d ∈ docs ∧ n ∈ d.nodes
  | _ => True

end Question

namespace Engine

variable {docs : List Document} {w : Workspace} {index : Option Completion.TagsIndex}
  {limit : Nat} {e : Engine} {α : Type}

def forgetful (e : Engine) : Engine := { e with classes := {}, types := {} }

theorem Holds.forgetful (h : e.Holds docs w index limit) :
    e.forgetful.Holds docs w index limit :=
  ⟨h.workspace, h.tags, h.nextId, Workspace.caches_empty, UsageCache.every_empty⟩

theorem Holds.withClasses (h : e.Holds docs w index limit) {classes : ClassCache}
    (hc : w.Sound classes) : ({ e with classes := classes } : Engine).Holds docs w index limit :=
  ⟨h.workspace, h.tags, h.nextId, hc, h.types⟩

theorem Holds.of_subset (h : e.Holds docs w index limit) {classes : ClassCache} {types : TypeCache}
    (hc : classes.entries ⊆ e.classes.entries) (ht : types.entries ⊆ e.types.entries) :
    ({ e with classes := classes, types := types } : Engine).Holds docs w index limit :=
  ⟨h.workspace, h.tags, h.nextId, h.classes.of_subset hc, h.types.of_subset ht⟩

theorem Holds.changed (h : e.Holds docs w index limit) {w' : Workspace}
    (hlt : w.generation < w'.generation) :
    ({ e with workspace := w' } : Engine).Holds docs w' index limit := by
  refine ⟨rfl, h.tags, h.nextId, h.classes.changed hlt _, h.types.imp fun key _ hk ↦ ?_⟩
  exact ⟨⟨Nat.le_trans hk.1.1 (Nat.le_of_lt hlt), hk.1.2⟩, fun he ↦ absurd hk.1.1 (by omega)⟩

theorem Holds.parsed (h : e.Holds docs w index limit) {d : Document} (hd : d.id = limit) :
    ({ e with nextId := limit + 1 } : Engine).Holds (d :: docs) w index (limit + 1) := by
  refine ⟨h.workspace, h.tags, rfl, h.classes, h.types.imp fun key value hk ↦ ?_⟩
  refine ⟨⟨hk.1.1, Nat.lt_succ_of_lt hk.1.2⟩, fun he d' hd' hid ↦ ?_⟩
  rcases List.mem_cons.mp hd' with rfl | hd'
  · exact absurd hk.1.2 (by omega)
  · exact hk.2 he d' hd' hid

theorem resolve_run_of_some {d : Document} {n : Node} {type : InferredType}
    (h : e.types.peek? (e.typeKey d n) = some type) :
    (resolve d n).run e = (type, { e with types := e.types.touch (e.typeKey d n) }) := by
  simp [resolve, UsageCache.get, h]
  rfl

theorem resolve_run_of_none {d : Document} {n : Node}
    (h : e.types.peek? (e.typeKey d n) = none) :
    (resolve d n).run e = (((infer d n).run e).1,
      { ((infer d n).run e).2 with
        types := ((infer d n).run e).2.types.set (e.typeKey d n) ((infer d n).run e).1 }) := by
  simp [resolve, UsageCache.get, h]
  rfl

theorem steady_withClasses {ask : Workspace → StateM ClassCache α} {post : α → Prop}
    (h : Steady w.Sound (ask w) post) :
    Steady (Holds docs w index limit) (withClasses ask) post := by
  obtain ⟨a, ha, h⟩ := h
  refine ⟨a, ha, fun e he ↦ ?_⟩
  obtain ⟨hvalue, hsound⟩ := h e.classes he.classes
  have hrun : (withClasses ask).run e = (((ask e.workspace).run e.classes).1,
      { e with classes := ((ask e.workspace).run e.classes).2 }) := rfl
  rw [hrun]
  obtain rfl := he.workspace
  exact ⟨hvalue, he.withClasses hsound⟩

section

variable {reach : List Document} (hacyclic : AcyclicAmong reach) (hs : w.documents ⊆ reach)

include hacyclic hs

theorem steady_infer {d : Document} (hd : d ∈ reach) (n : Node) :
    Steady (Holds docs w index limit) (infer d n) fun t ↦ t = ((w.infer d n).run {}).1 := by
  refine steady_withClasses ?_
  have h := Workspace.steady_infer hacyclic hs hd n
  refine ⟨_, rfl, fun cache hcache ↦ ⟨h.run_eq hcache Workspace.caches_empty, h.run_state hcache⟩⟩

/-- A remembered type was found for this very node, since no other node has its key. -/
theorem steady_resolve {d : Document} (hd : d ∈ reach) (hid : ∀ d' ∈ docs, d'.id = d.id → d' = d)
    (hlt : d.id < limit) (hdocs : d ∈ docs) {n : Node} (hn : n ∈ d.nodes)
    (hkeyed : (d.nodes.map fun n ↦ (n.kind, n.span)).Nodup) :
    Steady (Holds docs w index limit) (resolve d n) fun _ ↦ True := by
  refine ⟨((w.infer d n).run {}).1, trivial, fun e he ↦ ?_⟩
  have hkey : e.typeKey d n = ⟨w.generation, d.id, n.kind, n.span⟩ := by
    rw [typeKey, he.workspace]
  cases hp : e.types.peek? (e.typeKey d n) with
  | some type =>
    rw [resolve_run_of_some hp]
    rw [hkey] at hp ⊢
    have hvalue := (UsageCache.Every.peek? he.types hp).2 rfl d hdocs rfl n hn rfl rfl
    exact ⟨hvalue, he.workspace, he.tags, he.nextId, he.classes, he.types.touch _⟩
  | none =>
    obtain ⟨a, ha, hinfer⟩ := @steady_infer docs w index limit reach hacyclic hs d hd n
    obtain ⟨hvalue, hstate⟩ := hinfer e he
    rw [resolve_run_of_none hp, hkey, hvalue, ha]
    refine ⟨rfl, hstate.workspace, hstate.tags, hstate.nextId, hstate.classes, ?_⟩
    refine hstate.types.set ⟨⟨Nat.le_refl _, hlt⟩, fun _ d' hd' hsame n' hn' hkind hspan ↦ ?_⟩
    obtain rfl := hid d' hd' hsame
    rw [List.inj_on_of_nodup_map hkeyed hn' hn (Prod.ext hkind hspan)]

theorem steady_receiverType {d : Document} (hd : d ∈ reach) (target : Expr) :
    Steady (Holds docs w index limit) (receiverType d target) fun _ ↦ True := by
  unfold receiverType
  split
  · exact (steady_infer hacyclic hs hd _).imp fun _ _ ↦ trivial
  · exact (steady_infer hacyclic hs hd _).imp fun _ _ ↦ trivial
  · exact .pure trivial

theorem steady_completeIn {d : Document} (hd : d ∈ reach) (target : Expr) :
    Steady (Holds docs w index limit) (completeIn d target) fun _ ↦ True := by
  have hitems (c : Option ClassInfo) : Steady (Holds docs w index limit) (do
      return Completion.completeWith (Completion.Provider.all (← get).tags) ⟨d, target, c⟩)
      fun _ ↦ True := by
    refine ⟨Completion.completeWith (Completion.Provider.all index) ⟨d, target, c⟩, trivial,
      fun e he ↦ ⟨?_, he⟩⟩
    rw [← he.tags]
    rfl
  refine (steady_receiverType hacyclic hs hd target).bind fun t _ ↦ ?_
  simp only
  split
  · exact (steady_withClasses (Workspace.steady_reflectFrom? hacyclic hs hd _)).bind fun c _ ↦
      hitems c
  · exact hitems none

end

end Engine

end PhpInsight

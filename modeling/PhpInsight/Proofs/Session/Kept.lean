import PhpInsight.Proofs.Session.Run
import PhpInsight.Proofs.Types.Ensured

namespace PhpInsight

def Keeps {σ α : Type} (I : σ → Prop) (p : StateM σ α) : Prop := ∀ s, I s → I (p.run s).2

namespace Keeps

variable {σ α β : Type} {I : σ → Prop} {p : StateM σ α}

theorem pure (a : α) : Keeps I (Pure.pure a : StateM σ α) := fun _ ↦ id

theorem bind (hp : Keeps I p) {f : α → StateM σ β} (hf : ∀ a, Keeps I (f a)) :
    Keeps I (p >>= f) := fun s hs ↦ hf _ _ (hp s hs)

end Keeps

namespace Workspace

variable {w : Workspace} {I : ClassCache → Prop}
  (h : ∀ d name, Keeps I (w.reflectFrom? d name))

include h

theorem keeps_infer (d : Document) (n : Node) : Keeps I (w.infer d n) := by
  unfold infer nodeType
  cases n with
  | expr e =>
    have hreflect (d : Document) (_ : True) (name : String) :
        Ensures I (w.reflectFrom? d name) fun o ↦ ∀ c ∈ o, True := fun s hs ↦
      ⟨fun _ _ ↦ trivial, h d name s hs⟩
    have hall : HandsOn (fun _ ↦ True) (fun _ ↦ True) (fun _ ↦ True) (fun _ ↦ True) :=
      ⟨trivial, fun _ _ ↦ by unfold TypeSource.Of; split <;> trivial, fun _ _ ↦ trivial,
        fun _ ↦ trivial, fun _ _ ↦ trivial, fun _ _ ↦ trivial⟩
    exact fun s hs ↦ (ensures_exprType hreflect hall _ trivial trivial s hs).2
  | _ => exact .pure _

end Workspace

/-- A relation of a flattened class to the class, when what is remembered of other classes is in
the same relation to them. -/
def Workspace.Hereditary (w : Workspace) (P : ClassInfo → ClassInfo → Prop) : Prop :=
  ∀ cache, w.Caches P cache → ∀ name c, w.locate? name = some c → P c (w.flattened cache c)

namespace Engine

variable {w : Workspace} {P : ClassInfo → ClassInfo → Prop} {α : Type}

structure Caches (w : Workspace) (P : ClassInfo → ClassInfo → Prop) (e : Engine) : Prop where
  workspace : e.workspace = w
  classes : w.Caches P e.classes

theorem Caches.changed {e : Engine} (h : e.Caches w P) {w' : Workspace}
    (hlt : w.generation < w'.generation) (P' : ClassInfo → ClassInfo → Prop) :
    ({ e with workspace := w' } : Engine).Caches w' P' := ⟨rfl, h.classes.changed hlt P'⟩

theorem Caches.of_subset {e : Engine} (h : e.Caches w P) {classes : ClassCache}
    (hs : classes.entries ⊆ e.classes.entries) {types : TypeCache} :
    ({ e with classes := classes, types := types } : Engine).Caches w P :=
  ⟨h.workspace, h.classes.of_subset hs⟩

theorem keeps_withClasses {ask : Workspace → StateM ClassCache α}
    (h : Keeps (w.Caches P) (ask w)) : Keeps (Caches w P) (withClasses ask) := by
  rintro e ⟨rfl, he⟩
  exact ⟨rfl, h e.classes he⟩

variable (hP : w.Hereditary P)

include hP

theorem keeps_workspace_reflect? (name : String) : Keeps (w.Caches P) (w.reflect? name) := by
  intro cache hs
  obtain ⟨_, cache', hrun, hs', _⟩ := Workspace.Caches.reflect? hs name (hP cache hs name)
  rw [hrun]
  exact hs'

theorem keeps_workspace_reflectFrom? (d : Document) (name : String) :
    Keeps (w.Caches P) (w.reflectFrom? d name) :=
  fun cache hs ↦ Workspace.Caches.reflectFrom? hs d name (hP cache hs name)

theorem keeps_reflect? (name : String) : Keeps (Caches w P) (reflect? name) :=
  keeps_withClasses (keeps_workspace_reflect? hP name)

theorem keeps_reflectFrom? (d : Document) (name : String) :
    Keeps (Caches w P) (reflectFrom? d name) :=
  keeps_withClasses (keeps_workspace_reflectFrom? hP d name)

theorem keeps_infer (d : Document) (n : Node) : Keeps (Caches w P) (infer d n) :=
  keeps_withClasses (Workspace.keeps_infer (keeps_workspace_reflectFrom? hP) d n)

theorem keeps_resolve (d : Document) (n : Node) : Keeps (Caches w P) (resolve d n) := by
  intro e he
  have hrun := keeps_infer hP d n e he
  cases hp : e.types.peek? (e.typeKey d n) with
  | some type =>
    rw [resolve_run_of_some hp]
    exact ⟨he.workspace, he.classes⟩
  | none =>
    rw [resolve_run_of_none hp]
    exact ⟨hrun.workspace, hrun.classes⟩

theorem keeps_receiverType (d : Document) (target : Expr) :
    Keeps (Caches w P) (receiverType d target) := by
  unfold receiverType
  split
  · exact keeps_infer hP d _
  · exact keeps_infer hP d _
  · exact .pure _

theorem keeps_completeIn (d : Document) (target : Expr) :
    Keeps (Caches w P) (completeIn d target) := by
  have hitems (c : Option ClassInfo) : Keeps (Caches w P) (do
      return Completion.completeWith (Completion.Provider.all (← get).tags) ⟨d, target, c⟩) :=
    fun _ ↦ id
  refine (keeps_receiverType hP d target).bind fun t ↦ ?_
  simp only
  split
  · exact (keeps_reflectFrom? hP d _).bind hitems
  · exact hitems none

theorem keeps_ask (q : Question) : Keeps (Caches w P) q.ask := by
  cases q with
  | reflect name => exact (keeps_reflect? hP name).bind fun _ ↦ .pure _
  | reflectFrom d name => exact (keeps_reflectFrom? hP d name).bind fun _ ↦ .pure _
  | resolve d n => exact (keeps_resolve hP d n).bind fun _ ↦ .pure _
  | infer d n => exact (keeps_infer hP d n).bind fun _ ↦ .pure _
  | completeIn d target => exact (keeps_completeIn hP d target).bind fun _ ↦ .pure _

end Engine

namespace Session

variable {P : Workspace → ClassInfo → ClassInfo → Prop} {s : Session} {w : Workspace}

def afterAll (s : Session) (events : List Event) : Session := events.foldl after s

/-- What holds of the classes of every workspace. -/
theorem caches_after (hP : ∀ w : Workspace, w.Hereditary (P w)) (h : s.engine.Caches w (P w))
    (v : Event) : ∃ w', (s.after v).engine.Caches w' (P w') := by
  cases v with
  | parse uri source version =>
    refine ⟨w, ?_⟩
    rw [after_parse]
    split
    · exact ⟨h.workspace, h.classes⟩
    · exact h
  | add d =>
    exact ⟨_, h.changed (h.workspace ▸ Nat.lt_succ_self s.engine.workspace.generation) _⟩
  | clear =>
    exact ⟨_, h.changed (h.workspace ▸ Nat.lt_succ_self s.engine.workspace.generation) _⟩
  | ask q => exact ⟨w, Engine.keeps_ask (hP w) q _ h⟩
  | wait seconds => exact ⟨w, h.workspace, h.classes⟩
  | clean => exact ⟨w, h.of_subset List.filter_sublist.subset⟩
  | purge keepClass keepType => exact ⟨w, h.of_subset List.filter_sublist.subset⟩

theorem caches_afterAll (hP : ∀ w : Workspace, w.Hereditary (P w))
    (h : s.engine.classes.entries = []) (events : List Event) :
    ∃ w, (s.afterAll events).engine.Caches w (P w) := by
  have hstart : s.engine.Caches s.engine.workspace (P s.engine.workspace) :=
    ⟨rfl, UsageCache.every_of_entries_eq_nil h⟩
  exact List.foldlRecOn (motive := fun s : Session ↦ ∃ w, s.engine.Caches w (P w)) events _
    ⟨_, hstart⟩ fun _ ⟨_, hs⟩ v _ ↦ caches_after hP hs v

end Session

end PhpInsight

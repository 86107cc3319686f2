import PhpInsight.Proofs.Inheritance.Hierarchy

namespace PhpInsight.Workspace

variable {w : Workspace} {cache : ClassCache}

theorem Caches.reflect? {P : ClassInfo → ClassInfo → Prop} (hs : w.Caches P cache)
    (name : String) (hflat : ∀ c, w.locate? name = some c → P c (w.flattened cache c)) :
    ∃ answer cache', (w.reflect? name).run cache = (answer, cache') ∧ w.Caches P cache' ∧
      answer.isSome = (w.locate? name).isSome ∧
      ∀ flat, answer = some flat → ∃ c, w.locate? name = some c ∧ P c flat := by
  cases hr : w.remembered? cache name with
  | some known =>
    obtain ⟨c, hc, hp⟩ := hs.remembered? hr
    refine ⟨_, _, reflect?_of_remembered hr, UsageCache.Every.touch hs _, by simp [hc], ?_⟩
    rintro flat ⟨⟩
    exact ⟨c, hc, hp⟩
  | none =>
    cases hc : w.locate? name with
    | none =>
      refine ⟨none, _, reflect?_of_absent hr hc, UsageCache.Every.touch hs _, rfl, ?_⟩
      rintro flat ⟨⟩
    | some c =>
      have hp := hflat c hc
      obtain ⟨later, hused, hrun⟩ := reflect?_of_located hr hc
      refine ⟨_, _, hrun, ?_, rfl, ?_⟩
      · exact UsageCache.Every.set (hs.used hused)
          ⟨Nat.le_refl _, fun _ ↦ ⟨name, c, rfl, hc, hp⟩⟩
      · rintro flat ⟨⟩
        exact ⟨c, rfl, hp⟩

/-- A document's own class is flattened beside the cache, which learns nothing of it. -/
theorem Caches.reflectFrom? {P : ClassInfo → ClassInfo → Prop} (hs : w.Caches P cache)
    (d : Document) (name : String)
    (hflat : ∀ c, w.locate? name = some c → P c (w.flattened cache c)) :
    w.Caches P ((w.reflectFrom? d name).run cache).2 := by
  cases hc : d.locate? name with
  | some c =>
    obtain ⟨later, hused, hrun⟩ := reflectFrom?_of_declared hc cache
    rw [hrun]
    exact hs.used hused
  | none =>
    obtain ⟨_, cache', hrun, hs', _⟩ := Caches.reflect? hs name hflat
    rw [reflectFrom?_of_undeclared hc, hrun]
    exact hs'

theorem reflect?_run (hw : w.Acyclic) (hs : w.Sound cache) (name : String) :
    ∃ cache', (w.reflect? name).run cache = ((w.locate? name).map (w.flattened {}), cache') ∧
      w.Sound cache' := by
  obtain ⟨answer, cache', hrun, hs', hsome, hflat⟩ :=
    Caches.reflect? hs name fun c hc ↦ flattened_eq hw hs (hw.clear hc)
  refine ⟨cache', ?_, hs'⟩
  rw [hrun]
  cases answer with
  | none =>
    have hnone : w.locate? name = none := by simpa using hsome.symm
    rw [hnone]
    rfl
  | some flat =>
    obtain ⟨c, hc, rfl⟩ := hflat flat rfl
    rw [hc]
    rfl

def seen? (w : Workspace) (d : Document) (name : String) : Option ClassInfo :=
  (d.locate? name).or (w.locate? name)

theorem reflectFrom?_run (hw : w.Acyclic) (hs : w.Sound cache) (d : Document) (name : String)
    (hd : ∀ c, d.locate? name = some c → w.Clear [] c) :
    ∃ cache', (w.reflectFrom? d name).run cache =
      ((w.seen? d name).map (w.flattened {}), cache') ∧ w.Sound cache' := by
  cases hc : d.locate? name with
  | some c =>
    obtain ⟨later, hused, hrun⟩ := reflectFrom?_of_declared hc cache
    refine ⟨later, ?_, hs.used hused⟩
    rw [hrun, flattened_eq hw hs (hd c hc), seen?, hc]
    rfl
  | none =>
    have hseen : w.seen? d name = w.locate? name := by rw [seen?, hc, Option.none_or]
    rw [hseen, reflectFrom?_of_undeclared hc]
    exact reflect?_run hw hs name

/-- A cache that held only what earlier generations left, and has since served reflection and lost
entries. -/
inductive Left (w : Workspace) : ClassCache → Prop
  | start {cache : ClassCache} (h : ∀ e ∈ cache.entries, e.key.1 < w.generation) : Left w cache
  | reflect {cache : ClassCache} (h : Left w cache) (name : String) :
      Left w ((w.reflect? name).run cache).2
  | reflectFrom {cache : ClassCache} (h : Left w cache) (d : Document) (name : String) :
      Left w ((w.reflectFrom? d name).run cache).2
  | purge {cache cache' : ClassCache} (h : Left w cache) (hs : cache'.entries ⊆ cache.entries) :
      Left w cache'

/-- What flattening brings about, if what is remembered has it, all such a cache has. -/
theorem Left.caches {P : ClassInfo → ClassInfo → Prop}
    (hflat : ∀ cache, w.Left cache → w.Caches P cache → ∀ name c, w.locate? name = some c →
      P c (w.flattened cache c)) (h : w.Left cache) : w.Caches P cache := by
  induction h with
  | start h => exact fun e he ↦ ⟨Nat.le_of_lt (h e he), fun hg ↦ absurd (h e he) (by omega)⟩
  | reflect hl name ih =>
    obtain ⟨_, cache', hrun, hs, _⟩ := Caches.reflect? ih name (hflat _ hl ih name)
    rw [hrun]
    exact hs
  | reflectFrom hl d name ih => exact Caches.reflectFrom? ih d name (hflat _ hl ih name)
  | purge _ hs ih => exact ih.of_subset hs

theorem Left.sound (hw : w.Acyclic) (h : w.Left cache) : w.Sound cache :=
  h.caches fun _ _ hs _ _ hc ↦ flattened_eq hw hs (hw.clear hc)

end PhpInsight.Workspace

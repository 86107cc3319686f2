import PhpInsight.Proofs.Inheritance.Cycles

namespace PhpInsight

namespace Workspace

variable {w : Workspace} {cache : ClassCache} {a b c : ClassInfo} {name : String}

/-- The code of a class becomes part of another one, which uses it or is it. -/
inductive Uses (w : Workspace) : ClassInfo → ClassInfo → Prop
  | refl (c : ClassInfo) : Uses w c c
  | use {a b c : ClassInfo} {name : String} (hn : name ∈ c.traits) (ha : w.locate? name = some a)
      (h : Uses w a b) : Uses w c b

/-- The private members of a flattened class are its own ones and those of the classes it uses. -/
structure Confined (w : Workspace) (c flat : ClassInfo) : Prop where
  name : flat.name = c.name
  members {α : Type} (T : MemberTable α) : ∀ m ∈ T.of flat,
    (T.modifiers m).visibility = .private → ∃ a, w.Uses c a ∧ m ∈ T.of a

theorem confined_self (w : Workspace) (c : ClassInfo) : w.Confined c c :=
  ⟨rfl, fun _ _ hm _ ↦ ⟨c, .refl c, hm⟩⟩

theorem mem_traits_of_mem_bases (h : (true, name) ∈ c.bases) : name ∈ c.traits := by
  simpa [ClassInfo.bases] using h

theorem confined_foldl {sources : List (Bool × ClassInfo)}
    (h : ∀ s ∈ sources, ∃ name a, (s.1, name) ∈ c.bases ∧ w.locate? name = some a ∧
      w.Confined a s.2) :
    w.Confined c (sources.foldl (fun c s ↦ c.inherit s.2 s.1) c) := by
  refine ⟨foldl_inherit_keeps (fun _ _ _ ↦ rfl) sources c, fun T m hm hprivate ↦ ?_⟩
  rcases T.mem_foldl hm with hm | ⟨s, hs, hm⟩
  · exact ⟨c, .refl c, hm⟩
  · obtain ⟨name, a, hbase, ha, hconfined⟩ := h s hs
    obtain ⟨hm, hvisible⟩ := List.mem_filter.mp hm
    have hused : s.1 = true := by simpa [MemberTable.visible, hprivate] using hvisible
    rw [hused] at hbase
    obtain ⟨b, hb, hmb⟩ := hconfined.members T m hm hprivate
    exact ⟨b, .use (mem_traits_of_mem_bases hbase) ha hb, hmb⟩

theorem flatten_confined (hs : w.Caches w.Confined cache) (fuel : Nat) (path : List String)
    (c : ClassInfo) : w.Confined c (w.flatten cache fuel path c) :=
  flatten_related w.confined_self (fun _ _ ↦ confined_foldl) hs fuel path c

theorem Uses.declaringClass {α : Type} (T : MemberTable α) (h : w.Uses c a)
    (hc : ∃ d k, c = .ofDeclaration d k) {m : α} (hm : m ∈ T.of a) :
    T.declaringClass m = a.name := by
  induction h with
  | refl c =>
    obtain ⟨d, k, rfl⟩ := hc
    exact T.declaringClass_of d k m hm
  | use _ ha _ ih =>
    obtain ⟨d, _, k, _, _, hdeclared⟩ := locate?_eq_some ha
    exact ih ⟨d, k, hdeclared⟩ hm

end Workspace

end PhpInsight

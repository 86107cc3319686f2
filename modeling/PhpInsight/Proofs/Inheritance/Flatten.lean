import PhpInsight.Proofs.UsageCache
import PhpInsight.Workspace

namespace PhpInsight

/-- The classes whose members a class takes over, in order. Traits give their private ones too. -/
def ClassInfo.bases (c : ClassInfo) : List (Bool × String) :=
  c.traits.map (true, ·) ++ (c.parent.toList ++ c.interfaces).map (false, ·)

namespace Workspace

def remembered? (w : Workspace) (cache : ClassCache) (name : String) : Option ClassInfo :=
  cache.peek? (w.generation, classKey name)

/-- What a class is flattened to, while what is remembered stays as it is. Uses of it change nothing
but when it expires. -/
def flatten (w : Workspace) (cache : ClassCache) : (fuel : Nat) → (visiting : List String) →
    ClassInfo → ClassInfo
  | 0, _, c => c
  | fuel + 1, visiting, c =>
    let path := Text.lower c.name :: visiting
    let ancestor? (name : String) : Option ClassInfo :=
      if path.contains (classKey name) then none
      else match w.remembered? cache name with
        | some known => some known
        | none => (w.locate? name).map (flatten w cache fuel path)
    let inheritFrom (withPrivate : Bool) (c : ClassInfo) (name : String) : ClassInfo :=
      match ancestor? name with
      | some ancestor => c.inherit ancestor withPrivate
      | none => c
    let withTraits := c.traits.foldl (inheritFrom true) c
    (c.parent.toList ++ c.interfaces).foldl (inheritFrom false) withTraits

def flattened (w : Workspace) (cache : ClassCache) (c : ClassInfo) : ClassInfo :=
  w.flatten cache (w.classCount + 1) [] c

def ancestor? (w : Workspace) (cache : ClassCache) (fuel : Nat) (path : List String)
    (name : String) : Option ClassInfo :=
  if path.contains (classKey name) then none
  else match w.remembered? cache name with
    | some known => some known
    | none => (w.locate? name).map (flatten w cache fuel path)

theorem foldl_inherit (f : String → Option ClassInfo) (withPrivate : Bool) (names : List String)
    (c : ClassInfo) {step : ClassInfo → String → ClassInfo}
    (h : ∀ c name, step c name = ((f name).map (c.inherit · withPrivate)).getD c) :
    names.foldl step c =
      ((names.map (withPrivate, ·)).filterMap fun b ↦ (f b.2).map (b.1, ·)).foldl
        (fun c s ↦ c.inherit s.2 s.1) c := by
  induction names generalizing c with
  | nil => rfl
  | cons name names ih =>
    rw [List.foldl_cons, ih, h, List.map_cons, List.filterMap_cons]
    cases f name <;> rfl

theorem flatten_succ (w : Workspace) (cache : ClassCache) (fuel : Nat) (visiting : List String)
    (c : ClassInfo) :
    w.flatten cache (fuel + 1) visiting c =
      (c.bases.filterMap fun b ↦
        (w.ancestor? cache fuel (Text.lower c.name :: visiting) b.2).map (b.1, ·)).foldl
        (fun c s ↦ c.inherit s.2 s.1) c := by
  have hf := foldl_inherit (w.ancestor? cache fuel (Text.lower c.name :: visiting))
  rw [flatten, ClassInfo.bases, List.filterMap_append, hf true c.traits c,
    hf false (c.parent.toList ++ c.interfaces), List.foldl_append]
  all_goals
    intro c' name
    simp only [ancestor?]
    cases (Text.lower c.name :: visiting).contains (classKey name) with
    | true => rfl
    | false => cases w.remembered? cache name <;> cases w.locate? name <;> rfl

variable {w : Workspace} {cache now : ClassCache} {fuel : Nat} {path : List String}

theorem cached?_run (w : Workspace) (now : ClassCache) (name : String) :
    (w.cached? name).run now = (w.remembered? now name, now.touch (w.generation, classKey name)) :=
  rfl

theorem remembered?_of_used (h : cache.Used now) (name : String) :
    w.remembered? now name = w.remembered? cache name := h.peek? _

/-- A program that gives of a class what flattening gives, and does nothing but use what is
remembered. -/
def FlattensAs (cache : ClassCache) (program : ClassInfo → StateM ClassCache ClassInfo)
    (flat : ClassInfo → ClassInfo) : Prop :=
  ∀ c now, cache.Used now → ∃ later, (program c).run now = (flat c, later) ∧ cache.Used later

variable {program : ClassInfo → StateM ClassCache ClassInfo}
  (h : FlattensAs cache program (w.flatten cache fuel path))

include h

theorem findAncestor?_run (hused : cache.Used now) (name : String) :
    ∃ later, (w.findAncestor? path program name).run now =
      (w.ancestor? cache fuel path name, later) ∧ cache.Used later := by
  unfold findAncestor? ancestor?
  cases path.contains (classKey name) with
  | true => exact ⟨now, rfl, hused⟩
  | false =>
    have htouched := hused.touch (w.generation, classKey name)
    simp only [Bool.false_eq_true, if_false]
    rw [StateT.run_bind, cached?_run, remembered?_of_used hused]
    cases w.remembered? cache name with
    | some known => exact ⟨_, rfl, htouched⟩
    | none =>
      cases w.locate? name with
      | none => exact ⟨_, rfl, htouched⟩
      | some c =>
        obtain ⟨later, hrun, hlater⟩ := h c _ htouched
        exact ⟨later, congrArg (fun r : ClassInfo × ClassCache ↦ (some r.1, r.2)) hrun, hlater⟩

theorem inheritFrom_run (hused : cache.Used now) (withPrivate : Bool) (names : List String)
    (c : ClassInfo) :
    ∃ later, (names.foldlM (w.inheritFrom path program withPrivate) c).run now =
      (((names.map (withPrivate, ·)).filterMap fun b ↦
        (w.ancestor? cache fuel path b.2).map (b.1, ·)).foldl (fun c s ↦ c.inherit s.2 s.1) c,
        later) ∧ cache.Used later := by
  induction names generalizing c now with
  | nil => exact ⟨now, rfl, hused⟩
  | cons name names ih =>
    obtain ⟨between, hfound, hbetween⟩ := findAncestor?_run h hused name
    rw [List.foldlM_cons, StateT.run_bind, inheritFrom, StateT.run_bind, hfound, List.map_cons,
      List.filterMap_cons]
    cases w.ancestor? cache fuel path name with
    | none => exact ih hbetween c
    | some ancestor => exact ih hbetween (c.inherit ancestor withPrivate)

omit h

theorem flattenUsing_run (w : Workspace) (cache : ClassCache) (fuel : Nat) (path : List String) :
    FlattensAs cache (w.flattenUsing fuel path) (w.flatten cache fuel path) := by
  induction fuel generalizing path with
  | zero => exact fun c now hused ↦ ⟨now, rfl, hused⟩
  | succ fuel ih =>
    intro c now hused
    have hpath := ih (Text.lower c.name :: path)
    obtain ⟨between, htraits, hbetween⟩ := inheritFrom_run hpath hused true c.traits c
    obtain ⟨later, hsupers, hlater⟩ := inheritFrom_run hpath hbetween false
      (c.parent.toList ++ c.interfaces) _
    refine ⟨later, ?_, hlater⟩
    rw [flattenUsing, StateT.run_bind, htraits, flatten_succ, ClassInfo.bases,
      List.filterMap_append, List.foldl_append]
    exact hsupers

/-- The class is what it is flattened to as long as nothing is remembered or forgotten, which
flattening itself does not do. -/
theorem flattenedUsing_run (w : Workspace) (cache : ClassCache) (c : ClassInfo) :
    ∃ later, (w.flattenedUsing c).run cache = (w.flattened cache c, later) ∧ cache.Used later :=
  flattenUsing_run w cache _ [] c cache (.refl cache)

section

variable {name : String} {c known : ClassInfo}

theorem reflect?_of_remembered (hr : w.remembered? cache name = some known) :
    (w.reflect? name).run cache = (some known, cache.touch (w.generation, classKey name)) := by
  rw [reflect?, StateT.run_bind, cached?_run, hr]
  rfl

theorem reflect?_of_absent (hr : w.remembered? cache name = none) (hc : w.locate? name = none) :
    (w.reflect? name).run cache = (none, cache.touch (w.generation, classKey name)) := by
  rw [reflect?, StateT.run_bind, cached?_run, hr, hc]
  rfl

theorem reflect?_of_located (hr : w.remembered? cache name = none)
    (hc : w.locate? name = some c) :
    ∃ later, cache.Used later ∧ (w.reflect? name).run cache = (some (w.flattened cache c),
      later.set (w.generation, classKey name) (w.flattened cache c)) := by
  obtain ⟨later, hrun, hused⟩ := flattenUsing_run w cache (w.classCount + 1) [] c _
    (.touch (.refl cache) (w.generation, classKey name))
  refine ⟨later, hused, ?_⟩
  rw [reflect?, StateT.run_bind, cached?_run, hr, hc]
  exact congrArg (fun r : ClassInfo × ClassCache ↦
    (some r.1, r.2.set (w.generation, classKey name) r.1)) hrun

theorem reflectFrom?_of_declared {d : Document} (hc : d.locate? name = some c)
    (cache : ClassCache) :
    ∃ later, cache.Used later ∧
      (w.reflectFrom? d name).run cache = (some (w.flattened cache c), later) := by
  obtain ⟨later, hrun, hused⟩ := w.flattenedUsing_run cache c
  refine ⟨later, hused, ?_⟩
  rw [reflectFrom?, hc]
  exact congrArg (fun r : ClassInfo × ClassCache ↦ (some r.1, r.2)) hrun

theorem reflectFrom?_of_undeclared {d : Document} (hc : d.locate? name = none) :
    w.reflectFrom? d name = w.reflect? name := by
  rw [reflectFrom?, hc]

end

end Workspace

end PhpInsight

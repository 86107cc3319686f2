import PhpInsight.Proofs.Inheritance.Hierarchy

namespace PhpInsight.Workspace

def visitAncestor? (w : Workspace) (cache : ClassCache)
    (visit : ClassInfo → StateT (List String) Option ClassInfo) (name : String) :
    StateT (List String) Option (Option ClassInfo) := do
  if (← get).contains (classKey name) then return none
  match w.remembered? cache name with
  | some known => return some known
  | none =>
    match w.locate? name with
    | none => return none
    | some c => return some (← visit c)

def visitBase (w : Workspace) (cache : ClassCache)
    (visit : ClassInfo → StateT (List String) Option ClassInfo) (withPrivate : Bool)
    (c : ClassInfo) (name : String) : StateT (List String) Option ClassInfo := do
  match ← w.visitAncestor? cache visit name with
  | some ancestor => return c.inherit ancestor withPrivate
  | none => return c

/-- Flattens a class while its name is on the stack. A run with more than `depth` visits inside
one another has no result. -/
def visit (w : Workspace) (cache : ClassCache) : (depth : Nat) → ClassInfo →
    StateT (List String) Option ClassInfo
  | 0, _ => failure
  | depth + 1, c => do
    modify fun visiting ↦ Text.lower c.name :: visiting
    let withTraits ← c.traits.foldlM (w.visitBase cache (visit w cache depth) true) c
    let flat ← (c.parent.toList ++ c.interfaces).foldlM
      (w.visitBase cache (visit w cache depth) false) withTraits
    modify List.tail
    return flat

variable {w : Workspace} {cache : ClassCache} {visiting : List String} {depth fuel : Nat}

/-- Wherever it comes to an end, the stack is as it was. -/
def Neutral {α : Type} (m : StateT (List String) Option α) : Prop :=
  ∀ visiting a after, m.run visiting = some (a, after) → after = visiting

namespace Neutral

variable {α β : Type}

theorem pure (a : α) : Neutral (pure a) := by
  rintro visiting _ _ ⟨⟩
  rfl

theorem get : Neutral get := by
  rintro visiting _ _ ⟨⟩
  rfl

theorem bind {m : StateT (List String) Option α} {f : α → StateT (List String) Option β}
    (hm : Neutral m) (hf : ∀ a, Neutral (f a)) : Neutral (m >>= f) := by
  intro visiting b after h
  rw [StateT.run_bind] at h
  obtain ⟨⟨a, between⟩, ha, hb⟩ := Option.bind_eq_some_iff.mp h
  rw [← hm visiting a between ha]
  exact hf a between b after hb

theorem foldlM {f : β → α → StateT (List String) Option β} (hf : ∀ b a, Neutral (f b a))
    (as : List α) (b : β) : Neutral (as.foldlM f b) := by
  induction as generalizing b with
  | nil => exact .pure b
  | cons a as ih => exact .bind (hf b a) ih

end Neutral

/-- What is pushed is what is popped, as nothing in between leaves a trace. -/
theorem neutral_pushed {α : Type} {m : StateT (List String) Option α} (hm : Neutral m)
    (key : String) :
    Neutral (do modify fun visiting ↦ key :: visiting; let a ← m; modify List.tail; return a) := by
  intro visiting a after h
  obtain ⟨⟨b, between⟩, hb, hpopped⟩ := Option.bind_eq_some_iff.mp h
  cases hm _ b between hb
  cases hpopped
  rfl

theorem neutral_visitBase {visit : ClassInfo → StateT (List String) Option ClassInfo}
    (hvisit : ∀ c, Neutral (visit c)) (withPrivate : Bool) (c : ClassInfo) (name : String) :
    Neutral (w.visitBase cache visit withPrivate c name) := by
  refine .bind (.bind .get fun visiting ↦ ?_) fun ancestor ↦ ?_
  · split
    · exact .pure none
    · split
      · exact .pure _
      · split
        · exact .pure none
        · exact .bind (hvisit _) fun flat ↦ .pure (some flat)
  · split <;> exact .pure _

theorem neutral_visit (depth : Nat) (c : ClassInfo) : Neutral (w.visit cache depth c) := by
  induction depth generalizing c with
  | zero =>
    intro visiting flat after h
    cases h
  | succ depth ih =>
    have hbases (withPrivate : Bool) (names : List String) (c : ClassInfo) :
        Neutral (names.foldlM (w.visitBase cache (w.visit cache depth) withPrivate) c) :=
      .foldlM (neutral_visitBase ih withPrivate) names c
    have hpushed := neutral_pushed (.bind (hbases true c.traits c)
      (hbases false (c.parent.toList ++ c.interfaces))) (Text.lower c.name)
    simpa [visit] using hpushed

def unvisited (w : Workspace) (visiting : List String) : Nat :=
  (w.keys.filter (· ∉ visiting)).length

theorem unvisited_le (w : Workspace) (visiting : List String) :
    w.unvisited visiting ≤ w.classCount := by
  rw [← length_keys]
  exact List.length_filter_le _ _

theorem unvisited_lt {name : String} {c : ClassInfo} (hc : w.locate? name = some c)
    (hout : classKey name ∉ visiting) :
    w.unvisited (Text.lower c.name :: visiting) < w.unvisited visiting := by
  have hfewer : w.keys.filter (· ∉ classKey name :: visiting) =
      (w.keys.filter (· ∉ visiting)).filter (· ≠ classKey name) := by
    rw [List.filter_filter]
    exact List.filter_congr fun key _ ↦ by simp
  have hleft : classKey name ∈ w.keys.filter (· ∉ visiting) :=
    List.mem_filter.mpr ⟨mem_keys hc, by simpa using hout⟩
  rw [lower_name hc, unvisited, hfewer]
  exact List.length_filter_lt_length_iff_exists.mpr ⟨classKey name, hleft, by simp⟩

/-- Every class that is entered from a stack is flattened as with so much fuel. -/
def VisitsAs (w : Workspace) (cache : ClassCache) (depth fuel : Nat) (visiting : List String) :
    Prop :=
  ∀ name c, w.locate? name = some c → classKey name ∉ visiting →
    (w.visit cache depth c).run visiting = some (w.flatten cache fuel visiting c, visiting)

namespace VisitsAs

variable (h : w.VisitsAs cache depth fuel visiting)

include h

theorem ancestor?_run (name : String) :
    (w.visitAncestor? cache (w.visit cache depth) name).run visiting =
      some (w.ancestor? cache fuel visiting name, visiting) := by
  rw [visitAncestor?, ancestor?]
  by_cases hm : classKey name ∈ visiting
  · simp [hm]
  · cases hr : w.remembered? cache name with
    | some known => simp [hm]
    | none =>
      cases hc : w.locate? name with
      | none => simp [hm]
      | some c => simp [hm, h name c hc hm]

theorem bases_run (withPrivate : Bool) (names : List String) (c : ClassInfo) :
    (names.foldlM (w.visitBase cache (w.visit cache depth) withPrivate) c).run visiting =
      some (((names.map (withPrivate, ·)).filterMap fun b ↦
        (w.ancestor? cache fuel visiting b.2).map (b.1, ·)).foldl
          (fun c s ↦ c.inherit s.2 s.1) c, visiting) := by
  induction names generalizing c with
  | nil => rfl
  | cons name names ih =>
    rw [List.foldlM_cons, StateT.run_bind, visitBase, StateT.run_bind, h.ancestor?_run,
      List.map_cons, List.filterMap_cons]
    cases w.ancestor? cache fuel visiting name with
    | none => exact ih c
    | some ancestor => exact ih (c.inherit ancestor withPrivate)

end VisitsAs

theorem VisitsAs.visit_run {c : ClassInfo}
    (h : w.VisitsAs cache depth fuel (Text.lower c.name :: visiting)) :
    (w.visit cache (depth + 1) c).run visiting =
      some (w.flatten cache (fuel + 1) visiting c, visiting) := by
  rw [visit, flatten_succ, ClassInfo.bases, List.filterMap_append, List.foldl_append]
  simp only [StateT.run_bind, StateT.run_modify, h.bases_run, Option.bind_eq_bind,
    Option.pure_def, Option.bind_some]
  rfl

theorem visit_run_of_lt (c : ClassInfo)
    (hdepth : w.unvisited (Text.lower c.name :: visiting) < depth)
    (hfuel : w.unvisited (Text.lower c.name :: visiting) < fuel) :
    (w.visit cache depth c).run visiting = some (w.flatten cache fuel visiting c, visiting) := by
  -- Every class that is entered takes one of those that are left.
  induction depth generalizing visiting c fuel with
  | zero => omega
  | succ depth ih =>
    obtain ⟨fuel, rfl⟩ := Nat.exists_eq_add_one_of_ne_zero (Nat.ne_zero_of_lt hfuel)
    refine VisitsAs.visit_run fun name a ha hout ↦ ?_
    have hless := unvisited_lt ha hout
    exact ih a (by omega) (by omega)

/-- Flattening comes to an end on every hierarchy, whatever is on the stack and whatever is
remembered: as many visits inside one another as there are classes, and one for the class that is
asked for, are never too few, and room for more changes nothing. A visit at any depth leaves the
stack as it was. -/
theorem visit_ends (w : Workspace) (cache : ClassCache) :
    (∀ more c visiting, (w.visit cache (w.classCount + 1 + more) c).run visiting =
      some (w.flatten cache (w.classCount + 1) visiting c, visiting)) ∧
    (∀ more c, (w.visit cache (w.classCount + 1 + more) c).run [] =
      some (w.flattened cache c, [])) ∧
    ∀ depth c, Neutral (w.visit cache depth c) := by
  have hends (more : Nat) (c : ClassInfo) (visiting : List String) :
      (w.visit cache (w.classCount + 1 + more) c).run visiting =
        some (w.flatten cache (w.classCount + 1) visiting c, visiting) := by
    have hle := w.unvisited_le (Text.lower c.name :: visiting)
    exact visit_run_of_lt c (by omega) (by omega)
  exact ⟨hends, fun more c ↦ hends more c [], neutral_visit⟩

end PhpInsight.Workspace

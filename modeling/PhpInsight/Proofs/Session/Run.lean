import Mathlib.Data.List.Nodup
import Mathlib.Logic.Relation
import PhpInsight.Proofs.Session.Questions
import PhpInsight.Proofs.Span.Family

namespace PhpInsight

open Relation

theorem Document.id_of_parse {id : Nat} {uri : String} {source : List Char} {version : Int}
    {d : Document} (h : Document.parse id uri source version = .ok d) : d.id = id := by
  cases hp : Grammar.parseFile source with
  | error err =>
    rw [Document.parse, hp] at h
    cases h
  | ok ss =>
    rw [Document.parse, hp] at h
    cases h
    rfl

/-- An engine with the documents that were parsed for it, the last one first. -/
structure Session where
  engine : Engine
  documents : List Document

inductive Event
  | parse (uri : String) (source : List Char) (version : Int)
  | add (d : Document)
  | clear
  | ask (q : Question)
  | wait (seconds : Nat)
  | clean
  /-- Any entries of both caches are lost. -/
  | purge (keepClass : UsageCache.Entry ClassKey ClassInfo → Bool)
      (keepType : UsageCache.Entry TypeKey InferredType → Bool)

/-- The registry has other contents afterwards, or those from before anew. -/
def Event.IsChange : Event → Prop
  | add _ | clear => True
  | _ => False

namespace Session

variable {s s' s₀ : Session}

/-- A question is for the nodes of a parsed document, where the classes of all documents that it
may reach have no cycle. -/
def Admits (s : Session) : Event → Prop
  | .ask q => q.Fits s.documents ∧ AcyclicAmong (q.documents ++ s.engine.workspace.documents)
  | _ => True

def after (s : Session) : Event → Session
  | .parse uri source version =>
    match (Engine.parse uri source version).run s.engine with
    | (.ok d, e) => ⟨e, d :: s.documents⟩
    | (.error _, e) => ⟨e, s.documents⟩
  | .add d => { s with engine := ((Engine.add d).run s.engine).2 }
  | .clear => { s with engine := (Engine.clear.run s.engine).2 }
  | .ask q => { s with engine := (q.ask.run s.engine).2 }
  | .wait seconds =>
    { s with
      engine := { s.engine with
        classes := s.engine.classes.advance seconds
        types := s.engine.types.advance seconds } }
  | .clean => { s with engine := (Engine.cleanCache.run s.engine).2 }
  | .purge keepClass keepType =>
    { s with
      engine := { s.engine with
        classes := { s.engine.classes with entries := s.engine.classes.entries.filter keepClass }
        types := { s.engine.types with entries := s.engine.types.entries.filter keepType } } }

def Step (s s' : Session) : Prop := ∃ v, s.Admits v ∧ s' = s.after v

/-- The keys under which the types of all nodes of all parses would be remembered now. -/
def typeKeys (s : Session) : List TypeKey :=
  s.documents.flatMap fun d ↦ d.nodes.map (s.engine.typeKey d)

structure Parsed (docs : List Document) (limit : Nat) : Prop where
  parsed : ∀ d ∈ docs, d.id < limit ∧
    ∃ uri source version, Document.parse d.id uri source version = .ok d
  distinct : (docs.map Document.id).Nodup

structure Fresh (s : Session) : Prop where
  classes : s.engine.classes.entries = []
  types : s.engine.types.entries = []
  parsed : Parsed s.documents s.engine.nextId

/-- What every event keeps. -/
structure Sound (s : Session) : Prop where
  holds : s.engine.Holds s.documents s.engine.workspace s.engine.tags s.engine.nextId
  parsed : Parsed s.documents s.engine.nextId

theorem Parsed.eq_of_id {docs : List Document} {limit : Nat} (h : Parsed docs limit)
    {d d' : Document} (hd : d ∈ docs) (hd' : d' ∈ docs) (hid : d.id = d'.id) : d = d' :=
  List.inj_on_of_nodup_map h.distinct hd hd' hid

theorem Parsed.keyed {docs : List Document} {limit : Nat} (h : Parsed docs limit)
    {d : Document} (hd : d ∈ docs) : (d.nodes.map fun n ↦ (n.kind, n.span)).Nodup := by
  obtain ⟨uri, source, version, hparse⟩ := (h.parsed d hd).2
  exact (Document.spread_nodes hparse).keyed

theorem Parsed.nil {limit : Nat} : Parsed [] limit := ⟨nofun, .nil⟩

theorem Parsed.cons {docs : List Document} {limit : Nat} (h : Parsed docs limit) {d : Document}
    {uri : String} {source : List Char} {version : Int}
    (hd : Document.parse limit uri source version = .ok d) : Parsed (d :: docs) (limit + 1) := by
  have hid := Document.id_of_parse hd
  refine ⟨?_, ?_⟩
  · intro d' hd'
    rcases List.mem_cons.mp hd' with rfl | hd'
    · exact ⟨by omega, uri, source, version, hid ▸ hd⟩
    · exact ⟨Nat.lt_succ_of_lt (h.parsed d' hd').1, (h.parsed d' hd').2⟩
  · rw [List.map_cons, List.nodup_cons]
    refine ⟨fun hmem ↦ ?_, h.distinct⟩
    obtain ⟨d', hd', he⟩ := List.mem_map.mp hmem
    have hlt := (h.parsed d' hd').1
    omega

theorem nodup_typeKeys (h : Parsed s.documents s.engine.nextId) : s.typeKeys.Nodup := by
  refine List.pairwise_flatMap.mpr ⟨fun d hd ↦ ?_, ?_⟩
  · refine List.Nodup.map_on (fun n hn n' hn' he ↦ ?_) (List.Nodup.of_map _ (h.keyed hd))
    obtain ⟨_, _, hkind, hspan⟩ := TypeKey.mk.inj he
    exact List.inj_on_of_nodup_map (h.keyed hd) hn hn' (Prod.ext hkind hspan)
  · refine (List.pairwise_map.mp h.distinct).imp fun hne k hk k' hk' he ↦ hne ?_
    obtain ⟨n, _, rfl⟩ := List.mem_map.mp hk
    obtain ⟨n', _, rfl⟩ := List.mem_map.mp hk'
    exact (TypeKey.mk.inj he).2.1

theorem Fresh.sound (h : s.Fresh) : s.Sound := by
  refine ⟨⟨rfl, rfl, rfl, ?_, ?_⟩, h.parsed⟩
  · exact Workspace.caches_of_entries_eq_nil h.classes
  · exact UsageCache.every_of_entries_eq_nil h.types

theorem Sound.steady_ask (h : s.Sound) {q : Question} (hq : s.Admits (.ask q)) :
    Steady (Engine.Holds s.documents s.engine.workspace s.engine.tags s.engine.nextId) q.ask
      fun _ ↦ True := by
  obtain ⟨hfits, hacyclic⟩ := hq
  have hs : s.engine.workspace.documents ⊆ q.documents ++ s.engine.workspace.documents :=
    List.subset_append_right _ _
  have hmem {d : Document} (hd : q.documents = [d]) :
      d ∈ q.documents ++ s.engine.workspace.documents := by simp [hd]
  cases q with
  | reflect name =>
    have hclass := Workspace.steady_reflect? (Workspace.acyclic_of_among hacyclic hs) name
    exact (Engine.steady_withClasses hclass).bind fun _ _ ↦ .pure trivial
  | reflectFrom d name =>
    have hclass := Workspace.steady_reflectFrom? hacyclic hs (hmem rfl) name
    exact (Engine.steady_withClasses hclass).bind fun _ _ ↦ .pure trivial
  | resolve d n =>
    obtain ⟨hd, hn⟩ := hfits
    have hid : ∀ d' ∈ s.documents, d'.id = d.id → d' = d :=
      fun d' hd' he ↦ h.parsed.eq_of_id hd' hd he
    exact Steady.bind (Engine.steady_resolve hacyclic hs (hmem rfl) hid (h.parsed.parsed d hd).1 hd
      hn (h.parsed.keyed hd)) fun _ _ ↦ .pure trivial
  | infer d n =>
    exact (Engine.steady_infer hacyclic hs (hmem rfl) n).bind fun _ _ ↦ .pure trivial
  | completeIn d target =>
    exact (Engine.steady_completeIn hacyclic hs (hmem rfl) target).bind fun _ _ ↦ .pure trivial

theorem after_parse (s : Session) (uri : String) (source : List Char) (version : Int) :
    s.after (.parse uri source version) =
      match Document.parse s.engine.nextId uri source version with
      | .ok d => ⟨{ s.engine with nextId := s.engine.nextId + 1 }, d :: s.documents⟩
      | .error _ => s := by
  cases hp : Document.parse s.engine.nextId uri source version with
  | ok d =>
    simp [after, Engine.parse, hp]
    rfl
  | error err =>
    simp [after, Engine.parse, hp]
    rfl

theorem Sound.after (h : s.Sound) {v : Event} (hv : s.Admits v) : (s.after v).Sound := by
  cases v with
  | parse uri source version =>
    rw [after_parse]
    cases hp : Document.parse s.engine.nextId uri source version with
    | ok d => exact ⟨h.holds.parsed (Document.id_of_parse hp), h.parsed.cons hp⟩
    | error err => exact h
  | add d => exact ⟨h.holds.changed (Nat.lt_succ_self _), h.parsed⟩
  | clear => exact ⟨h.holds.changed (Nat.lt_succ_self _), h.parsed⟩
  | ask q =>
    have hasked := (h.steady_ask hv).run_state h.holds
    have hsame : (s.after (.ask q)).engine.nextId = s.engine.nextId := hasked.nextId
    refine ⟨?_, hsame ▸ h.parsed⟩
    rw [hsame]
    have hw : (s.after (.ask q)).engine.workspace = s.engine.workspace := hasked.workspace
    have ht : (s.after (.ask q)).engine.tags = s.engine.tags := hasked.tags
    rw [hw, ht]
    exact hasked
  | wait seconds => exact ⟨h.holds.of_subset (fun _ ↦ id) fun _ ↦ id, h.parsed⟩
  | clean =>
    refine ⟨h.holds.of_subset ?_ ?_, h.parsed⟩
    · exact List.filter_sublist.subset
    · exact List.filter_sublist.subset
  | purge keepClass keepType =>
    refine ⟨h.holds.of_subset ?_ ?_, h.parsed⟩
    · exact List.filter_sublist.subset
    · exact List.filter_sublist.subset

theorem Sound.run (h : s.Sound) (hr : ReflTransGen Step s s') : s'.Sound := by
  induction hr with
  | refl => exact h
  | tail _ hstep ih =>
    obtain ⟨v, hv, rfl⟩ := hstep
    exact ih.after hv

theorem Sound.generation_le (h : s.Sound) {v : Event} (hv : s.Admits v) :
    s.engine.workspace.generation ≤ (s.after v).engine.workspace.generation := by
  cases v with
  | parse uri source version =>
    rw [after_parse]
    split <;> exact Nat.le_refl _
  | ask q =>
    have hw : (s.after (.ask q)).engine.workspace = s.engine.workspace :=
      ((h.steady_ask hv).run_state h.holds).workspace
    exact Nat.le_of_eq (congrArg Workspace.generation hw.symm)
  | add d => exact Nat.le_succ _
  | clear => exact Nat.le_succ _
  | wait seconds => exact Nat.le_refl _
  | clean => exact Nat.le_refl _
  | purge keepClass keepType => exact Nat.le_refl _

theorem Sound.generation_le_of_run (h : s.Sound) (hr : ReflTransGen Step s s') :
    s.engine.workspace.generation ≤ s'.engine.workspace.generation := by
  induction hr with
  | refl => exact Nat.le_refl _
  | tail hr hstep ih =>
    obtain ⟨v, hv, rfl⟩ := hstep
    exact Nat.le_trans ih ((h.run hr).generation_le hv)

/-- What was remembered before a change is never looked up after it. -/
theorem Sound.stale_of_change (h : s.Sound) {v : Event} (hv : v.IsChange)
    (hr : ReflTransGen Step (s.after v) s') :
    (∀ e ∈ s.engine.classes.entries, e.key.1 < s'.engine.workspace.generation) ∧
      ∀ e ∈ s.engine.types.entries, e.key.generation < s'.engine.workspace.generation := by
  have hlt : s.engine.workspace.generation < s'.engine.workspace.generation := by
    cases v with
    | add d => exact (h.after (v := .add d) trivial).generation_le_of_run hr
    | clear => exact (h.after (v := .clear) trivial).generation_le_of_run hr
    | parse _ _ _ | ask _ | wait _ | clean | purge _ _ => cases hv
  exact ⟨fun e he ↦ Nat.lt_of_le_of_lt (h.holds.classes e he).1 hlt,
    fun e he ↦ Nat.lt_of_le_of_lt (h.holds.types e he).1.1 hlt⟩

/-- No answer of a run depends on what is remembered: each is that of an engine that remembers
nothing, over the same registry. -/
theorem transparent (h₀ : s₀.Fresh) (hr : ReflTransGen Step s₀ s) :
    (∀ q, s.Admits (.ask q) → (q.ask.run s.engine).1 = (q.ask.run s.engine.forgetful).1) ∧
      (∀ v s', v.IsChange → ReflTransGen Step (s.after v) s' →
        (∀ e ∈ s.engine.classes.entries, e.key.1 < s'.engine.workspace.generation) ∧
          ∀ e ∈ s.engine.types.entries, e.key.generation < s'.engine.workspace.generation) ∧
      s.typeKeys.Nodup := by
  have hs : s.Sound := h₀.sound.run hr
  refine ⟨fun q hq ↦ ?_, fun v s' hv hr' ↦ hs.stale_of_change hv hr', nodup_typeKeys hs.parsed⟩
  exact (hs.steady_ask hq).run_eq hs.holds hs.holds.forgetful

def opened (d : Document) : Session := ⟨{ workspace := ⟨⟨[d], 1⟩, []⟩, nextId := 1 }, [d]⟩

def asked (d : Document) : Session := ((opened d).after (.ask (.reflect "B"))).after (.wait 60)

theorem transparent_asked :
    ∃ d, Document.parse 0 "a.php" "<?php class A{} class B extends A{}".toList 0 = .ok d ∧
      (asked d).engine.classes.size = 1 ∧
        ((Question.reflect "b").ask.run (asked d).engine).1 =
          ((Question.reflect "b").ask.run (asked d).engine.forgetful).1 := by
  have hsize : (Document.parse 0 "a.php" "<?php class A{} class B extends A{}".toList
      0).toOption.map (fun d ↦ (asked d).engine.classes.size) = some 1 := by
    decide +kernel
  have hrank : ∀ d ∈ (Document.parse 0 "a.php" "<?php class A{} class B extends A{}".toList
      0).toOption.toList, ∀ k ∈ d.classes, ∀ b ∈ (ClassInfo.ofDeclaration d k).superKeys,
        (if b = "b" then 1 else 0) < if Text.lower k.name = "b" then 1 else 0 := by
    decide +kernel
  cases hd : Document.parse 0 "a.php" "<?php class A{} class B extends A{}".toList 0 with
  | error err =>
    rw [hd] at hsize
    cases hsize
  | ok d =>
    rw [hd] at hsize hrank
    have hacyclic : AcyclicAmong [d] :=
      acyclicAmong_of_rank (fun k ↦ if k = "b" then 1 else 0) hrank
    have hfresh : (opened d).Fresh := ⟨rfl, rfl, Parsed.nil.cons hd⟩
    have hrun : ReflTransGen Step (opened d) (asked d) :=
      .tail (.single ⟨.ask (.reflect "B"), ⟨trivial, hacyclic⟩, rfl⟩) ⟨.wait 60, trivial, rfl⟩
    have hadmits : (asked d).Admits (.ask (.reflect "b")) := ⟨trivial, hacyclic⟩
    exact ⟨d, rfl, Option.some.inj hsize, (transparent hfresh hrun).1 _ hadmits⟩

end Session

end PhpInsight

import Mathlib.Data.List.DropRight
import Mathlib.Data.List.Pairwise
import Mathlib.Data.Multiset.Filter
import PhpInsight.Proofs.Inheritance.Hierarchy

namespace PhpInsight

namespace Registry

inductive Change
  | add (d : Document)
  | clear

namespace Change

def document? : Change → Option Document
  | add d => some d
  | clear => none

def isAdd (c : Change) : Bool := c.document?.isSome

end Change

def after (r : Registry) : Change → Registry
  | .add d => r.add d
  | .clear => r.clear

def ofChanges (cs : List Change) : Registry := cs.foldl after {}

def added (cs : List Change) : List Document :=
  (cs.rtakeWhile Change.isAdd).filterMap Change.document?

def lastOfEach (ds : List Document) : List Document := ds.pwFilter fun a b ↦ a.uri ≠ b.uri

/-- The latest add of each URI since the last clear, the newest first. -/
def latest (cs : List Change) : List Document := (lastOfEach (added cs)).reverse

theorem lastOfEach_cons (d : Document) (ds : List Document) :
    lastOfEach (d :: ds) =
      if ∀ e ∈ lastOfEach ds, d.uri ≠ e.uri then d :: lastOfEach ds else lastOfEach ds := rfl

theorem lastOfEach_concat (ds : List Document) (d : Document) :
    lastOfEach (ds ++ [d]) = ((lastOfEach ds).filter fun e ↦ e.uri ≠ d.uri) ++ [d] := by
  induction ds with
  | nil => rfl
  | cons e es ih =>
    rw [List.cons_append, lastOfEach_cons, ih, lastOfEach_cons]
    by_cases hsame : e.uri = d.uri
    · rw [if_neg fun h ↦ h d (by simp) hsame]
      split <;> simp [hsame]
    · -- what is left out for `d` has another URI than `e`
      have hiff : (∀ f ∈ ((lastOfEach es).filter fun f ↦ f.uri ≠ d.uri) ++ [d], e.uri ≠ f.uri) ↔
          ∀ f ∈ lastOfEach es, e.uri ≠ f.uri := by
        constructor
        · intro h f hf he
          exact h f (by simp [hf, ← he, hsame]) he
        · intro h f hf
          rcases List.mem_append.mp hf with hf | hf
          · exact h f (List.mem_filter.mp hf).1
          · rw [List.mem_singleton.mp hf]
            exact hsame
      rw [if_congr hiff rfl rfl]
      split <;> simp [hsame]

theorem added_add (cs : List Change) (d : Document) : added (cs ++ [.add d]) = added cs ++ [d] := by
  rw [added, List.rtakeWhile_concat, if_pos (by rfl), List.filterMap_append]
  rfl

theorem latest_add (cs : List Change) (d : Document) :
    latest (cs ++ [.add d]) = d :: (latest cs).filter fun e ↦ e.uri ≠ d.uri := by
  rw [latest, added_add, lastOfEach_concat, List.reverse_append, ← List.filter_reverse]
  rfl

theorem latest_clear (cs : List Change) : latest (cs ++ [.clear]) = [] := by
  rw [latest, added, List.rtakeWhile_concat, if_neg (by decide)]
  rfl

theorem nodup_latest (cs : List Change) : ((latest cs).map Document.uri).Nodup := by
  rw [latest, List.map_reverse, List.nodup_reverse]
  exact List.pairwise_map.mpr (List.pairwise_pwFilter _)

theorem ofChanges_concat (cs : List Change) (c : Change) :
    ofChanges (cs ++ [c]) = (ofChanges cs).after c := by
  rw [ofChanges, List.foldl_append]
  rfl

theorem documents_ofChanges (cs : List Change) : (ofChanges cs).documents = latest cs := by
  induction cs using List.reverseRecOn with
  | nil => rfl
  | append_singleton cs c ih =>
    rw [ofChanges_concat]
    cases c with
    | add d =>
      rw [latest_add, ← ih]
      rfl
    | clear =>
      rw [latest_clear]
      rfl

structure Table where
  /-- At most one for a URI, in no order. -/
  entries : Multiset (Nat × Document) := 0
  /-- The number of the next add. Clearing the table does not take it back. -/
  next : Nat := 0

namespace Table

def after (t : Table) : Change → Table
  | .add d => ⟨(t.next, d) ::ₘ t.entries.filter fun e ↦ e.2.uri ≠ d.uri, t.next + 1⟩
  | .clear => ⟨0, t.next⟩

def ofChanges (cs : List Change) : Table := cs.foldl after {}

def listing (entries : List (Nat × Document)) : List Document :=
  (entries.mergeSort fun a b ↦ b.1 ≤ a.1).map Prod.snd

/-- The entries of a table are those of a list of documents, along which the numbers fall. -/
structure Numbers (t : Table) (ds : List Document) (es : List (Nat × Document)) : Prop where
  entries : t.entries = es
  documents : es.map Prod.snd = ds
  falling : es.Pairwise fun a b ↦ b.1 < a.1
  used : ∀ e ∈ es, e.1 < t.next

variable {t : Table} {ds : List Document} {es : List (Nat × Document)}

theorem Numbers.add (h : t.Numbers ds es) (d : Document) :
    (t.after (.add d)).Numbers (d :: ds.filter fun e ↦ e.uri ≠ d.uri)
      ((t.next, d) :: es.filter fun e ↦ e.2.uri ≠ d.uri) where
  entries := by
    rw [after, h.entries, Multiset.filter_coe, Multiset.cons_coe]
  documents := by
    rw [List.map_cons, ← h.documents, List.filter_map]
    rfl
  falling := List.pairwise_cons.mpr
    ⟨fun e he ↦ h.used e (List.mem_filter.mp he).1, h.falling.filter _⟩
  used e he := by
    rcases List.mem_cons.mp he with rfl | he
    · exact Nat.lt_succ_self _
    · exact Nat.lt_succ_of_lt (h.used e (List.mem_filter.mp he).1)

theorem exists_numbers (cs : List Change) : ∃ es, (ofChanges cs).Numbers (latest cs) es := by
  induction cs using List.reverseRecOn with
  | nil => exact ⟨[], rfl, rfl, .nil, nofun⟩
  | append_singleton cs c ih =>
    obtain ⟨es, h⟩ := ih
    have hafter : ofChanges (cs ++ [c]) = (ofChanges cs).after c := by
      rw [ofChanges, List.foldl_append]
      rfl
    rw [hafter]
    cases c with
    | add d =>
      rw [latest_add]
      exact ⟨_, h.add d⟩
    | clear =>
      rw [latest_clear]
      exact ⟨[], rfl, rfl, .nil, nofun⟩

theorem Numbers.eq_of_number (h : t.Numbers ds es) {a b : Nat × Document} (ha : a ∈ es)
    (hb : b ∈ es) (he : a.1 = b.1) : a = b := by
  have hnodup : (es.map Prod.fst).Nodup :=
    List.pairwise_map.mpr (h.falling.imp fun hlt ↦ (Nat.ne_of_lt hlt).symm)
  exact List.inj_on_of_nodup_map hnodup ha hb he

/-- No number is given twice, so that sorting by the numbers leaves no choice. -/
theorem Numbers.listing_eq (h : t.Numbers ds es) {found : List (Nat × Document)}
    (hfound : t.entries = found) : listing found = ds := by
  have hperm : (found.mergeSort fun a b ↦ b.1 ≤ a.1).Perm es :=
    (List.mergeSort_perm _ _).trans (Multiset.coe_eq_coe.mp (hfound.symm.trans h.entries))
  have hsorted : (found.mergeSort fun a b ↦ b.1 ≤ a.1).Pairwise fun a b ↦ b.1 ≤ a.1 := by
    refine (List.pairwise_mergeSort ?_ ?_ found).imp of_decide_eq_true
    · intro a b c hab hbc
      rw [decide_eq_true_iff] at hab hbc ⊢
      exact Nat.le_trans hbc hab
    · intro a b
      rw [Bool.or_eq_true, decide_eq_true_iff, decide_eq_true_iff]
      exact Nat.le_total _ _
  have heq : (found.mergeSort fun a b ↦ b.1 ≤ a.1) = es := by
    refine hperm.eq_of_pairwise (fun a b ha hb hle hle' ↦ ?_) hsorted (h.falling.imp Nat.le_of_lt)
    exact h.eq_of_number (hperm.subset ha) hb (Nat.le_antisymm hle' hle)
  rw [listing, heq, h.documents]

end Table

end Registry

def DeclaredClass.IsCalled (k : DeclaredClass) (name : String) : Prop :=
  Text.lower k.name = classKey name

theorem DeclaredClass.isCalled_iff {k : DeclaredClass} {name : String} :
    k.IsCalled name ↔ Text.sameIgnoringCase k.name (withoutLeadingBackslashes name) = true :=
  Text.sameIgnoringCase_iff.symm

theorem Document.locate?_eq_some_iff {d : Document} {name : String} {c : ClassInfo} :
    d.locate? name = some c ↔
      ∃ before k after, d.classes = before ++ k :: after ∧ k.IsCalled name ∧
        (∀ j ∈ before, ¬ j.IsCalled name) ∧ c = .ofDeclaration d k := by
  simp only [DeclaredClass.isCalled_iff, locate?, Option.map_eq_some_iff,
    List.find?_eq_some_iff_append, Bool.not_eq_true']
  constructor
  · rintro ⟨k, ⟨hk, before, after, hsplit, hbefore⟩, rfl⟩
    exact ⟨before, k, after, hsplit, hk, fun j hj ↦ by simp [hbefore j hj], rfl⟩
  · rintro ⟨before, k, after, hsplit, hk, hbefore, rfl⟩
    exact ⟨k, ⟨hk, before, after, hsplit, fun j hj ↦ by simpa using hbefore j hj⟩, rfl⟩

theorem Document.locate?_eq_none_iff {d : Document} {name : String} :
    d.locate? name = none ↔ ∀ k ∈ d.classes, ¬ k.IsCalled name := by
  simp only [DeclaredClass.isCalled_iff, locate?, Option.map_eq_none_iff, List.find?_eq_none]

namespace Registry

structure AnswersFrom (r : Registry) (ds : List Document) : Prop where
  documents : r.documents = ds
  get?_eq_some_iff (uri : String) (d : Document) : r.get? uri = some d ↔ d ∈ ds ∧ d.uri = uri
  get?_eq_none_iff (uri : String) : r.get? uri = none ↔ uri ∉ ds.map Document.uri
  contains_iff (uri : String) : r.contains uri = true ↔ uri ∈ ds.map Document.uri
  size : r.size = ds.length
  isEmpty_iff : r.isEmpty = true ↔ ds = []
  /-- The class of a name is the first one so called, in the first document that has one. -/
  locate?_eq_some_iff (name : String) (c : ClassInfo) :
    ({ registry := r } : Workspace).locate? name = some c ↔
      ∃ newer d older before k after, ds = newer ++ d :: older ∧
        d.classes = before ++ k :: after ∧ k.IsCalled name ∧
        (∀ e ∈ newer, ∀ j ∈ e.classes, ¬ j.IsCalled name) ∧ (∀ j ∈ before, ¬ j.IsCalled name) ∧
        c = .ofDeclaration d k
  locate?_eq_none_iff (name : String) :
    ({ registry := r } : Workspace).locate? name = none ↔
      ∀ d ∈ ds, ∀ k ∈ d.classes, ¬ k.IsCalled name

theorem answersFrom_documents {r : Registry} (hr : (r.documents.map Document.uri).Nodup) :
    r.AnswersFrom r.documents := by
  have hnone (uri : String) : r.get? uri = none ↔ uri ∉ r.documents.map Document.uri := by
    simp [get?]
  have hlocate (name : String) : ({ registry := r } : Workspace).locate? name =
      r.documents.findSome? fun d ↦ d.locate? name := by
    rw [Workspace.locate?, Workspace.documents, List.append_nil]
  refine ⟨rfl, fun uri d ↦ ⟨fun h ↦ ?_, fun h ↦ ?_⟩, hnone, fun uri ↦ ?_, rfl,
    List.isEmpty_iff, fun name c ↦ ?_, fun name ↦ ?_⟩
  · exact ⟨List.mem_of_find?_eq_some h, by simpa using List.find?_some h⟩
  · obtain ⟨hd, huri⟩ := h
    cases hf : r.get? uri with
    | none => exact absurd (List.mem_map.mpr ⟨d, hd, huri⟩) ((hnone uri).mp hf)
    | some e =>
      have he : e.uri = uri := by simpa using List.find?_some hf
      rw [List.inj_on_of_nodup_map hr (List.mem_of_find?_eq_some hf) hd (he.trans huri.symm)]
  · rw [contains, Option.isSome_iff_ne_none, ne_eq, hnone, not_not]
  · rw [hlocate, List.findSome?_eq_some_iff]
    simp only [Document.locate?_eq_some_iff, Document.locate?_eq_none_iff]
    constructor
    · rintro ⟨newer, d, older, hsplit, ⟨before, k, after, hd, hk, hbefore, hc⟩, hnewer⟩
      exact ⟨newer, d, older, before, k, after, hsplit, hd, hk, hnewer, hbefore, hc⟩
    · rintro ⟨newer, d, older, before, k, after, hsplit, hd, hk, hnewer, hbefore, hc⟩
      exact ⟨newer, d, older, hsplit, ⟨before, k, after, hd, hk, hbefore, hc⟩, hnewer⟩
  · rw [hlocate, List.findSome?_eq_none_iff]
    simp only [Document.locate?_eq_none_iff]

/-- A registry answers from the latest adds since it was cleared, one for each URI, the newest
first. A table that only numbers its entries lists the same documents, in whatever order it gives
its entries. -/
theorem answersFrom_latest (cs : List Change) :
    (ofChanges cs).AnswersFrom (latest cs) ∧ ((latest cs).map Document.uri).Nodup ∧
      ∀ es : List (Nat × Document), (Table.ofChanges cs).entries = es →
        Table.listing es = latest cs := by
  refine ⟨?_, nodup_latest cs, fun es hes ↦ ?_⟩
  · have h := nodup_latest cs
    rw [← documents_ofChanges] at h ⊢
    exact answersFrom_documents h
  · obtain ⟨_, hnumbers⟩ := Table.exists_numbers cs
    exact hnumbers.listing_eq hes

/-- A document that is added again after a clear, and once more after another one. -/
def reopened : List Change :=
  [.add ⟨0, "a.php", [], 0, []⟩, .clear, .add ⟨1, "a.php", [], 1, []⟩, .add ⟨2, "b.php", [], 0, []⟩,
    .add ⟨1, "a.php", [], 1, []⟩]

theorem answersFrom_latest_reopened :
    latest reopened = [⟨1, "a.php", [], 1, []⟩, ⟨2, "b.php", [], 0, []⟩] ∧
      (ofChanges reopened).AnswersFrom (latest reopened) ∧
      Table.listing [(2, ⟨2, "b.php", [], 0, []⟩), (3, ⟨1, "a.php", [], 1, []⟩)] =
        latest reopened := by
  have hentries : (Table.ofChanges reopened).entries =
      ([(2, ⟨2, "b.php", [], 0, []⟩), (3, ⟨1, "a.php", [], 1, []⟩)] : List (Nat × Document)) := by
    refine Eq.trans ?_ (Multiset.coe_eq_coe.mpr (.swap _ _ _))
    rfl
  exact ⟨rfl, (answersFrom_latest reopened).1, (answersFrom_latest reopened).2.2 _ hentries⟩

end Registry

end PhpInsight

import PhpInsight.Proofs.Inheritance.Private
import PhpInsight.Proofs.Session.Kept
import PhpInsight.Proofs.Types.OwnClass

namespace PhpInsight

open Completion

namespace ClassRef

def isSelf : ClassRef → Bool
  | .named n => n.isSelf
  | .dynamic _ => false

def isParent : ClassRef → Bool
  | .named n => Document.isKeyword n "parent"
  | .dynamic _ => false

end ClassRef

def Document.Owns (d : Document) (c : ClassInfo) : Prop :=
  ∃ own, d.className? = some own ∧ Text.lower c.name = Text.lower own

namespace Completion

/-- What a document may access of a class that it names. -/
def Permits (d : Document) (X : ClassRef) (c : ClassInfo) (v : Visibility) : Prop :=
  X.isSelf = true ∨
    X.isSelf = false ∧ X.isParent = true ∧ v ≠ .private ∨
    X.isSelf = false ∧ X.isParent = false ∧ (d.Owns c ∨ v = .public)

/-- The items for static members and constants of a class; static properties only behind `::$`. -/
def OfferedOf (d : Document) (X : ClassRef) (target : Expr) (c : ClassInfo) (item : Item) : Prop :=
  (isStaticMember target = true ∧ ∃ m ∈ c.methods, m.isConstructor = false ∧
      m.modifiers.isStatic = true ∧ Permits d X c m.modifiers.visibility ∧ item = methodItem m) ∨
    (∃ p ∈ c.properties, p.modifiers.isStatic = true ∧ Permits d X c p.modifiers.visibility ∧
      item = propertyItem p) ∨
    (isStaticMember target = true ∧ ∃ k ∈ c.constants, Permits d X c k.modifiers.visibility ∧
      item = constantItem k)

variable {d : Document} {target : Expr} {X : ClassRef} {c : ClassInfo} {v : Visibility}
  {item : Item}

theorem admits_ofReceiver_iff :
    (StaticScope.ofReceiver ⟨d, target, some c⟩).admits v = true ↔ d.Owns c ∨ v = .public := by
  unfold StaticScope.ofReceiver Document.Owns
  dsimp only
  cases hown : d.className? with
  | none => simp [StaticScope.admits]
  | some own =>
    simp only [Option.some.injEq, exists_eq_left', ← Text.sameIgnoringCase_iff]
    split
    case isTrue h => simp [StaticScope.admits, h]
    case isFalse h => simp [StaticScope.admits, h]

theorem isKeyword_eq (n : Name) {word : String} (h : Text.lower word = word) :
    Document.isKeyword n word = (n.isUnqualified && decide (Text.lower n.last = word)) := by
  rw [Document.isKeyword, Bool.eq_iff_iff, Bool.and_eq_true, Bool.and_eq_true,
    Text.sameIgnoringCase_iff, h, decide_eq_true_iff]

theorem admits_ofClassRef_iff :
    (StaticScope.ofClassRef ⟨d, target, some c⟩ X).admits v = true ↔ Permits d X c v := by
  cases X with
  | dynamic e =>
    simp [StaticScope.ofClassRef, admits_ofReceiver_iff, Permits, ClassRef.isSelf,
      ClassRef.isParent]
  | named n =>
    have hself : n.isSelf = (n.isUnqualified &&
        (decide (Text.lower n.last = "self") || decide (Text.lower n.last = "static"))) := by
      rw [Name.isSelf, isKeyword_eq n (by decide), isKeyword_eq n (by decide),
        Bool.and_or_distrib_left]
    simp only [StaticScope.ofClassRef, Permits, ClassRef.isSelf, ClassRef.isParent, hself,
      isKeyword_eq n (show Text.lower "parent" = "parent" by decide)]
    cases n.isUnqualified with
    | false => simp [admits_ofReceiver_iff]
    | true =>
      simp only [Bool.true_and, if_true]
      split
      case isTrue h => simp [h, StaticScope.admits]
      case isFalse h =>
        split
        case isTrue hparent => simp [hparent, StaticScope.admits]
        case isFalse hparent => simp [h, hparent, admits_ofReceiver_iff]

theorem of?_eq (hX : staticClass? target = some X) (r : Option ClassInfo) :
    StaticScope.of? ⟨d, target, r⟩ = some (StaticScope.ofClassRef ⟨d, target, r⟩ X) := by
  rw [StaticScope.of?, hX]
  rfl

theorem mem_inScope {α : Type} {members : ClassInfo → List α}
    {admitted : StaticScope → α → Bool} {toItem : α → Item}
    (hX : staticClass? target = some X) (receiver : Option ClassInfo) :
    item ∈ Provider.inScope ⟨d, target, receiver⟩ members admitted toItem ↔
      ∃ c, receiver = some c ∧ ∃ m ∈ members c,
        admitted (StaticScope.ofClassRef ⟨d, target, some c⟩ X) m = true ∧ item = toItem m := by
  rw [Provider.inScope, of?_eq hX]
  cases receiver with
  | none => simp
  | some c =>
    simp only [List.mem_map, List.mem_filter, Option.some.injEq, exists_eq_left', and_assoc]
    exact exists_congr fun m ↦ and_congr_right' (and_congr_right' eq_comm)

theorem kind_of_staticClass? (hX : staticClass? target = some X) :
    instanceReceiver? target = none ∧ Provider.typedName? target = none := by
  unfold staticClass? at hX
  unfold instanceReceiver? Provider.typedName?
  split at hX
  case h_1 hkind | h_2 hkind => simp [hkind]
  case h_3 => cases hX

theorem completeWith_static (hX : staticClass? target = some X) (index : Option TagsIndex)
    (receiver : Option ClassInfo) :
    completeWith (Provider.all index) ⟨d, target, receiver⟩ =
      if isStaticMember target = true then
        Provider.staticMethod.complete ⟨d, target, receiver⟩ ++
          (Provider.staticProperty.complete ⟨d, target, receiver⟩ ++
            Provider.classConstant.complete ⟨d, target, receiver⟩)
      else Provider.staticProperty.complete ⟨d, target, receiver⟩ := by
  obtain ⟨hinstance, hname⟩ := kind_of_staticClass? hX
  have hmethod : Provider.instanceMethod.supports target = false := by
    rw [Provider.supports, hinstance]
    rfl
  have hproperty : Provider.instanceProperty.supports target = false := hmethod
  have htag : Provider.propertyDocTag.supports target = false := hmethod
  have hstatic : Provider.staticProperty.supports target = true := by
    rw [Provider.supports, hX]
    rfl
  have hclass : Provider.staticMethod.supports target = isStaticMember target := rfl
  have hconstant : Provider.classConstant.supports target = isStaticMember target := rfl
  have htags : (Provider.tags index).supports target = false := by
    simp only [Provider.supports, hname]
  rw [completeWith, Provider.all]
  cases hmember : isStaticMember target <;>
    simp [hmethod, hproperty, htag, hstatic, hclass, hconstant, htags, hmember]

theorem mem_completeWith_iff (hX : staticClass? target = some X) (index : Option TagsIndex)
    (receiver : Option ClassInfo) :
    item ∈ completeWith (Provider.all index) ⟨d, target, receiver⟩ ↔
      ∃ c, receiver = some c ∧ OfferedOf d X target c item := by
  rw [completeWith_static hX]
  cases hmember : isStaticMember target with
  | false =>
    simp only [Bool.false_eq_true, if_false, Provider.complete, mem_inScope hX, Bool.and_eq_true,
      admits_ofClassRef_iff, OfferedOf, hmember, false_and, false_or, or_false, and_assoc]
  | true =>
    simp only [if_true, List.mem_append, Provider.complete, mem_inScope hX, Bool.and_eq_true,
      Bool.not_eq_true', admits_ofClassRef_iff, OfferedOf, hmember, true_and, and_assoc,
      ← exists_or, ← and_or_left]

end Completion

namespace Engine

variable {d : Document} {target : Expr} {X : ClassRef} {c : ClassInfo} {e : Engine}

def receiver? (d : Document) (target : Expr) : StateM Engine (Option ClassInfo) := do
  match (← receiverType d target).className? with
  | some name => reflectFrom? d name
  | none => return none

theorem completeIn_run (d : Document) (target : Expr) (e : Engine) :
    ((completeIn d target).run e).1 =
      completeWith (Provider.all ((receiver? d target).run e).2.tags)
        ⟨d, target, ((receiver? d target).run e).1⟩ := by
  have hbind : completeIn d target = receiver? d target >>= fun receiver ↦ do
      return completeWith (Provider.all (← get).tags) ⟨d, target, receiver⟩ := by
    unfold completeIn receiver?
    rw [bind_assoc]
    refine congrArg (receiverType d target >>= ·) (funext fun t ↦ ?_)
    cases t.className? <;> rfl
  rw [hbind]
  rfl

theorem reflectFrom?_caches {w : Workspace} {P : ClassInfo → ClassInfo → Prop}
    (he : e.Caches w P) (hflat : ∀ cache, w.Caches P cache → ∀ c, P c (w.flattened cache c))
    {name : String} (h : ((reflectFrom? d name).run e).1 = some c) :
    ∃ c₀, w.seen? d name = some c₀ ∧ P c₀ c := by
  have hrun : ((reflectFrom? d name).run e).1 =
      ((e.workspace.reflectFrom? d name).run e.classes).1 := rfl
  obtain ⟨rfl, hclasses⟩ := he
  rw [hrun] at h
  cases hd : d.locate? name with
  | some c₀ =>
    obtain ⟨later, -, hdeclared⟩ := Workspace.reflectFrom?_of_declared hd e.classes
    rw [hdeclared] at h
    cases h
    refine ⟨c₀, ?_, hflat _ hclasses c₀⟩
    rw [Workspace.seen?, hd, Option.some_or]
  | none =>
    obtain ⟨answer, cache', hreflect, -, -, hanswer⟩ :=
      Workspace.Caches.reflect? hclasses name fun c₀ _ ↦ hflat _ hclasses c₀
    rw [Workspace.reflectFrom?_of_undeclared hd, hreflect] at h
    obtain ⟨c₀, hc₀, hp⟩ := hanswer c h
    refine ⟨c₀, ?_, hp⟩
    rw [Workspace.seen?, hd, Option.none_or, hc₀]

theorem receiver?_caches {w : Workspace} {P : ClassInfo → ClassInfo → Prop}
    (he : e.Caches w P) (hflat : ∀ cache, w.Caches P cache → ∀ c, P c (w.flattened cache c))
    (h : ((receiver? d target).run e).1 = some c) :
    ∃ name c₀, ((receiverType d target).run e).1 = .class name ∧ w.seen? d name = some c₀ ∧
      P c₀ c := by
  have hrun : (receiver? d target).run e =
      (match ((receiverType d target).run e).1.className? with
        | some name => reflectFrom? d name
        | none => pure none : StateM Engine (Option ClassInfo)).run
          ((receiverType d target).run e).2 := rfl
  have htyped := keeps_receiverType (fun cache hs _ c _ ↦ hflat cache hs c) d target e he
  rw [hrun] at h
  cases htype : ((receiverType d target).run e).1 with
  | «class» name =>
    rw [htype] at h
    obtain ⟨c₀, hc₀, hp⟩ := reflectFrom?_caches htyped hflat h
    exact ⟨name, c₀, rfl, hc₀, hp⟩
  | _ =>
    rw [htype] at h
    cases h

theorem receiverType_named {n : Name} (hX : staticClass? target = some (.named n)) (d : Document)
    (e : Engine) : ((receiverType d target).run e).1 = d.classNameType n := by
  obtain ⟨hinstance, -⟩ := kind_of_staticClass? hX
  have hinfer : receiverType d target = infer d (.expr target) := by
    rw [receiverType, hinstance, hX]
  rw [hinfer]
  unfold staticClass? at hX
  have hrun : ((infer d (.expr target)).run e).1 =
      ((e.workspace.exprType Workspace.maxDepth d target).run e.classes).1 := rfl
  rw [hrun, Workspace.maxDepth, Workspace.exprType]
  split at hX
  case h_1 hkind | h_2 hkind =>
    cases hX
    rw [hkind]
    rfl
  case h_3 => cases hX

end Engine

/-- Completion behind `::` offers the members of the flattened class that the name of the class
permits. Private ones among them are declared in that class or in one it uses. -/
theorem Session.completeIn_static {start : Session} (hstart : start.engine.classes.entries = [])
    (events : List Event) (d : Document) {target : Expr} {X : ClassRef}
    (hX : staticClass? target = some X) :
    (∀ item, item ∈ ((Engine.completeIn d target).run (start.afterAll events).engine).1 ↔
      ∃ c, ((Engine.receiver? d target).run (start.afterAll events).engine).1 = some c ∧
        OfferedOf d X target c item) ∧
    (∀ n, X = .named n →
      ((Engine.receiverType d target).run (start.afterAll events).engine).1 =
        d.classNameType n) ∧
    ∀ c, ((Engine.receiver? d target).run (start.afterAll events).engine).1 = some c →
      ∃ name c₀,
        ((Engine.receiverType d target).run (start.afterAll events).engine).1 = .class name ∧
        (start.afterAll events).engine.workspace.seen? d name = some c₀ ∧ c.name = c₀.name ∧
        ∀ {α : Type} (T : MemberTable α), ∀ m ∈ T.of c, (T.modifiers m).visibility = .private →
          ∃ a, (start.afterAll events).engine.workspace.Uses c₀ a ∧ m ∈ T.of a ∧
            T.declaringClass m = a.name := by
  have hflat (w : Workspace) (cache : ClassCache) (hs : w.Caches w.Confined cache)
      (c : ClassInfo) : w.Confined c (w.flattened cache c) :=
    Workspace.flatten_confined hs _ _ c
  obtain ⟨w, he⟩ :=
    caches_afterAll (fun w cache hs _ c _ ↦ hflat w cache hs c) hstart events
  refine ⟨fun item ↦ ?_, fun n hn ↦ Engine.receiverType_named (hn ▸ hX) d _, fun c hc ↦ ?_⟩
  · rw [Engine.completeIn_run]
    exact mem_completeWith_iff hX _ _
  · obtain ⟨name, c₀, htype, hseen, hconfined⟩ := Engine.receiver?_caches he (hflat w) hc
    obtain rfl := he.workspace
    refine ⟨name, c₀, htype, hseen, hconfined.name, fun T m hm hprivate ↦ ?_⟩
    have hdeclared : ∃ d k, c₀ = .ofDeclaration d k := by
      rcases Option.or_eq_some_iff.mp hseen with hd | ⟨-, hw⟩
      · obtain ⟨k, _, _, rfl⟩ := Document.locate?_eq_some hd
        exact ⟨d, k, rfl⟩
      · obtain ⟨d', _, k, _, _, rfl⟩ := Workspace.locate?_eq_some hw
        exact ⟨d', k, rfl⟩
    obtain ⟨a, ha, hma⟩ := hconfined.members T m hm hprivate
    exact ⟨a, ha, hma, ha.declaringClass T hdeclared hma⟩

/-- Two classes that extend each other, of which one uses a trait. -/
def Session.entangled? : Option (Document × Expr) := do
  let source := "<?php class A extends P\x7buse T;private static $own;\x7d" ++
    "class P extends A\x7bprivate static $up;static $open;\x7dtrait T\x7bprivate static $mixed;\x7d"
  let d ← (Document.parse 0 "a.php" source.toList 0).toOption
  let target ← Grammar.completionTarget "A::$".toList 4
  return (d, target)

theorem Session.completeIn_static_entangled :
    ∃ d target X, entangled? = some (d, target) ∧ staticClass? target = some X ∧
      (opened d).engine.classes.entries = [] ∧
      (((Engine.completeIn d target).run
        ((opened d).afterAll [.ask (.reflect "P"), .wait 60]).engine).1.map Item.label =
          ["own", "mixed", "open"]) ∧
      ∀ item ∈ ((Engine.completeIn d target).run
          ((opened d).afterAll [.ask (.reflect "P"), .wait 60]).engine).1,
        ∃ c, ((Engine.receiver? d target).run
            ((opened d).afterAll [.ask (.reflect "P"), .wait 60]).engine).1 = some c ∧
          OfferedOf d X target c item := by
  have hfound : entangled?.map (fun (d, target) ↦ ((staticClass? target).isSome,
      ((Engine.completeIn d target).run
        ((opened d).afterAll [.ask (.reflect "P"), .wait 60]).engine).1.map Item.label)) =
      some (true, ["own", "mixed", "open"]) := by
    decide +kernel
  obtain ⟨⟨d, target⟩, hread, hfound⟩ := Option.map_eq_some_iff.mp hfound
  obtain ⟨hclass, hlabels⟩ := Prod.mk.inj hfound
  obtain ⟨X, hX⟩ := Option.isSome_iff_exists.mp hclass
  have hempty : (opened d).engine.classes.entries = [] := rfl
  have hall := (completeIn_static hempty [.ask (.reflect "P"), .wait 60] d hX).1
  exact ⟨d, target, X, hread, hX, hempty, hlabels, fun item hitem ↦ (hall item).mp hitem⟩

end PhpInsight

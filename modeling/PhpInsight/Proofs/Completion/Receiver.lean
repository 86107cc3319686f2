import PhpInsight.Engine
import PhpInsight.Proofs.Completion.Replacement
import PhpInsight.Proofs.Completion.Target
import PhpInsight.Proofs.Span.Family
import PhpInsight.Proofs.Types.Source

namespace PhpInsight

open Text

namespace Node

variable {source : List Char}

theorem Formed.dollar_of_binds {n : Node} (h : n.Formed source) {name : String}
    (hn : n.binds name = true) : Dollar source n.span := by
  unfold binds at hn
  split at hn
  · rename_i target value byRef span
    have hmem : Node.expr target ∈ (Node.expr ⟨.assign target value byRef, span⟩).children := by
      simp [Node.children, ExprKind.children, ofExprs]
    have hinside := h.children_laid.mem hmem
    have hvariable : target.variableName? = some name := by simpa using hn
    have hwritten := (h.children_laid.formed _ hmem).written
    unfold Expr.variableName? at hvariable
    split at hvariable
    · rename_i hkind
      simp only [WrittenIn, hkind] at hwritten
      exact hwritten.mono hinside.1 hinside.2.2
    · cases hvariable
  · exact h.written
  · cases hn

end Node

namespace Completion

/-- A binding that stands in the way of those before the expression: it goes on over the place of
the expression but not as far as the receiver, or it is on one of the later lines over which the
receiver goes. -/
def Misleads (start line : Nat) (receiver s : Span) : Prop :=
  (s.start < start ∧ start + 4 ≤ s.stop ∧ s.stop < receiver.stop) ∨
    (start ≤ s.start ∧ line < s.stop ∧ s.stop ≤ receiver.stop ∧ ¬ s.encloses receiver = true)

/-- A receiver no longer than `null` and on the line of the expression is never misled. -/
theorem not_misleads {start line : Nat} {receiver : Span} (hshort : receiver.stop ≤ start + 4)
    (hline : receiver.stop ≤ line) (s : Span) : ¬ Misleads start line receiver s := by
  unfold Misleads
  omega

end Completion

namespace Engine

variable {e : Engine} {uri name : String} {source text : List Char} {cursor : Nat}
  {target receiver : Expr} {d : Document} {err : SyntaxError}

theorem documentFor_eq_repaired (hsource : Document.parse e.nextId uri source 0 = .error err)
    (htext : Completion.repair? source target.span.start = some text)
    (hparse : Document.parse e.nextId uri text 0 = .ok d) :
    ((documentFor uri source target).run e).1 = some d := by
  simp [documentFor, parse, hsource, htext, hparse]
  rfl

theorem receiverType_eq (hreceiver : Completion.instanceReceiver? target = some receiver)
    (hname : receiver.variableName? = some name) (hthis : name ≠ "this") (d : Document) :
    receiverType d target = withClasses fun w ↦
      w.boundType (Workspace.maxDepth - 1) d (d.bindingOf name receiver.span) := by
  have hinfer : receiverType d target = infer d (.expr receiver) := by
    simp only [receiverType, hreceiver]
  have htype (w : Workspace) : w.infer d (.expr receiver) =
      w.boundType (Workspace.maxDepth - 1) d (d.bindingOf name receiver.span) :=
    w.exprType_variable (Workspace.maxDepth - 1) d hname hthis
  rw [hinfer, infer]
  simp only [htype]

/-- In a text that had to be repaired the receiver is bound before the expression if and only if no
binding of its name stands in the way. -/
theorem receiver_bound_before_iff (htarget : Grammar.completionTarget source cursor = some target)
    (hreceiver : Completion.instanceReceiver? target = some receiver)
    (hname : receiver.variableName? = some name) (hthis : name ≠ "this")
    (hsource : Document.parse e.nextId uri source 0 = .error err)
    (htext : Completion.repair? source target.span.start = some text)
    (hparse : Document.parse e.nextId uri text 0 = .ok d) :
    ((documentFor uri source target).run e).1 = some d ∧
      receiverType d target = withClasses (fun w ↦
        w.boundType (Workspace.maxDepth - 1) d (d.bindingOf name receiver.span)) ∧
      ((∀ b, d.bindingOf name receiver.span = some b → b.span.stop ≤ target.span.start) ↔
        ∀ n ∈ d.nodes, n.binds name = true → ¬ Completion.Misleads target.span.start
          (Completion.lineStop source target.span.start) receiver.span n.span) := by
  refine ⟨documentFor_eq_repaired hsource htext hparse,
    receiverType_eq hreceiver hname hthis d, ?_⟩
  have hstart : target.span.start ≤ receiver.span.start :=
    (Grammar.completionTarget_eq_some htarget).2.holdsReceiver receiver hreceiver
  have hformed := Document.formed_of_mem_nodes hparse
  rw [Document.bindingOf, Node.lastReaching_le_iff]
  simp only [List.mem_filter, Bool.and_eq_true, decide_eq_true_eq, Bool.not_eq_true']
  constructor
  · rintro h n hn hbinds (⟨hbefore, hover, hshort⟩ | ⟨hbehind, hline, hstop, hapart⟩)
    · have hapart : n.span.encloses receiver.span = false := by
        rw [Bool.eq_false_iff, ne_eq, Span.encloses_iff]
        omega
      have hle := h n ⟨hn, ⟨hbinds, Nat.le_of_lt hshort⟩, hapart⟩
      omega
    · have hle := h n ⟨hn, ⟨hbinds, hstop⟩, by simpa using hapart⟩
      have hpos := (hformed n hn).nonempty
      omega
  · rintro h n ⟨hn, ⟨hbinds, hstop⟩, hapart⟩
    refine Nat.le_of_not_lt fun hlt ↦ h n hn hbinds ?_
    rcases Nat.lt_or_ge n.span.start target.span.start with hbefore | hbehind
    · have hover := Completion.four_le_of_settled htext (hformed n hn).settled hlt
      refine .inl ⟨hbefore, hover, ?_⟩
      rw [Bool.eq_false_iff, ne_eq, Span.encloses_iff] at hapart
      omega
    · have hline := Completion.lineStop_lt_of_dollar htext ((hformed n hn).dollar_of_binds hbinds)
        hbehind
      exact .inr ⟨hbehind, hline, hstop, by simpa using hapart⟩

def reassigned (v : String) : List Char :=
  ("<?php " ++ v ++ "=new U;" ++ v ++ "=" ++ v ++ "->").toList

/-- The target at the end of a text that does not parse, with its receiver and the document of the
repaired text. -/
def typed (source : List Char) : Option (Expr × Expr × Document) := do
  let target ← Grammar.completionTarget source (byteLength source)
  let receiver ← Completion.instanceReceiver? target
  guard (Document.parse 0 "u" source 0).toOption.isNone
  let text ← Completion.repair? source target.span.start
  let d ← (Document.parse 0 "u" text 0).toOption
  return (target, receiver, d)

theorem typed_eq_some {target receiver : Expr} {d : Document}
    (h : typed source = some (target, receiver, d)) :
    ∃ text err, Grammar.completionTarget source (byteLength source) = some target ∧
      Completion.instanceReceiver? target = some receiver ∧
        Document.parse 0 "u" source 0 = .error err ∧
          Completion.repair? source target.span.start = some text ∧
            Document.parse 0 "u" text 0 = .ok d := by
  unfold typed at h
  obtain ⟨target', htarget, h⟩ := Option.bind_eq_some_iff.mp h
  obtain ⟨receiver', hreceiver, h⟩ := Option.bind_eq_some_iff.mp h
  obtain ⟨_, hsource, h⟩ := Option.bind_eq_some_iff.mp h
  obtain ⟨text, htext, h⟩ := Option.bind_eq_some_iff.mp h
  obtain ⟨d', hd, he⟩ := Option.bind_eq_some_iff.mp h
  cases he
  cases hp : Document.parse 0 "u" source 0 with
  | error err => exact ⟨text, err, htarget, hreceiver, rfl, htext, Document.parse_of_toOption hd⟩
  | ok d' =>
    rw [hp] at hsource
    cases hsource

theorem receiver_bound_before_short :
    ∃ target receiver d b, typed (reassigned "$u") = some (target, receiver, d) ∧
      ((documentFor "u" (reassigned "$u") target).run {}).1 = some d ∧
        d.bindingOf "u" receiver.span = some b ∧ b.span.stop ≤ target.span.start := by
  have hbound : ((typed (reassigned "$u")).bind fun (target, receiver, d) ↦
      (d.bindingOf "u" receiver.span).map fun _ ↦
        (receiver.variableName?, decide (receiver.span.stop ≤ target.span.start + 4 ∧
          receiver.span.stop ≤ Completion.lineStop (reassigned "$u") target.span.start))) =
            some (some "u", true) := by decide +kernel
  obtain ⟨⟨target, receiver, d⟩, htyped, hbound⟩ := Option.bind_eq_some_iff.mp hbound
  obtain ⟨b, hb, hpair⟩ := Option.map_eq_some_iff.mp hbound
  obtain ⟨hname, hshort⟩ := Prod.mk.inj hpair
  obtain ⟨hshort, hline⟩ := of_decide_eq_true hshort
  obtain ⟨text, err, htarget, hreceiver, hsource, htext, hparse⟩ := typed_eq_some htyped
  have hiff := receiver_bound_before_iff (e := {}) htarget hreceiver hname (by decide) hsource htext
    hparse
  exact ⟨target, receiver, d, b, htyped, hiff.1, hb,
    hiff.2.2.mpr (fun n _ _ ↦ Completion.not_misleads hshort hline n.span) b hb⟩

/-- The value that stands for the expression being typed takes the place of the one before. -/
theorem receiver_bound_late :
    ∃ target receiver d b, typed (reassigned "$user") = some (target, receiver, d) ∧
      receiver.variableName? = some "user" ∧ d.bindingOf "user" receiver.span = some b ∧
        target.span.start < b.span.stop := by
  have hbound : ((typed (reassigned "$user")).bind fun (target, receiver, d) ↦
      (d.bindingOf "user" receiver.span).map fun b ↦
        (receiver.variableName?, decide (target.span.start < b.span.stop))) =
          some (some "user", true) := by decide +kernel
  obtain ⟨⟨target, receiver, d⟩, htyped, hbound⟩ := Option.bind_eq_some_iff.mp hbound
  obtain ⟨b, hb, hpair⟩ := Option.map_eq_some_iff.mp hbound
  obtain ⟨hname, hlate⟩ := Prod.mk.inj hpair
  exact ⟨target, receiver, d, b, htyped, hname, hb, of_decide_eq_true hlate⟩

end Engine

end PhpInsight

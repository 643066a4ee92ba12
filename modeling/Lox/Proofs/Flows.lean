import Lox.Machine.Eval
import Lox.Proofs.Rules

/-!
# How code ends

Which flows leave a statement can be read off the rules alone, whatever the machine is like: a break
comes only from inside a loop, a return only from inside a function, and an initializer returns no
value of its own.
-/

namespace Lox

open Exec

/-- The flows that may leave a place so surrounded. -/
def Surroundings.Allows (c : Surroundings) : Flow → Prop
  | .normal => True
  | .break => c.inLoop = true
  | .return v => c.function ≠ .none ∧ (c.function = .initializer → v = .nil)

theorem Surroundings.normal_of_top {flow : Flow} (h : top.Allows flow) : flow = .normal := by
  cases flow with
  | normal => rfl
  | «break» => cases h
  | «return» v => exact absurd rfl h.1

/-- Whenever the step ends well, its result is as told. -/
def Exec.Yields {α : Type} (act : Exec α) (post : α → Prop) : Prop :=
  ∀ m a m', act m = .ok a m' → post a

namespace Exec.Yields

variable {α β : Type} {act : Exec α} {post : α → Prop}

theorem pure {a : α} (h : post a) : (Pure.pure a : Exec α).Yields post := by
  rintro m b m' hb
  cases hb
  exact h

theorem throw (stop : Stop) : (MonadExcept.throw stop : Exec α).Yields post := by
  rintro m a m' ha
  cases ha

theorem bind {f : α → Exec β} {post' : β → Prop} (h : act.Yields post)
    (hf : ∀ a, post a → (f a).Yields post') : (act >>= f).Yields post' := by
  intro m b m' hb
  simp only [Bind.bind, EStateM.bind] at hb
  split at hb
  · next a m₁ ha => exact hf a (h m a m₁ ha) m₁ b m' hb
  · cases hb

/-- A step of whose result nothing is asked. -/
theorem any (act : Exec α) : act.Yields fun _ => True := fun _ _ _ _ => trivial

theorem imp {post' : α → Prop} (h : act.Yields post) (hp : ∀ a, post a → post' a) :
    act.Yields post' := fun m a m' ha => hp a (h m a m' ha)

theorem withFrame (h : act.Yields post) (e : FrameId) : (Exec.withFrame e act).Yields post := by
  intro m a m' ha
  obtain ⟨m₁, hb, -⟩ := Exec.withFrame_eq_ok_iff.1 ha
  exact h _ a m₁ hb

end Exec.Yields

variable {c : Surroundings} {n : Nat}

theorem runAll_allowed (h : ∀ {s : Stmt}, s.Legal c → (s.exec n).Yields c.Allows) :
    ∀ {ss : List Stmt}, Stmt.LegalAll c ss → (runAll (Stmt.exec n) ss).Yields c.Allows
  | [], _ => .pure trivial
  | _ :: _, ⟨hs, hss⟩ => by
    refine (h hs).bind fun flow hflow => ?_
    cases flow with
    | normal => exact runAll_allowed h hss
    | _ => exact .pure hflow

/-- A break ends the loop that it leaves. -/
theorem repeatWhile_allowed {condition : Exec Value} {body : Exec Flow}
    (h : body.Yields { c with inLoop := true }.Allows) (rounds : Nat) :
    (repeatWhile condition body rounds).Yields fun flow => flow ≠ .break ∧ c.Allows flow := by
  induction rounds with
  | zero => exact .throw _
  | succ rounds ih =>
    refine (Yields.any condition).bind fun v _ => ?_
    split
    · refine h.bind fun flow hflow => ?_
      cases flow with
      | normal => exact ih
      | «break» => exact .pure ⟨by simp, trivial⟩
      | «return» v => exact .pure ⟨by simp, hflow⟩
    · exact .pure ⟨by simp, trivial⟩

theorem Stmt.exec_allowed (n : Nat) {s : Stmt} (hs : s.Legal c) : (s.exec n).Yields c.Allows := by
  induction n generalizing s c with
  | zero => exact .throw _
  | succ n ih =>
    have normally {act : Exec Flow} (h : act.Yields (· = .normal)) : act.Yields c.Allows :=
      h.imp fun _ hf => hf ▸ trivial
    cases s with
    | expression value => exact normally ((Yields.any _).bind fun _ _ => .pure rfl)
    | print value =>
      exact normally ((Yields.any _).bind fun _ _ => (Yields.any _).bind fun _ _ =>
        (Yields.any _).bind fun _ _ => .pure rfl)
    | var name initializer =>
      cases initializer with
      | none => exact normally ((Yields.any _).bind fun _ _ => .pure rfl)
      | some value =>
        exact normally ((Yields.any _).bind fun _ _ => (Yields.any _).bind fun _ _ => .pure rfl)
    | block body =>
      refine (Yields.any _).bind fun _ _ => (Yields.any _).bind fun e _ => .withFrame ?_ e
      exact (runAll_allowed (c := { c with isGlobal := false }) ih hs.2).imp fun flow hf => by
        cases flow <;> exact hf
    | «if» condition thenBranch elseBranch =>
      refine (Yields.any _).bind fun v _ => ?_
      cases elseBranch with
      | none =>
        split
        · exact ih hs.2
        · exact .pure trivial
      | some elseBranch =>
        split
        · exact ih hs.2.1
        · exact ih hs.2.2
    | «while» condition body => exact (repeatWhile_allowed (ih hs.2) n).imp fun _ h => h.2
    | «break» keyword => exact .pure hs
    | function decl =>
      exact normally ((Yields.any _).bind fun _ _ => (Yields.any _).bind fun _ _ =>
        (Yields.any _).bind fun _ _ => .pure rfl)
    | «return» keyword value =>
      cases value with
      | none => exact .pure ⟨hs.1, fun _ => rfl⟩
      | some value =>
        refine (Yields.any _).bind fun v _ => .pure ⟨hs.1, fun hi => ?_⟩
        exact absurd ⟨rfl, hi⟩ hs.2.1
    | «class» name superclass methods =>
      exact normally ((Yields.any _).bind fun _ _ => (Yields.any _).bind fun _ _ =>
        (Yields.any _).bind fun _ _ => (Yields.any _).bind fun _ _ => (Yields.any _).bind fun _ _ =>
        (Yields.any _).bind fun _ _ => .pure rfl)

/-- No break leaves the body of a function, and an initializer ends with no value of its own. -/
theorem FunDecl.body_allowed {f : FunDecl} {context : Scope.FunctionContext} (hf : f.Legal c context)
    (n : Nat) (e : FrameId) :
    (withFrame e (runAll (Stmt.exec n) f.body)).Yields fun flow => flow ≠ .break ∧
      (context = .initializer → flow = .normal ∨ flow = .return .nil) := by
  obtain ⟨name, params, body⟩ := f
  refine (Yields.withFrame (runAll_allowed (Stmt.exec_allowed n) hf.2) e).imp fun flow hflow => ?_
  cases flow with
  | normal => exact ⟨by simp, fun _ => .inl rfl⟩
  | «break» => cases hflow
  | «return» v => exact ⟨by simp, fun hi => .inr (congrArg Flow.return (hflow.2 hi))⟩

end Lox

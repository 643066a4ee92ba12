import Lox.Proofs.Renaming
import Lox.Proofs.Sessions

/-!
# The effect of a tree on a walk

A walk leaves a tree where it came to it: as deep in scopes, in the same function, class and loops.
Behind it the names that the tree declares outside of any scope of its own are ready in the innermost
scope, and what it found in the tree stands after what it had found before. This holds of every tree
and of every walk, also where rules are broken, so a program that follows another one is resolved as
if it stood alone.
-/

namespace Lox

open Scope

namespace Scope.Walk

/-! ### Names that become ready -/

/-- Only the innermost scope changes, if there is one. -/
theorem defineAll_eq (w : Walk) (names : List String) :
    w.defineAll names = { w with
      scopes := w.scopes.modifyHead fun b => names.foldl (fun b x => b.insert x true) b } := by
  obtain ⟨scopes, _, _, _, _, _⟩ := w
  induction names generalizing scopes with
  | nil => cases scopes <;> rfl
  | cons x xs ih =>
    cases scopes with
    | nil => exact ih []
    | cons scope outer => exact ih (scope.insert x true :: outer)

theorem innermost?_defineAll (w : Walk) (names : List String) (x : String) :
    (w.defineAll names).innermost? x =
      if w.scopes ≠ [] ∧ x ∈ names then some true else w.innermost? x := by
  induction names generalizing w with
  | nil => simp
  | cons y ys ih =>
    refine (ih (w.define y)).trans ?_
    simp only [scopes_define_ne_nil]
    by_cases hw : w.scopes = []
    · simp [hw, define_of_global w hw]
    · rw [innermost?_define w hw]
      by_cases hy : x = y
      · simp [hw, hy]
      · simp [hw, hy, Ne.symm hy]

/-! ### Effects -/

/-- What happens to a walk `w` that ends as `v` behind a tree with the occurrences `ids`. The tree
declares `names` outside of any scope of its own, and `found` is how a walk ends that came to it from
the same place and had found nothing before. -/
structure Effect (ids : List NodeId) (names : List String) (found w v : Walk) : Prop where
  height : v.scopes.length = w.scopes.length
  outer : v.scopes.tail = w.scopes.tail
  /-- The innermost scope keeps the other names; global names are not kept at all. -/
  innermost (x : String) :
    v.innermost? x = if w.scopes ≠ [] ∧ x ∈ names then some true else w.innermost? x
  functionContext : v.functionContext = w.functionContext
  classContext : v.classContext = w.classContext
  loopDepth : v.loopDepth = w.loopDepth
  errors : v.errors = w.errors ++ found.errors
  distances : v.distances = w.distances ++ found.distances
  /-- A machine that takes over the distances knows of other trees what it knew before. -/
  known (m : Machine) {id : NodeId} (hid : id ∉ ids) :
    (m.noteAll v.distances).distances[id]? = (m.noteAll w.distances).distances[id]?

/-- It is enough to know where the tree leaves a walk, that nothing found before has a part in it,
and which occurrences it notes. -/
theorem Effect.of_place {tree : Walk → Walk} {ids : List NodeId} {names : List String}
    (hplace : ∀ w, (tree w).place = w.place.defineAll names)
    (hafter : ∀ w p, tree (w.after p) = (tree w).after p)
    (hnotes : ∀ w, Notes ids w (tree w)) (w : Walk) :
    Effect ids names (tree w.place) w (tree w) := by
  have hp : (tree w).place = (w.defineAll names).place :=
    (hplace w).trans (place_defineAll w names).symm
  have hscopes : (tree w).scopes = (w.defineAll names).scopes := congrArg (·.scopes) hp
  have hfound : tree w = (tree w.place).after w := by rw [← hafter, place_after]
  rw [defineAll_eq] at hscopes
  exact
    { height := by rw [hscopes, List.length_modifyHead]
      outer := by rw [hscopes, List.tail_modifyHead]
      innermost := fun x => by rw [innermost?_of_place hp, innermost?_defineAll]
      functionContext := (congrArg (·.functionContext) hp).trans (by rw [defineAll_eq]; rfl)
      classContext := (congrArg (·.classContext) hp).trans (by rw [defineAll_eq]; rfl)
      loopDepth := (congrArg (·.loopDepth) hp).trans (by rw [defineAll_eq]; rfl)
      errors := congrArg Walk.errors hfound
      distances := congrArg Walk.distances hfound
      known := by
        intro m id hid
        obtain ⟨notes, hd, hn⟩ := hnotes w
        have hne : ∀ note ∈ notes, note.1 ≠ id := fun note hnote he => hid (he ▸ hn note hnote)
        rw [hd, ← Machine.noteAll_append]
        exact Machine.distances_noteAll_of_ne hne (m.noteAll w.distances) }

end Scope.Walk

open Scope.Walk (Effect)

theorem Expr.effect (e : Expr) (w : Walk) : Effect e.ids [] (e.resolve w.place) w (e.resolve w) :=
  .of_place (Expr.place_resolve e) (fun w p => Expr.resolve_after p e w) (Expr.notes e) w

theorem Stmt.effect (s : Stmt) (w : Walk) :
    Effect s.ids s.exposed (s.resolve w.place) w (s.resolve w) :=
  .of_place (Stmt.place_resolve_exposed s) (fun w p => Stmt.resolve_after p s w)
    (fun w => (Stmt.notedOnce s w).notes) w

/-- Every statement and every expression has its effect on every walk, whatever rules are broken. So
of two programs in a row the errors and the distances are those of the first and then those of the
second, and a machine takes them over one after the other. -/
theorem Scope.resolve_restores_and_appends :
    (∀ (s : Stmt) (w : Walk), Effect s.ids s.exposed (s.resolve w.place) w (s.resolve w)) ∧
    (∀ (e : Expr) (w : Walk), Effect e.ids [] (e.resolve w.place) w (e.resolve w)) ∧
    ∀ first second : List Stmt,
      (resolve (first ++ second)).errors = (resolve first).errors ++ (resolve second).errors ∧
      (resolve (first ++ second)).distances =
        (resolve first).distances ++ (resolve second).distances ∧
      ∀ m : Machine, m.noteAll (resolve (first ++ second)).distances =
        (m.noteAll (resolve first).distances).noteAll (resolve second).distances := by
  refine ⟨Stmt.effect, Expr.effect, fun first second => ?_⟩
  have hwhole := resolve_append first second
  have hdistances : (resolve (first ++ second)).distances =
      (resolve first).distances ++ (resolve second).distances := congrArg Walk.distances hwhole
  refine ⟨congrArg Walk.errors hwhole, hdistances, fun m => ?_⟩
  rw [hdistances, Machine.noteAll_append]

end Lox

import Mathlib.Data.Fin.Tuple.Sort
import Mathlib.SetTheory.Cardinal.NatCard
import Mathlib.SetTheory.Ordinal.Rank
import Lox.Machine

/-!
# Walks and jumps along frames

A variable is reached by a walk, which goes outward until a frame binds the name, or by a jump over a
number of links. A jump to the nearest frame that binds the name reads and writes what the walk does
(`getFrom_eq_getAt`, `assignFrom_eq_assignAt`). What is written is seen from every place that gets to
this frame, and nowhere else: a walk that finds the name further in does not, a jump past that frame
does.

Links lead to older frames. That leaves out no store whose links have no cycle, for its frames can be
numbered so that they do (`exists_numbering`).
-/

namespace Lox

namespace Heap

/-- The frame `p` is so many links outward from `e`. -/
inductive Outward (h : Heap) : FrameId → Nat → FrameId → Prop
  | here (e : FrameId) : Outward h e 0 e
  | link {e q p : FrameId} {d : Nat} :
    h.enclosing? e = some q → Outward h q d p → Outward h e (d + 1) p

/-- From `e` outward, `p` is the nearest frame that binds the name, and `d` the number of links to
it. -/
structure NearestAt (h : Heap) (e : FrameId) (name : String) (d : Nat) (p : FrameId) : Prop where
  outward : h.Outward e d p
  binds : (h.local? p name).isSome
  least : ∀ k q, h.Outward e k q → (h.local? q name).isSome → d ≤ k

/-- No frame from `e` outward binds the name. -/
def UnboundFrom (h : Heap) (e : FrameId) (name : String) : Prop :=
  ∀ k q, h.Outward e k q → h.local? q name = none

/-- The second store has this value for the name in the frame `p`, and is the same otherwise. -/
structure Overwrites (h : Heap) (p : FrameId) (name : String) (v : Value) (h' : Heap) : Prop where
  values : ∀ q x, h'.local? q x = if q = p ∧ x = name then some v else h.local? q x
  links : ∀ q, (h'.frame q).enclosing = (h.frame q).enclosing
  rest : { h' with frames := h.frames } = h

variable {h h' : Heap} {e p q : FrameId} {name : String} {v : Value} {d k : Nat}

/-! ### Chains -/

theorem outward_iff : h.Outward e d p ↔ h.ancestor? e d = some p := by
  constructor
  · intro ho
    induction ho with
    | here e => rfl
    | link he _ ih => rw [ancestor?, he, Option.bind_some, ih]
  · intro ha
    induction d generalizing e with
    | zero =>
      cases ha
      exact .here _
    | succ d ih =>
      obtain ⟨q, he, hq⟩ := Option.bind_eq_some_iff.1 ha
      exact .link he (ih hq)

theorem Outward.unique (hp : h.Outward e d p) (hq : h.Outward e d q) : p = q :=
  Option.some.inj ((outward_iff.1 hp).symm.trans (outward_iff.1 hq))

/-- A nearer frame would bind the name, too. -/
theorem NearestAt.unique (hp : h.NearestAt e name d p) (hq : h.NearestAt e name k q) :
    d = k ∧ p = q := by
  have hdk : d = k := Nat.le_antisymm (hp.least k q hq.outward hq.binds)
    (hq.least d p hp.outward hp.binds)
  subst hdk
  exact ⟨rfl, hp.outward.unique hq.outward⟩

theorem NearestAt.here (hb : (h.local? e name).isSome) : h.NearestAt e name 0 e :=
  ⟨.here e, hb, fun _ _ _ _ => Nat.zero_le _⟩

theorem NearestAt.link (hb : h.local? e name = none) (he : h.enclosing? e = some q)
    (hn : h.NearestAt q name d p) : h.NearestAt e name (d + 1) p := by
  refine ⟨.link he hn.outward, hn.binds, fun k r hr hx => ?_⟩
  cases hr with
  | here => simp [hb] at hx
  | link he' hr =>
    obtain rfl : q = _ := Option.some.inj (he.symm.trans he')
    exact Nat.succ_le_succ (hn.least _ _ hr hx)

/-- A walk ends at the nearest frame that binds the name. -/
theorem exists_nearestAt (hp : h.holder? e name = some p) : ∃ d, h.NearestAt e name d p := by
  fun_induction h.holder? e name with
  | case1 e hb =>
    cases hp
    exact ⟨0, .here hb⟩
  | case2 => cases hp
  | case3 e hb q he _ ih =>
    obtain ⟨d, hd⟩ := ih hp
    exact ⟨d + 1, .link (Option.not_isSome_iff_eq_none.1 hb) he hd⟩

theorem unboundFrom_of_holder? (hp : h.holder? e name = none) : h.UnboundFrom e name := by
  fun_induction h.holder? e name with
  | case1 => cases hp
  | case2 e hb he =>
    intro k q hq
    cases hq with
    | here => exact Option.not_isSome_iff_eq_none.1 hb
    | link he' _ => simp [he] at he'
  | case3 e hb r he _ ih =>
    intro k q hq
    cases hq with
    | here => exact Option.not_isSome_iff_eq_none.1 hb
    | link he' hq =>
      obtain rfl : r = _ := Option.some.inj (he.symm.trans he')
      exact ih hp _ _ hq

theorem NearestAt.not_unboundFrom (hn : h.NearestAt e name d p) : ¬ h.UnboundFrom e name :=
  fun hu => by simpa [hu d p hn.outward] using hn.binds

theorem holder?_eq_some_iff : h.holder? e name = some p ↔ ∃ d, h.NearestAt e name d p := by
  refine ⟨exists_nearestAt, fun ⟨d, hd⟩ => ?_⟩
  rcases hp : h.holder? e name with _ | q
  · exact absurd (unboundFrom_of_holder? hp) hd.not_unboundFrom
  · obtain ⟨k, hk⟩ := exists_nearestAt hp
    rw [(hd.unique hk).2]

theorem holder?_eq_none_iff : h.holder? e name = none ↔ h.UnboundFrom e name := by
  refine ⟨unboundFrom_of_holder?, fun hu => ?_⟩
  rcases hp : h.holder? e name with _ | q
  · rfl
  · obtain ⟨k, hk⟩ := exists_nearestAt hp
    exact absurd hu hk.not_unboundFrom

theorem UnboundFrom.get? (hu : h.UnboundFrom e name) : h.get? e name = none := by
  rw [Heap.get?, holder?_eq_none_iff.2 hu, Option.bind_none]

theorem NearestAt.holder? (hn : h.NearestAt e name d p) : h.holder? e name = some p :=
  holder?_eq_some_iff.2 ⟨d, hn⟩

theorem NearestAt.get? (hn : h.NearestAt e name d p) : h.get? e name = h.local? p name := by
  rw [Heap.get?, hn.holder?, Option.bind_some]

theorem Outward.ancestor (ho : h.Outward e d p) : h.ancestor e d = .ok p := by
  rw [Heap.ancestor, outward_iff.1 ho]

theorem NearestAt.assign? (hn : h.NearestAt e name d p) (v : Value) :
    h.assign? e name v = some (h.define p name v) := by
  rw [Heap.assign?, hn.holder?, Option.map_some]

theorem UnboundFrom.assign? (hu : h.UnboundFrom e name) (v : Value) : h.assign? e name v = none := by
  rw [Heap.assign?, holder?_eq_none_iff.2 hu, Option.map_none]

theorem Outward.assignAt (ho : h.Outward e d p) (name : String) (v : Value) :
    h.assignAt e d name v = .ok (h.define p name v) := by
  rw [Heap.assignAt, ho.ancestor, Except.map]

/-! ### Overwriting -/

theorem overwrites_define (hb : (h.local? p name).isSome) (v : Value) :
    h.Overwrites p name v (h.define p name v) where
  values q x := by
    rw [local?_define h (lt_of_local? hb)]
    simp only [eq_comm]
  links q := by
    rw [frame_define]
    split <;> rfl
  rest := rfl

namespace Overwrites

/-- A store is told by what it binds, by its links and by its other objects. -/
theorem enclosing?_eq (ho : h.Overwrites p name v h') (q : FrameId) :
    h'.enclosing? q = h.enclosing? q := by
  rw [enclosing?, enclosing?, ho.links q]

theorem ancestor?_eq (ho : h.Overwrites p name v h') (q : FrameId) (d : Nat) :
    h'.ancestor? q d = h.ancestor? q d := by
  induction d generalizing q with
  | zero => rfl
  | succ d ih => simp only [ancestor?, ho.enclosing?_eq, ih]

theorem outward_iff' (ho : h.Overwrites p name v h') :
    h'.Outward e d q ↔ h.Outward e d q := by
  rw [outward_iff, outward_iff, ho.ancestor?_eq]

/-- No name is new and none is lost. -/
theorem isSome_local? (ho : h.Overwrites p name v h') (hb : (h.local? p name).isSome)
    (q : FrameId) (x : String) : (h'.local? q x).isSome = (h.local? q x).isSome := by
  rw [ho.values]
  split
  · next hq =>
    obtain ⟨rfl, rfl⟩ := hq
    exact hb.symm
  · rfl

theorem holder?_eq (ho : h.Overwrites p name v h') (hb : (h.local? p name).isSome) (e : FrameId)
    (x : String) : h'.holder? e x = h.holder? e x := by
  have hn (d : Nat) (q : FrameId) : h'.NearestAt e x d q ↔ h.NearestAt e x d q := by
    constructor <;> rintro ⟨hq, hx, hleast⟩
    · exact ⟨ho.outward_iff'.1 hq, ho.isSome_local? hb q x ▸ hx, fun k r hr hr' =>
        hleast k r (ho.outward_iff'.2 hr) ((ho.isSome_local? hb r x).symm ▸ hr')⟩
    · exact ⟨ho.outward_iff'.2 hq, (ho.isSome_local? hb q x).symm ▸ hx, fun k r hr hr' =>
        hleast k r (ho.outward_iff'.1 hr) (ho.isSome_local? hb r x ▸ hr')⟩
  refine Option.ext fun q => ?_
  rw [holder?_eq_some_iff, holder?_eq_some_iff]
  exact exists_congr fun d => hn d q

/-- A walk sees the new value only where it ends at that frame. -/
theorem get?_eq (ho : h.Overwrites p name v h') (hb : (h.local? p name).isSome) {e : FrameId}
    {x : String} (hx : x ≠ name ∨ ∀ d, ¬ h.NearestAt e name d p) : h'.get? e x = h.get? e x := by
  rw [Heap.get?, Heap.get?, ho.holder?_eq hb]
  rcases hq : h.holder? e x with _ | q
  · rfl
  · rw [Option.bind_some, Option.bind_some, ho.values, if_neg]
    rintro ⟨rfl, rfl⟩
    obtain ⟨d, hd⟩ := holder?_eq_some_iff.1 hq
    exact hx.elim (· rfl) (· d hd)

/-- A jump sees it only where it leads to that frame. -/
theorem getAt_eq (ho : h.Overwrites p name v h') {e : FrameId} {d : Nat} {x : String}
    (hx : x ≠ name ∨ ¬ h.Outward e d p) : h'.getAt e d x = h.getAt e d x := by
  rw [getAt, getAt, ancestor, ancestor, ho.ancestor?_eq]
  rcases hq : h.ancestor? e d with _ | q
  · rfl
  · dsimp only
    rw [ho.values, if_neg]
    rintro ⟨rfl, rfl⟩
    exact hx.elim (· rfl) (· (outward_iff.2 hq))

end Overwrites

/-! ### Numbering -/

/-- Frames whose links have no cycle stand in an order in which every link leads to an earlier one. -/
theorem exists_order {α : Type} [Finite α] {link : α → Option α}
    (acyclic : WellFounded fun p e => link e = some p) :
    ∃ place : α ≃ Fin (Nat.card α), ∀ e p, link e = some p → place p < place e := by
  let numbers := Finite.equivFin α
  let rank (i : Fin (Nat.card α)) : Ordinal := (acyclic.apply (numbers.symm i)).rank
  refine ⟨numbers.trans (Tuple.sort rank).symm, fun e p hp => ?_⟩
  by_contra hle
  have hmono := Tuple.monotone_sort rank (not_lt.1 hle)
  have hlt : (acyclic.apply p).rank < (acyclic.apply e).rank := (acyclic.apply e).rank_lt_of_rel hp
  simp only [Function.comp_apply, Equiv.trans_apply, Equiv.apply_symm_apply, rank,
    Equiv.symm_apply_apply] at hmono
  exact absurd hlt (not_lt.2 hmono)

/-- They can be numbered in this order, so that a store has them all with their links. -/
theorem exists_numbering {α : Type} [Finite α] (bindings : α → Bindings Value) {link : α → Option α}
    (acyclic : WellFounded fun p e => link e = some p) :
    ∃ (h : Heap) (number : α → FrameId), Function.Injective number ∧
      ∀ e, h.frame (number e) = ⟨bindings e, (link e).map number⟩ ∧
        h.enclosing? (number e) = (link e).map number := by
  obtain ⟨place, hplace⟩ := exists_order acyclic
  let number (e : α) : FrameId := ⟨place e⟩
  let frames : Array Frame := Array.ofFn fun i =>
    ⟨bindings (place.symm i), (link (place.symm i)).map number⟩
  have hframe (e : α) : ({ empty with frames } : Heap).frame (number e) =
      ⟨bindings e, (link e).map number⟩ := by
    simp [frame, frames, number]
  refine ⟨{ empty with frames }, number, fun e p h => ?_, fun e => ⟨hframe e, ?_⟩⟩
  · exact place.injective (Fin.ext (congrArg FrameId.index h))
  · rw [enclosing?, hframe]
    cases hp : link e with
    | none => rfl
    | some p => exact Option.filter_eq_some_iff.2 ⟨rfl, decide_eq_true (hplace e p hp)⟩

end Heap

namespace Machine

open Exec

variable {m : Machine} {name : Token} {d : Nat} {p : FrameId}

/-- A walk to a variable reads what the jump to the nearest frame that binds it reads. -/
theorem getFrom_eq_getAt (hn : m.heap.NearestAt m.frame name.lexeme d p) :
    getFrom m.frame name m = getAt d name.lexeme m ∧
      ∃ w, m.heap.local? p name.lexeme = some w ∧ getAt d name.lexeme m = .ok w m := by
  obtain ⟨w, hw⟩ := Option.isSome_iff_exists.1 hn.binds
  have hget : m.heap.get? m.frame name.lexeme = some w := hn.get?.trans hw
  have hat : getAt d name.lexeme m = .ok w m := by
    simp only [getAt, ask, Heap.getAt, hn.outward.ancestor, hw]
  refine ⟨?_, w, hw, hat⟩
  rw [hat]
  simp only [getFrom, inspect, Bind.bind, EStateM.bind, hget]
  rfl

/-- And it overwrites what this jump overwrites. -/
theorem assignFrom_eq_assignAt (hn : m.heap.NearestAt m.frame name.lexeme d p) (v : Value) :
    assignFrom m.frame name v m = assignAt d name.lexeme v m ∧
      assignAt d name.lexeme v m = .ok () { m with heap := m.heap.define p name.lexeme v } := by
  have hat : assignAt d name.lexeme v m =
      .ok () { m with heap := m.heap.define p name.lexeme v } := by
    simp only [assignAt_eq, hn.outward.assignAt]
  refine ⟨?_, hat⟩
  rw [hat]
  simp only [assignFrom_eq, hn.assign?]

/-- Where nothing binds the name, both walks blame it and leave the machine as it was. -/
theorem undefined_of_unboundFrom (hu : m.heap.UnboundFrom m.frame name.lexeme) (v : Value) :
    let error : Stop := .error ⟨.undefinedVariable name.lexeme, name.line⟩
    getFrom m.frame name m = .error error m ∧ assignFrom m.frame name v m = .error error m := by
  constructor
  · simp only [getFrom, inspect, Bind.bind, EStateM.bind, hu.get?]
    rfl
  · simp only [assignFrom_eq, hu.assign?]

/-- For the frame a machine is in, whichever it is: a walk to a name does what the jump to the nearest
frame that binds it does. The value written there is all that changes in the store, so other names
are read as before, by walks and jumps; the name itself is by every walk that ends at another frame
and by every jump that leads to another frame. A name that is bound nowhere is an error on its line
for both walks, and nothing changes. -/
theorem walk_agrees_with_jump (m : Machine) (name : Token) (v : Value) :
    (∀ d p, m.heap.NearestAt m.frame name.lexeme d p →
      (∃ w, getFrom m.frame name m = .ok w m ∧ getAt d name.lexeme m = .ok w m) ∧
      ∃ h', assignFrom m.frame name v m = .ok () { m with heap := h' } ∧
        assignAt d name.lexeme v m = .ok () { m with heap := h' } ∧
        m.heap.Overwrites p name.lexeme v h' ∧
        (∀ e x, (x ≠ name.lexeme ∨ ∀ k, ¬ m.heap.NearestAt e name.lexeme k p) →
          h'.get? e x = m.heap.get? e x) ∧
        ∀ e k x, (x ≠ name.lexeme ∨ ¬ m.heap.Outward e k p) →
          h'.getAt e k x = m.heap.getAt e k x) ∧
    (m.heap.UnboundFrom m.frame name.lexeme →
      ∃ error : RuntimeError,
        error.cause.message = "Undefined variable '" ++ name.lexeme ++ "'." ∧
        error.line = name.line ∧ getFrom m.frame name m = .error (.error error) m ∧
        assignFrom m.frame name v m = .error (.error error) m) := by
  refine ⟨fun d p hn => ?_, fun hu => ?_⟩
  · obtain ⟨hget, w, -, hw⟩ := getFrom_eq_getAt hn
    obtain ⟨hassign, hat⟩ := assignFrom_eq_assignAt hn v
    have ho := Heap.overwrites_define hn.binds v
    exact ⟨⟨w, hget.trans hw, hw⟩, _, hassign.trans hat, hat, ho,
      fun e x hx => ho.get?_eq hn.binds hx, fun e k x hx => ho.getAt_eq hx⟩
  · obtain ⟨hget, hassign⟩ := undefined_of_unboundFrom hu v
    exact ⟨⟨.undefinedVariable name.lexeme, name.line⟩, rfl, rfl, hget, hassign⟩

/-- A name that is bound one frame further out, and one that is bound nowhere. -/
theorem walk_agrees_with_jump_outer :
    let m : Machine :=
      let outer := (start (fun _ => 0) none).defineGlobal "x" .nil
      { outer with heap := (outer.heap.newFrame (some globals) .empty).2, frame := ⟨1⟩ }
    let x : Token := ⟨.identifier, "x", 1⟩
    let y : Token := ⟨.identifier, "y", 2⟩
    m.heap.NearestAt m.frame x.lexeme 1 globals ∧
      (∃ w, getFrom m.frame x m = .ok w m ∧ getAt 1 x.lexeme m = .ok w m) ∧
      (∃ h', assignFrom m.frame x (.bool true) m = .ok () { m with heap := h' } ∧
        assignAt 1 x.lexeme (.bool true) m = .ok () { m with heap := h' }) ∧
      m.heap.UnboundFrom m.frame y.lexeme ∧
      ∃ error : RuntimeError, error.cause.message = "Undefined variable 'y'." ∧ error.line = 2 ∧
        getFrom m.frame y m = .error (.error error) m := by
  intro m x y
  have hx : m.heap.NearestAt m.frame x.lexeme 1 globals :=
    .link (q := globals) (by decide) (by decide) (.here (by decide))
  have hy : m.heap.UnboundFrom m.frame y.lexeme := by
    have hlink : m.heap.enclosing? m.frame = some globals := by decide
    have hend : m.heap.enclosing? globals = none := by decide
    rintro k q (_ | ⟨hq, hout⟩)
    · decide
    obtain rfl := Option.some.inj (hlink.symm.trans hq)
    rcases hout with _ | ⟨hq, -⟩
    · decide
    · cases hend.symm.trans hq
  obtain ⟨hget, h', hassign, hat, -⟩ := (walk_agrees_with_jump m x (.bool true)).1 1 globals hx
  obtain ⟨error, hmessage, hline, herror, -⟩ := (walk_agrees_with_jump m y .nil).2 hy
  exact ⟨hx, hget, ⟨h', hassign, hat⟩, hy, error, hmessage, hline, herror⟩

/-- From a frame that binds the name itself, a jump sees what is written further out, though a walk
from there does not. -/
theorem jump_passes_nearest :
    let outer := (Heap.empty.newFrame none (Bindings.empty.insert "x" .nil)).2
    let h := (outer.newFrame (some ⟨0⟩) (Bindings.empty.insert "x" (.bool false))).2
    let h' := h.define ⟨0⟩ "x" (.bool true)
    h.NearestAt ⟨0⟩ "x" 0 ⟨0⟩ ∧ h.assign? ⟨0⟩ "x" (.bool true) = some h' ∧
      h.assignAt ⟨0⟩ 0 "x" (.bool true) = .ok h' ∧ h.NearestAt ⟨1⟩ "x" 0 ⟨1⟩ ∧
      h.getAt ⟨1⟩ 1 "x" = .ok .nil ∧ h'.getAt ⟨1⟩ 1 "x" = .ok (.bool true) := by
  intro outer h h'
  have hassign : h.assign? ⟨0⟩ "x" (.bool true) = some h' := by
    rw [Heap.assign?, Heap.holder?_self (by decide), Option.map_some]
  exact ⟨.here (by decide), hassign, rfl, .here (by decide), by decide, by decide⟩

end Machine

end Lox

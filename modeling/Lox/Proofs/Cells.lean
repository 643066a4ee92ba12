import Mathlib.Data.List.Basic
import Mathlib.Data.List.Nodup
import Lox.Proofs.Lexical
import Lox.Proofs.Scoping

/-!
# Frames and cells

What ties a machine with distances to one that looks names up. For each frame, a world has the names
declared in it so far with their cells. A frame may bind a name before it is declared, or not yet, but
a declared name is bound in its frame to what its cell holds. A chain of frames stands for a list of
cells (`Stands`) when the list is made of parts of what the frames on the chain have declared: a
closure keeps the part that was there when it was made, whatever its frame declares later.
-/

namespace Lox

/-- A store whose only frame is the global one. -/
def Heap.withoutLocals (h : Heap) : Heap :=
  { h with
    frames := #[h.frame Machine.globals]
    closures := h.closures.map fun f => { f with frame := Machine.globals } }

def Machine.withoutLocals (m : Machine) : Machine :=
  { m with heap := m.heap.withoutLocals, frame := globals, distances := ∅ }

namespace Heap

theorem closure_withoutLocals (h : Heap) (f : ClosureId) :
    h.withoutLocals.closure f = { h.closure f with frame := Machine.globals } := by
  by_cases hf : f.index < h.closures.size <;> simp [closure, withoutLocals, hf, Machine.globals]

@[simp] theorem instanceAt_withoutLocals (h : Heap) (o : InstanceId) :
    h.withoutLocals.instanceAt o = h.instanceAt o := rfl

@[simp] theorem native_withoutLocals (h : Heap) (n : NativeId) :
    h.withoutLocals.native n = h.native n := rfl

@[simp] theorem field?_withoutLocals (h : Heap) (o : InstanceId) (name : String) :
    h.withoutLocals.field? o name = h.field? o name := rfl

@[simp] theorem findMethod?_withoutLocals (h : Heap) (c : ClassId) (name : String) :
    h.withoutLocals.findMethod? c name = h.findMethod? c name :=
  findMethod?_congr (show h.withoutLocals.classes = h.classes from rfl) c name

@[simp] theorem arity?_withoutLocals (h : Heap) (v : Value) :
    h.withoutLocals.arity? v = h.arity? v := by
  cases v with
  | function f => simp [arity?, closure_withoutLocals]
  | «class» c =>
    simp only [arity?, classArity, method?, findMethod?_withoutLocals]
    cases h.findMethod? c initializerName <;> simp [closure_withoutLocals]
  | _ => rfl

@[simp] theorem display_withoutLocals (h : Heap) (v : Value) :
    h.withoutLocals.display v = h.display v := by
  cases v with
  | function f => simp [display, closure_withoutLocals]
  | _ => rfl

@[simp] theorem local?_withoutLocals (h : Heap) (name : String) :
    h.withoutLocals.local? Machine.globals name = h.local? Machine.globals name := rfl

theorem withoutLocals_eq {h h' : Heap} (hf : h'.frame Machine.globals = h.frame Machine.globals)
    (hc : h'.closures = h.closures) (hk : h'.classes = h.classes)
    (hi : h'.instances = h.instances) (hn : h'.natives = h.natives) :
    h'.withoutLocals = h.withoutLocals := by
  simp [withoutLocals, hf, hc, hk, hi, hn]

theorem withoutLocals_define {h : Heap} (hh : 0 < h.frames.size) (name : String) (v : Value) :
    (h.define Machine.globals name v).withoutLocals =
      h.withoutLocals.define Machine.globals name v := by
  simp [withoutLocals, frame_define, Machine.globals, hh]
  simp [define]

theorem withoutLocals_define_of_ne {h : Heap} {e : FrameId} (he : e ≠ Machine.globals)
    (name : String) (v : Value) : (h.define e name v).withoutLocals = h.withoutLocals :=
  withoutLocals_eq (by simp [frame_define, he]) rfl rfl rfl rfl

theorem withoutLocals_newFrame {h : Heap} (hh : 0 < h.frames.size) (enclosing : Option FrameId)
    (b : Bindings Value) : (h.newFrame enclosing b).2.withoutLocals = h.withoutLocals :=
  withoutLocals_eq (frame_newFrame_of_lt h enclosing b hh) rfl rfl rfl rfl

theorem withoutLocals_newClosure (h : Heap) (f : Closure) :
    (h.newClosure f).2.withoutLocals =
      (h.withoutLocals.newClosure { f with frame := Machine.globals }).2 := by
  simp [withoutLocals, newClosure]
  rfl

theorem local?_define_of_ne (h : Heap) (e p : FrameId) {x y : String} (v : Value) (hxy : x ≠ y) :
    (h.define e x v).local? p y = h.local? p y := by
  unfold local?
  rw [frame_define]
  split
  · exact Bindings.find?_insert_ne _ v hxy
  · rfl

end Heap

namespace Lexical

/-- The names declared so far in each frame with their cells, the latest first. -/
abbrev World := FrameId → Locals

/-- A chain of frames and the list of cells that the scopes of a place make of it. -/
inductive Stands (h : Heap) (w : World) : FrameId → Scopes → Locals → Prop
  | globals : Stands h w Machine.globals [] []
  | inside {e outer : FrameId} {scopes : Scopes} {own locals : Locals} :
      own <:+ w e → h.enclosing? e = some outer → Stands h w outer scopes locals →
      Stands h w e (own.map Prod.fst :: scopes) (own ++ locals)

theorem isSome_lookup {α : Type} {pairs : List (String × α)} {name : String} :
    (pairs.lookup name).isSome ↔ name ∈ pairs.map Prod.fst := by
  induction pairs with
  | nil => simp
  | cons a pairs ih =>
    obtain ⟨x, c⟩ := a
    by_cases h : name = x
    · simp [h]
    · have : (name == x) = false := by simpa using h
      simp [h, List.lookup_cons, this, ih]

theorem lookup_eq_none {α : Type} {pairs : List (String × α)} {name : String}
    (h : name ∉ pairs.map Prod.fst) : pairs.lookup name = none :=
  Option.not_isSome_iff_eq_none.1 (mt isSome_lookup.1 h)

theorem mem_of_lookup {α : Type} {pairs : List (String × α)} {name : String} {a : α}
    (h : pairs.lookup name = some a) : (name, a) ∈ pairs := by
  obtain ⟨l₁, l₂, rfl, -⟩ := List.lookup_eq_some_iff.1 h
  simp

theorem lookup_of_mem {α : Type} {pairs : List (String × α)}
    (hn : (pairs.map Prod.fst).Nodup) {name : String} {a : α} (h : (name, a) ∈ pairs) :
    pairs.lookup name = some a := by
  induction pairs with
  | nil => cases h
  | cons p pairs ih =>
    obtain ⟨x, b⟩ := p
    simp only [List.map_cons, List.nodup_cons] at hn
    rcases List.mem_cons.1 h with he | hm
    · cases he
      simp
    · have : name ≠ x := fun he => hn.1 (he ▸ List.mem_map_of_mem hm)
      have : (name == x) = false := by simpa using this
      rw [List.lookup_cons, this]
      exact ih hn.2 hm

/-- A distance leads to the frame that declared the name, and the list has its cell. -/
theorem Stands.find {h : Heap} {w : World} {e : FrameId} {scopes : Scopes} {locals : Locals}
    (hs : Stands h w e scopes locals) {name : String} {d : Nat}
    (hd : scopes.distance? name = some d) :
    ∃ p c, h.ancestor? e d = some p ∧ (name, c) ∈ w p ∧ locals.lookup name = some c := by
  induction hs generalizing d with
  | globals => simp at hd
  | @inside e outer scopes own locals hown he hs ih =>
    rw [Scopes.distance?_cons] at hd
    split at hd
    · next hm =>
      cases hd
      obtain ⟨c, hc⟩ := Option.isSome_iff_exists.1 (isSome_lookup.2 hm)
      exact ⟨e, c, rfl, hown.subset (mem_of_lookup hc), by simp [List.lookup_append, hc]⟩
    · next hm =>
      obtain ⟨d', hd', rfl⟩ := Option.map_eq_some_iff.1 hd
      obtain ⟨p, c, hp, hc, hl⟩ := ih hd'
      have := lookup_eq_none hm
      exact ⟨p, c, by simp [Heap.ancestor?, he, hp], hc, by simp [List.lookup_append, this, hl]⟩

theorem Stands.lookup_none {h : Heap} {w : World} {e : FrameId} {scopes : Scopes}
    {locals : Locals} (hs : Stands h w e scopes locals) {name : String}
    (hd : scopes.distance? name = none) : locals.lookup name = none := by
  induction hs with
  | globals => rfl
  | @inside e outer scopes own locals hown he hs ih =>
    rw [Scopes.distance?_cons] at hd
    split at hd
    · cases hd
    · next hm =>
      have := lookup_eq_none hm
      simp [List.lookup_append, this, ih (by simpa using hd)]

theorem Stands.lt {h : Heap} {w : World} {e : FrameId} {scopes : Scopes} {locals : Locals}
    (hs : Stands h w e scopes locals) (hh : 0 < h.frames.size) : e.index < h.frames.size := by
  cases hs with
  | globals => exact hh
  | inside _ he _ => exact Heap.lt_of_enclosing? he

end Lexical

end Lox

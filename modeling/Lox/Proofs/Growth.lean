import Mathlib.Logic.Relation
import Mathlib.Order.WellFounded
import Lox.Proofs.Evolution
import Lox.Proofs.Objects

/-!
# How the store grows

Nothing that is in the store ever leaves it. A frame keeps its link and its names, an instance
keeps its class and its fields, and classes and closures stay as they were made: only what a name
or a field holds is overwritten. Links lead from newer objects to older ones, and so they all come
to an end, those of frames at the globals.
-/

namespace Lox

theorem Bindings.isSome_insert {b : Bindings Value} {y : String} (x : String) (v : Value)
    (hy : (b.find? y).isSome) : ((b.insert x v).find? y).isSome := by
  rw [find?_insert]
  split
  · rfl
  · exact hy

/-- All that is in the first store is in the second one, though names and fields may hold other
values there. -/
structure Heap.Grows (h h' : Heap) : Prop where
  frames : h.frames.size ≤ h'.frames.size
  enclosing : ∀ e, e.index < h.frames.size → (h'.frame e).enclosing = (h.frame e).enclosing
  names : ∀ e x, (h.local? e x).isSome → (h'.local? e x).isSome
  instances : h.instances.size ≤ h'.instances.size
  classId : ∀ o, o.index < h.instances.size →
    (h'.instanceAt o).classId = (h.instanceAt o).classId
  fields : ∀ o x, (h.field? o x).isSome → (h'.field? o x).isSome
  classes : h.classes.size ≤ h'.classes.size
  classAt : ∀ c, c.index < h.classes.size → h'.classAt c = h.classAt c
  closures : h.closures.size ≤ h'.closures.size
  closure : ∀ f, f.index < h.closures.size → h'.closure f = h.closure f

/-- From every frame the links lead to the globals, and no class is above itself. -/
structure Heap.Rooted (h : Heap) : Prop where
  outermost : (h.frame Machine.globals).enclosing = none
  frame : ∀ e, e.index < h.frames.size →
    Relation.ReflTransGen (fun e p => (h.frame e).enclosing = some p) e Machine.globals
  superclass : WellFounded fun s c => (h.classAt c).superclass = some s

/-- Frames and classes link to older ones, and closures stand in frames that are there. -/
structure Heap.Ordered (h : Heap) : Prop where
  globals : 0 < h.frames.size
  outermost : (h.frame Machine.globals).enclosing = none
  enclosing : ∀ e, e.index < h.frames.size → e ≠ Machine.globals →
    ∃ p, (h.frame e).enclosing = some p ∧ p.index < e.index
  closure : ∀ f, (h.closure f).frame.index < h.frames.size
  superclass : ∀ c s, (h.classAt c).superclass = some s → s.index < c.index

namespace Heap

variable {h h' h'' : Heap}

namespace Grows

theorem refl (h : Heap) : h.Grows h where
  frames := le_rfl
  enclosing _ _ := rfl
  names _ _ hx := hx
  instances := le_rfl
  classId _ _ := rfl
  fields _ _ hx := hx
  classes := le_rfl
  classAt _ _ := rfl
  closures := le_rfl
  closure _ _ := rfl

theorem trans (g : h.Grows h') (g' : h'.Grows h'') : h.Grows h'' where
  frames := g.frames.trans g'.frames
  enclosing e he := (g'.enclosing e (he.trans_le g.frames)).trans (g.enclosing e he)
  names e x hx := g'.names e x (g.names e x hx)
  instances := g.instances.trans g'.instances
  classId o ho := (g'.classId o (ho.trans_le g.instances)).trans (g.classId o ho)
  fields o x hx := g'.fields o x (g.fields o x hx)
  classes := g.classes.trans g'.classes
  classAt c hc := (g'.classAt c (hc.trans_le g.classes)).trans (g.classAt c hc)
  closures := g.closures.trans g'.closures
  closure f hf := (g'.closure f (hf.trans_le g.closures)).trans (g.closure f hf)

theorem enclosing?_eq (g : h.Grows h') {e p : FrameId} (he : h.enclosing? e = some p) :
    h'.enclosing? e = some p := by
  have hlink := g.enclosing e (lt_of_enclosing? he)
  unfold enclosing? at he ⊢
  rwa [hlink]

end Grows

namespace Ordered

/-- A chain of links goes to ever older objects. -/
theorem rooted (ho : h.Ordered) : h.Rooted where
  outermost := ho.outermost
  frame e he := by
    induction hn : e.index using Nat.strong_induction_on generalizing e with
    | _ n ih =>
      by_cases hg : e = Machine.globals
      · rw [hg]
      · obtain ⟨p, hp, hlt⟩ := ho.enclosing e he hg
        exact .head hp (ih p.index (hn ▸ hlt) p (hlt.trans he) rfl)
  superclass :=
    Subrelation.wf (ho.superclass _ _) (InvImage.wf ClassId.index Nat.lt_wfRel.wf)

end Ordered

/-! ### Frames -/

section Frames

variable (e : FrameId) (x : String) (v : Value) (outer : FrameId) (b : Bindings Value)

theorem grows_define : h.Grows (h.define e x v) :=
  { Grows.refl h with
    frames := (size_frames_define h e x v).ge
    enclosing := fun p _ => by
      rw [frame_define]
      split <;> rfl
    names := fun p y hy => by
      unfold local? at hy ⊢
      rw [frame_define]
      split
      · exact Bindings.isSome_insert x v hy
      · exact hy }

theorem Ordered.define (ho : h.Ordered) : (h.define e x v).Ordered := by
  have hlink : ∀ p, ((h.define e x v).frame p).enclosing = (h.frame p).enclosing := fun p => by
    rw [frame_define]
    split <;> rfl
  refine ⟨?_, ?_, fun p hp hg => ?_, fun f => ?_, ho.superclass⟩
  · rw [size_frames_define]
    exact ho.globals
  · rw [hlink]
    exact ho.outermost
  · rw [size_frames_define] at hp
    rw [hlink]
    exact ho.enclosing p hp hg
  · rw [size_frames_define]
    exact ho.closure f

theorem grows_newFrame (outer : Option FrameId) : h.Grows (h.newFrame outer b).2 :=
  { Grows.refl h with
    frames := by simp [newFrame]
    enclosing := fun e he => by rw [frame_newFrame_of_lt h outer b he]
    names := fun e x hx => by
      rw [local?_newFrame_of_lt h outer b (lt_of_local? hx)]
      exact hx }

theorem Ordered.newFrame (ho : h.Ordered) (hf : outer.index < h.frames.size) :
    (h.newFrame (some outer) b).2.Ordered := by
  have hsize : (h.newFrame (some outer) b).2.frames.size = h.frames.size + 1 := by
    simp [Heap.newFrame]
  refine ⟨by omega, ?_, fun p hp hg => ?_, fun f => ?_, ho.superclass⟩
  · rw [frame_newFrame_of_lt (p := Machine.globals) h _ b ho.globals]
    exact ho.outermost
  · rcases Nat.lt_succ_iff_lt_or_eq.1 (hsize ▸ hp) with hp | hp
    · rw [frame_newFrame_of_lt h _ b hp]
      exact ho.enclosing p hp hg
    · obtain rfl : p = (h.newFrame (some outer) b).1 := congrArg FrameId.mk hp
      exact ⟨outer, congrArg Frame.enclosing (frame_newFrame h (some outer) b), hf⟩
  · have := ho.closure f
    exact hsize ▸ this.trans (Nat.lt_succ_self _)

end Frames

/-! ### Closures and classes -/

/-- New closures behind the old ones. -/
def addClosures (h : Heap) (fs : Array Closure) : Heap := { h with closures := h.closures ++ fs }

theorem newClosure_eq (h : Heap) (f : Closure) : (h.newClosure f).2 = h.addClosures #[f] := by
  simp [newClosure, addClosures]

theorem closure_addClosures_of_lt (fs : Array Closure) {f : ClosureId}
    (hf : f.index < h.closures.size) : (h.addClosures fs).closure f = h.closure f := by
  have : f.index < h.closures.size + fs.size := by omega
  simp [addClosures, closure, Array.getElem_append_left, hf, this]

theorem closure_addClosures (fs : Array Closure) {i : Nat} (hi : i < fs.size) :
    (h.addClosures fs).closure ⟨h.closures.size + i⟩ = fs[i] := by
  simp [addClosures, closure, hi]

theorem grows_addClosures (fs : Array Closure) : h.Grows (h.addClosures fs) :=
  { Grows.refl h with
    closures := by simp [addClosures]
    closure := fun _ hf => closure_addClosures_of_lt fs hf }

theorem Ordered.addClosures (ho : h.Ordered) {fs : Array Closure}
    (hfs : ∀ f ∈ fs, f.frame.index < h.frames.size) : (h.addClosures fs).Ordered := by
  refine ⟨ho.globals, ho.outermost, ho.enclosing, fun f => ?_, ho.superclass⟩
  rcases Nat.lt_or_ge f.index h.closures.size with hf | hf
  · rw [closure_addClosures_of_lt fs hf]
    exact ho.closure f
  · obtain ⟨i, hi⟩ := Nat.exists_eq_add_of_le hf
    obtain rfl : f = ⟨h.closures.size + i⟩ := by rw [← hi]
    rcases Nat.lt_or_ge i fs.size with hlt | hge
    · rw [closure_addClosures fs hlt]
      exact hfs _ (Array.getElem_mem hlt)
    · -- no closure is there, and what stands for it is in the globals
      have hnone : ¬ h.closures.size + i < h.closures.size + fs.size := by omega
      simpa [Heap.addClosures, Heap.closure, hnone] using ho.globals

theorem classAt_newClass_of_lt (k : Class) {c : ClassId} (hc : c.index < h.classes.size) :
    (h.newClass k).2.classAt c = h.classAt c := by
  have : c.index < h.classes.size + 1 := by omega
  simp [newClass, classAt, hc, this, Array.getElem_push]

theorem classAt_newClass (k : Class) : (h.newClass k).2.classAt ⟨h.classes.size⟩ = k := by
  simp [newClass, classAt]

theorem grows_newClass (k : Class) : h.Grows (h.newClass k).2 :=
  { Grows.refl h with
    classes := by simp [newClass]
    classAt := fun _ hc => classAt_newClass_of_lt k hc }

theorem Ordered.newClass (ho : h.Ordered) {k : Class}
    (hk : ∀ s, k.superclass = some s → s.index < h.classes.size) : (h.newClass k).2.Ordered := by
  refine ⟨ho.globals, ho.outermost, ho.enclosing, ho.closure, fun c s hs => ?_⟩
  rcases Nat.lt_trichotomy c.index h.classes.size with hc | hc | hc
  · rw [classAt_newClass_of_lt k hc] at hs
    exact ho.superclass c s hs
  · obtain rfl : c = ⟨h.classes.size⟩ := congrArg ClassId.mk hc
    rw [classAt_newClass] at hs
    exact hk s hs
  · have hnone : ¬ c.index < h.classes.size + 1 := by omega
    simp [Heap.newClass, classAt, hnone] at hs

/-! ### Instances -/

theorem grows_newInstance (c : ClassId) : h.Grows (h.newInstance c).2 :=
  { Grows.refl h with
    instances := by simp [newInstance]
    classId := fun o ho => by
      have : o.index < h.instances.size + 1 := by omega
      simp [newInstance, instanceAt, ho, this, Array.getElem_push]
    fields := fun o x hx => by rwa [field?_newInstance] }

theorem instanceAt_setField (o p : InstanceId) (x : String) (v : Value) :
    (h.setField o x v).instanceAt p =
      if o = p ∧ p.index < h.instances.size then
        { h.instanceAt p with fields := (h.instanceAt p).fields.insert x v }
      else h.instanceAt p := by
  by_cases hp : p.index < h.instances.size
  · by_cases ho : o = p
    · simp [instanceAt, setField, Array.getElem_modify, hp, ho]
    · have : o.index ≠ p.index := fun h => ho (by cases o; cases p; simp_all)
      simp [instanceAt, setField, Array.getElem_modify, hp, ho, this]
  · simp [instanceAt, setField, hp]

/-- A field that is set is read back, and no other field has changed. -/
theorem field?_setField_eq {o : InstanceId} (ho : o.index < h.instances.size) (p : InstanceId)
    (x y : String) (v : Value) :
    (h.setField o x v).field? p y = if o = p ∧ x = y then some v else h.field? p y := by
  unfold field?
  rw [instanceAt_setField]
  by_cases hp : o = p
  · subst hp
    simp [ho, Bindings.find?_insert]
  · simp [hp]

theorem grows_setField (o : InstanceId) (x : String) (v : Value) : h.Grows (h.setField o x v) :=
  { Grows.refl h with
    instances := by simp [setField]
    classId := fun p _ => by
      rw [instanceAt_setField]
      split <;> rfl
    fields := fun p y hy => by
      unfold field? at hy ⊢
      rw [instanceAt_setField]
      split
      · exact Bindings.isSome_insert x v hy
      · exact hy }

/-- Instances have no links of their own, and natives none at all. -/
theorem Ordered.congr (ho : h.Ordered) (hf : h'.frames = h.frames) (hc : h'.closures = h.closures)
    (hk : h'.classes = h.classes) : h'.Ordered := by
  obtain ⟨frames, closures, classes, instances, natives⟩ := h
  obtain ⟨frames', closures', classes', instances', natives'⟩ := h'
  obtain rfl : frames' = frames := hf
  obtain rfl : closures' = closures := hc
  obtain rfl : classes' = classes := hk
  exact ⟨ho.globals, ho.outermost, ho.enclosing, ho.closure, ho.superclass⟩

theorem grows_newNative (n : Native) : h.Grows (h.newNative n).2 :=
  { Grows.refl h with }

end Heap

/-! ### What running code does -/

namespace Machine

variable {m m' : Machine}

theorem Change.grows (h : m.Change m') : m.heap.Grows m'.heap := by
  cases h with
  | bind e x v => exact Heap.grows_define e x v
  | newFrame outer b => exact Heap.grows_newFrame b (some outer)
  | newClosure f => exact Heap.newClosure_eq m.heap f ▸ Heap.grows_addClosures #[f]
  | newClass k => exact Heap.grows_newClass k
  | newInstance c => exact Heap.grows_newInstance c
  | setField o x v => exact Heap.grows_setField o x v
  | print | readClock => exact .refl _

theorem Evolves.grows (h : m.Evolves m') : m.heap.Grows m'.heap := by
  induction h with
  | refl => exact .refl _
  | tail _ h ih => exact ih.trans h.grows

end Machine

end Lox

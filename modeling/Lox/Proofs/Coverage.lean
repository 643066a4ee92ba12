import Lox.Proofs.Growth
import Lox.Proofs.Scoping

/-!
# Frames that cover their scopes

The chain of frames that a piece of code runs in has a frame for each scope around its place, and
each binds what its scope has declared. So where a name has a distance, the frame that far out
binds it, but for a variable whose own initializer is running. Links and names stay as the store
grows, and so what covered its scopes once goes on covering them.
-/

namespace Lox

/-- From the frame outward, each frame binds the names of its scope. -/
inductive Covers (h : Heap) : FrameId → Scopes → Prop
  | globals : Covers h Machine.globals []
  | inside {e p : FrameId} {names : List String} {scopes : Scopes} :
      (∀ x ∈ names, (h.local? e x).isSome) → h.enclosing? e = some p → Covers h p scopes →
      Covers h e (names :: scopes)

/-- They do so, but for the variable that has no value yet. -/
inductive CoversBut (h : Heap) (e : FrameId) : Scopes → Option String → Prop
  | nothing {scopes : Scopes} : Covers h e scopes → CoversBut h e scopes none
  | pending {x : String} {names : List String} {outer : Scopes} :
      Covers h e (names :: outer) → CoversBut h e ((x :: names) :: outer) (some x)

variable {h h' : Heap} {e : FrameId} {scopes : Scopes}

namespace Covers

theorem grow (hc : Covers h e scopes) (g : h.Grows h') : Covers h' e scopes := by
  induction hc with
  | globals => exact .globals
  | inside hn he _ ih => exact .inside (fun x hx => g.names _ x (hn x hx)) (g.enclosing?_eq he) ih

theorem lt (hc : Covers h e scopes) (ho : h.Ordered) : e.index < h.frames.size := by
  cases hc with
  | globals => exact ho.globals
  | inside _ he _ => exact Heap.lt_of_enclosing? he

/-- The distance of a name leads to a frame that binds it. -/
theorem bound (hc : Covers h e scopes) {x : String} {d : Nat} (hd : scopes.distance? x = some d) :
    ∃ p, h.ancestor? e d = some p ∧ (h.local? p x).isSome := by
  induction hc generalizing d with
  | globals => simp at hd
  | @inside e p names scopes hn he _ ih =>
    rw [Scopes.distance?_cons] at hd
    split at hd
    · next hx =>
      cases hd
      exact ⟨e, rfl, hn x hx⟩
    · obtain ⟨d, hd', rfl⟩ := Option.map_eq_some_iff.1 hd
      obtain ⟨q, hq, hx⟩ := ih hd'
      exact ⟨q, by simp [Heap.ancestor?, he, hq], hx⟩

theorem declare (hc : Covers h e scopes) {x : String} (hx : (h.local? e x).isSome) :
    Covers h e (scopes.declare x) := by
  cases hc with
  | globals => exact .globals
  | inside hn he hc =>
    refine .inside (fun y hy => ?_) he hc
    rcases List.mem_cons.1 hy with rfl | hy
    · exact hx
    · exact hn y hy

theorem bound_define (hc : Covers h e scopes) (ho : h.Ordered) (x : String) (v : Value) :
    ((h.define e x v).local? e x).isSome := by
  simp [Heap.local?_define h (hc.lt ho)]

theorem define (hc : Covers h e scopes) (ho : h.Ordered) (x : String) (v : Value) :
    Covers (h.define e x v) e (scopes.declare x) :=
  (hc.grow (Heap.grows_define e x v)).declare (hc.bound_define ho x v)

/-- A new frame inside one that covers its scopes. -/
theorem newFrame {b : Bindings Value} {names : List String} (hc : Covers h e scopes)
    (ho : h.Ordered) (hb : ∀ x ∈ names, (b.find? x).isSome) :
    Covers (h.newFrame (some e) b).2 (h.newFrame (some e) b).1 (names :: scopes) := by
  refine .inside (fun x hx => ?_) (h.enclosing?_newFrame b (hc.lt ho)) (hc.grow ?_)
  · rw [Heap.local?_newFrame]
    exact hb x hx
  · exact Heap.grows_newFrame b (some e)

end Covers

namespace CoversBut

variable {pending : Option String}

theorem grow (hc : CoversBut h e scopes pending) (g : h.Grows h') :
    CoversBut h' e scopes pending := by
  cases hc with
  | nothing hc => exact .nothing (hc.grow g)
  | pending hc => exact .pending (hc.grow g)

/-- The place of an initializer: its variable has no value yet. -/
theorem initializer (hc : Covers h e scopes) (x : String) :
    CoversBut h e (scopes.declare x) (scopes.pending x) := by
  cases hc with
  | globals => exact .nothing .globals
  | inside hn he hc => exact .pending (.inside hn he hc)

/-- The distance of a name leads to a frame that binds it, or to the variable that has no value
yet. -/
theorem bound (hc : CoversBut h e scopes pending) {x : String} {d : Nat}
    (hd : scopes.distance? x = some d) :
    ∃ p, h.ancestor? e d = some p ∧ ((h.local? p x).isSome ∨ d = 0 ∧ pending = some x) := by
  cases hc with
  | nothing hc =>
    obtain ⟨p, hp, hx⟩ := hc.bound hd
    exact ⟨p, hp, .inl hx⟩
  | @pending y names outer hc =>
    by_cases hxy : x = y
    · subst hxy
      obtain rfl : 0 = d := by simpa [Scopes.distance?_cons] using hd
      exact ⟨e, rfl, .inr ⟨rfl, rfl⟩⟩
    · have hd' : Scopes.distance? (names :: outer) x = some d := by
        simpa [Scopes.distance?_cons, hxy] using hd
      obtain ⟨p, hp, hx⟩ := hc.bound hd'
      exact ⟨p, hp, .inl hx⟩

end CoversBut

/-! ### What is held -/

section

variable (far : NodeId → Option Nat → Prop)

/-- A closure whose frame covers the scopes that its code stands in. -/
def Enclosed (h : Heap) (f : Closure) : Prop :=
  ∃ scopes, Covers h f.frame scopes ∧ f.decl.Scoped far scopes

/-- A closure that is enclosed once it is bound to an instance. -/
def Waiting (h : Heap) (f : Closure) : Prop :=
  ∃ scopes, Covers h f.frame scopes ∧ f.decl.Scoped far (["this"] :: scopes)

namespace Heap

/-- The object is there, and a function is enclosed. -/
def Holds (h : Heap) : Value → Prop
  | .function f => f.index < h.closures.size ∧ Enclosed far h (h.closure f)
  | .class c => c.index < h.classes.size
  | .instance o => o.index < h.instances.size
  | _ => True

def HoldsMethod (h : Heap) (f : ClosureId) : Prop :=
  f.index < h.closures.size ∧ Waiting far h (h.closure f)

/-- Links lead to older objects, and so it stands with all that is in the store. -/
structure Sound (h : Heap) : Prop where
  ordered : h.Ordered
  locals : ∀ {e x v}, h.local? e x = some v → h.Holds far v
  fields : ∀ {o x v}, h.field? o x = some v → h.Holds far v
  methods : ∀ {c x f}, (h.classAt c).methods.find? x = some f → h.HoldsMethod far f

end Heap

end

variable {far far' : NodeId → Option Nat → Prop}

theorem Enclosed.grow {f : Closure} (hf : Enclosed far h f) (g : h.Grows h') :
    Enclosed far h' f := by
  obtain ⟨scopes, hc, hs⟩ := hf
  exact ⟨scopes, hc.grow g, hs⟩

theorem Waiting.grow {f : Closure} (hf : Waiting far h f) (g : h.Grows h') : Waiting far h' f := by
  obtain ⟨scopes, hc, hs⟩ := hf
  exact ⟨scopes, hc.grow g, hs⟩

namespace Heap

theorem holds_nil (h : Heap) : h.Holds far .nil := trivial

theorem Holds.grow {v : Value} (hv : h.Holds far v) (g : h.Grows h') : h'.Holds far v := by
  cases v with
  | function f =>
    refine ⟨hv.1.trans_le g.closures, ?_⟩
    rw [g.closure f hv.1]
    exact hv.2.grow g
  | «class» c => exact lt_of_lt_of_le hv g.classes
  | «instance» o => exact lt_of_lt_of_le hv g.instances
  | _ => trivial

theorem HoldsMethod.grow {f : ClosureId} (hf : h.HoldsMethod far f) (g : h.Grows h') :
    h'.HoldsMethod far f := by
  refine ⟨hf.1.trans_le g.closures, ?_⟩
  rw [g.closure f hf.1]
  exact hf.2.grow g

/-- Distances that are found in one table are found in a larger one. -/
theorem Holds.mono (hfar : ∀ id d, far id d → far' id d) {v : Value} (hv : h.Holds far v) :
    h.Holds far' v := by
  cases v with
  | function f =>
    obtain ⟨hlt, scopes, hc, hs⟩ := hv
    exact ⟨hlt, scopes, hc, FunDecl.Scoped.mono hfar _ hs⟩
  | _ => exact hv

theorem Sound.mono (hs : h.Sound far) (hfar : ∀ id d, far id d → far' id d) : h.Sound far' where
  ordered := hs.ordered
  locals hv := (hs.locals hv).mono hfar
  fields hv := (hs.fields hv).mono hfar
  methods hf := by
    obtain ⟨hlt, scopes, hc, hd⟩ := hs.methods hf
    exact ⟨hlt, scopes, hc, FunDecl.Scoped.mono hfar _ hd⟩

namespace Sound

theorem method_of_findMethod? (hs : h.Sound far) {c : ClassId} {x : String} {f : ClosureId}
    (hf : h.findMethod? c x = some f) : h.HoldsMethod far f := by
  fun_induction h.findMethod? c x with
  | case1 c g hg =>
    cases hf
    exact hs.methods hg
  | case2 => cases hf
  | case3 c hg s hs' _ ih => exact ih hf

/-! ### Steps -/

/-- What was there is held in a store that has grown, and so all is held once the new things are. -/
theorem step (hs : h.Sound far) (g : h.Grows h') (ho : h'.Ordered)
    (hlocals : ∀ {e x v}, h'.local? e x = some v → h.local? e x = some v ∨ h'.Holds far v)
    (hfields : ∀ {o x v}, h'.field? o x = some v → h.field? o x = some v ∨ h'.Holds far v)
    (hmethods : ∀ {c x f}, (h'.classAt c).methods.find? x = some f →
      (h.classAt c).methods.find? x = some f ∨ h'.HoldsMethod far f) : h'.Sound far where
  ordered := ho
  locals hv := (hlocals hv).elim (fun hv => (hs.locals hv).grow g) id
  fields hv := (hfields hv).elim (fun hv => (hs.fields hv).grow g) id
  methods hf := (hmethods hf).elim (fun hf => (hs.methods hf).grow g) id

theorem define (hs : h.Sound far) (e : FrameId) (x : String) {v : Value}
    (hv : (h.define e x v).Holds far v) : (h.define e x v).Sound far := by
  refine hs.step (grows_define e x v) (hs.ordered.define e x v) (fun {p y w} hw => ?_) .inl .inl
  rw [local?, frame_define] at hw
  split at hw
  · rw [Bindings.find?_insert] at hw
    split at hw
    · cases hw
      exact .inr hv
    · exact .inl hw
  · exact .inl hw

theorem newFrame (hs : h.Sound far) {outer : FrameId} (ho : outer.index < h.frames.size)
    {b : Bindings Value} (hb : ∀ x v, b.find? x = some v → h.Holds far v) :
    (h.newFrame (some outer) b).2.Sound far := by
  have g := grows_newFrame (h := h) b (some outer)
  refine hs.step g (hs.ordered.newFrame outer b ho) (fun {e x v} hv => ?_) .inl .inl
  rcases Nat.lt_trichotomy e.index h.frames.size with hlt | heq | hgt
  · exact .inl ((local?_newFrame_of_lt h _ b hlt x).symm.trans hv)
  · obtain rfl : e = (h.newFrame (some outer) b).1 := congrArg FrameId.mk heq
    rw [local?_newFrame] at hv
    exact .inr ((hb x v hv).grow g)
  · have hge : (h.newFrame (some outer) b).2.frames.size ≤ e.index := by
      simp only [Heap.newFrame, Array.size_push]
      omega
    rw [local?_of_le _ hge] at hv
    cases hv

theorem addClosures (hs : h.Sound far) {fs : Array Closure}
    (hfs : ∀ f ∈ fs, f.frame.index < h.frames.size) : (h.addClosures fs).Sound far :=
  hs.step (grows_addClosures fs) (hs.ordered.addClosures hfs) .inl .inl .inl

theorem newClass (hs : h.Sound far) {k : Class}
    (hk : ∀ s, k.superclass = some s → s.index < h.classes.size)
    (hm : ∀ x f, k.methods.find? x = some f → h.HoldsMethod far f) :
    (h.newClass k).2.Sound far := by
  have g := grows_newClass (h := h) k
  refine hs.step g (hs.ordered.newClass hk) .inl .inl fun {c x f} hf => ?_
  rcases Nat.lt_trichotomy c.index h.classes.size with hlt | heq | hgt
  · rw [classAt_newClass_of_lt k hlt] at hf
    exact .inl hf
  · obtain rfl : c = ⟨h.classes.size⟩ := congrArg ClassId.mk heq
    rw [classAt_newClass] at hf
    exact .inr ((hm x f hf).grow g)
  · have hnone : ¬ c.index < h.classes.size + 1 := by omega
    simp [Heap.newClass, classAt, hnone, Bindings.find?_empty] at hf

/-- A class with its methods, which stand around the place where it is declared. -/
theorem declareClass (hs : h.Sound far) (name : String) {parent : Option ClassId}
    (hparent : ∀ s, parent = some s → h.Holds far (.class s)) {methods : List FunDecl}
    {scopes : Scopes} (hc : Covers h e scopes)
    (hm : FunDecl.ScopedAll far (["this"] :: scopes) methods) :
    ((h.addClosures (methodClosures methods e)).newClass
      ⟨name, parent, methodTable h.closures.size methods .empty⟩).2.Sound far := by
  have hframe : ∀ f ∈ methodClosures methods e, f.frame.index < h.frames.size := by
    intro f hf
    obtain ⟨decl, -, rfl⟩ := List.mem_map.1 (List.mem_toArray.1 hf)
    exact hc.lt hs.ordered
  refine (hs.addClosures hframe).newClass hparent fun x f hf => ?_
  rcases find?_methodTable hf with hf | ⟨i, hlen, rfl, -⟩
  · cases hf
  have hclosure := closure_addClosures (h := h) (methodClosures methods e) (i := i)
    (by simpa [methodClosures] using hlen)
  refine ⟨by simp [Heap.addClosures, methodClosures, hlen], ?_⟩
  rw [hclosure]
  refine ⟨scopes, ?_, ?_⟩
  · simpa [methodClosures] using hc.grow (grows_addClosures _)
  · simpa [methodClosures] using FunDecl.scoped_of_mem hm _ (List.getElem_mem hlen)

theorem newInstance (hs : h.Sound far) (c : ClassId) : (h.newInstance c).2.Sound far :=
  hs.step (grows_newInstance c) (hs.ordered.congr rfl rfl rfl) .inl
    (fun hv => .inl ((field?_newInstance h c _ _).symm.trans hv)) .inl

theorem setField (hs : h.Sound far) (o : InstanceId) (x : String) {v : Value}
    (hv : h.Holds far v) : (h.setField o x v).Sound far := by
  have g := grows_setField (h := h) o x v
  refine hs.step g (hs.ordered.congr rfl rfl rfl) .inl (fun hw => ?_) .inl
  rcases field?_setField hw with rfl | hw
  · exact .inr (hv.grow g)
  · exact .inl hw

theorem newNative (hs : h.Sound far) (n : Native) : (h.newNative n).2.Sound far :=
  hs.step (grows_newNative n) (hs.ordered.congr rfl rfl rfl) .inl .inl .inl

end Sound

end Heap

/-- Methods are found in the classes, and what they are among the closures. -/
theorem Heap.method?_congr (hc : h'.classes = h.classes) (hf : h'.closures = h.closures)
    (c : ClassId) (x : String) : h'.method? c x = h.method? c x := by
  have hat : h'.closure = h.closure := funext fun f => by simp [closure, hf]
  rw [method?, method?, findMethod?_congr hc, hat]

/-- The store is sound, and the table tells what `far` says. -/
structure Machine.Sound (far : NodeId → Option Nat → Prop) (m : Machine) : Prop where
  table : ∀ {id d}, far id d → m.distances[id]? = d
  heap : m.heap.Sound far

end Lox

import Lox.Proofs.Objects
import Lox.Proofs.Rules
import Lox.Proofs.Traced

/-!
# Frames and homes

What ties the frames of a closure to its home. A chain of frames serves a place in the program and a
home when the nearest frame that binds `this` binds the home's receiver and stands, if the class there
has a superclass, directly inside the frame that binds `super` to the home's parent. Nothing a program
can name overwrites these two, so whatever a value or a class holds keeps serving its home.
-/

namespace Lox

theorem FunDecl.legal_of_mem {c : Surroundings} : ∀ {fs : List FunDecl}, FunDecl.LegalAll c fs →
    ∀ f ∈ fs, f.Legal c f.methodContext
  | [], _, _, h => by cases h
  | f :: fs, ⟨h, hs⟩, f', hf => by
    rcases List.mem_cons.1 hf with rfl | hf
    · exact h
    · exact FunDecl.legal_of_mem hs f' hf

namespace Traced

def State.heap (t : State) : Heap := t.machine.heap

/-! ### Chains of frames -/

/-- The chain of frames from `e` outward has a frame for each scope of a place in the program, and code
in this place runs on behalf of this home. -/
inductive Serves (h : Heap) : FrameId → Scopes → Home → Prop
  | outside : Serves h Machine.globals [] .outside
  | inside {e p : FrameId} {names : List String} {scopes : Scopes} {home : Home} :
      "this" ∉ names → "super" ∉ names → h.enclosing? e = some p → Serves h p scopes home →
      Serves h e (names :: scopes) home
  | method {e p : FrameId} {names : List String} {scopes : Scopes} {home : Home} {o : InstanceId} :
      "this" ∈ names → "super" ∉ names → h.local? e "this" = some (.instance o) →
      h.enclosing? e = some p → Serves h p scopes home →
      Serves h e (names :: scopes) ⟨some o, none⟩
  | submethod {e p q : FrameId} {names : List String} {scopes : Scopes} {home : Home}
      {o : InstanceId} {c : ClassId} :
      "this" ∈ names → "super" ∉ names → h.local? e "this" = some (.instance o) →
      h.enclosing? e = some p → h.local? p "super" = some (.class c) →
      h.enclosing? p = some q → Serves h q scopes home →
      Serves h e (names :: ["super"] :: scopes) ⟨some o, some c⟩

/-- The frame around the methods of a class whose superclass is `parent`. -/
inductive Around (h : Heap) : FrameId → Scopes → Option ClassId → Prop
  | plain {p : FrameId} {scopes : Scopes} {home : Home} :
      Serves h p scopes home → Around h p scopes none
  | derived {p q : FrameId} {scopes : Scopes} {home : Home} {c : ClassId} :
      h.local? p "super" = some (.class c) → h.enclosing? p = some q → Serves h q scopes home →
      Around h p (["super"] :: scopes) (some c)

namespace Serves

variable {h : Heap} {e : FrameId} {names : List String} {scopes : Scopes} {home : Home}

theorem lt (hs : Serves h e scopes home) (hh : 0 < h.frames.size) : e.index < h.frames.size := by
  cases hs with
  | outside => exact hh
  | inside _ _ he _ => exact Heap.lt_of_enclosing? he
  | method _ _ _ he _ => exact Heap.lt_of_enclosing? he
  | submethod _ _ _ he _ _ _ => exact Heap.lt_of_enclosing? he

/-- No code stands directly in a scope of `super`. -/
theorem not_mem_super (hs : Serves h e (names :: scopes) home) : "super" ∉ names := by
  cases hs with
  | inside _ hn _ _ => exact hn
  | method _ hn _ _ _ => exact hn
  | submethod _ hn _ _ _ _ _ => exact hn

/-- The distance of `this` leads to the frame that binds it to the receiver. -/
theorem receiver (hs : Serves h e scopes home) {d : Nat} (hd : scopes.distance? "this" = some d) :
    ∃ p o, h.ancestor? e d = some p ∧ h.local? p "this" = some (.instance o) ∧
      home.receiver = some o := by
  induction hs generalizing d with
  | outside => simp at hd
  | inside ht _ he _ ih =>
    rw [Scopes.distance?_cons, if_neg ht] at hd
    obtain ⟨d, hd', rfl⟩ := Option.map_eq_some_iff.1 hd
    obtain ⟨p, o, hp, ho⟩ := ih hd'
    exact ⟨p, o, by simp [Heap.ancestor?, he, hp], ho⟩
  | @method e _ _ _ _ o ht _ ho _ _ _ =>
    rw [Scopes.distance?_cons, if_pos ht] at hd
    cases hd
    exact ⟨e, o, rfl, ho, rfl⟩
  | @submethod e _ _ _ _ _ o _ ht _ ho _ _ _ _ _ =>
    rw [Scopes.distance?_cons, if_pos ht] at hd
    cases hd
    exact ⟨e, o, rfl, ho, rfl⟩

/-- Where `super` stands one scope outside of `this`, its distance leads to the frame that binds it to
the superclass. -/
theorem parent (hs : Serves h e scopes home) {d : Nat} (ht : scopes.distance? "this" = some d)
    (hd : scopes.distance? "super" = some (d + 1)) :
    ∃ p c, h.ancestor? e (d + 1) = some p ∧ h.local? p "super" = some (.class c) ∧
      home.parent = some c := by
  induction hs generalizing d with
  | outside => simp at hd
  | inside hn hn' he _ ih =>
    rw [Scopes.distance?_cons, if_neg hn] at ht
    rw [Scopes.distance?_cons, if_neg hn'] at hd
    obtain ⟨d, ht', rfl⟩ := Option.map_eq_some_iff.1 ht
    obtain ⟨d', hd', hdd⟩ := Option.map_eq_some_iff.1 hd
    obtain rfl : d' = d + 1 := by omega
    obtain ⟨p, c, hp, hc⟩ := ih ht' hd'
    exact ⟨p, c, by rw [Heap.ancestor?, he, Option.bind_some, hp], hc⟩
  | @method e p names scopes _ o hn hn' _ _ hs _ =>
    -- The next scope would have to be that of `super`, and no code stands there.
    rw [Scopes.distance?_cons, if_pos hn] at ht
    cases ht
    rw [Scopes.distance?_cons, if_neg hn'] at hd
    obtain ⟨d, hd', hdd⟩ := Option.map_eq_some_iff.1 hd
    obtain rfl : d = 0 := by omega
    cases scopes with
    | nil => simp at hd'
    | cons names scopes =>
      rw [Scopes.distance?_cons, if_neg hs.not_mem_super] at hd'
      obtain ⟨d'', -, hdd'⟩ := Option.map_eq_some_iff.1 hd'
      omega
  | @submethod e p q names scopes _ o c hn _ _ he hc _ _ _ =>
    rw [Scopes.distance?_cons, if_pos hn] at ht
    cases ht
    exact ⟨p, c, by simp [Heap.ancestor?, he], hc, rfl⟩

/-- A declaration adds neither `this` nor `super` to the scope. -/
theorem declare (hs : Serves h e scopes home) {x : String} (hx : IsName x) :
    Serves h e (scopes.declare x) home := by
  have hthis : ∀ {names : List String}, "this" ∉ names → "this" ∉ x :: names := fun hn hm =>
    (List.mem_cons.1 hm).elim (fun h => hx.1 h.symm) hn
  have hsuper : ∀ {names : List String}, "super" ∉ names → "super" ∉ x :: names := fun hn hm =>
    (List.mem_cons.1 hm).elim (fun h => hx.2 h.symm) hn
  cases hs with
  | outside => exact .outside
  | inside hn hn' he hs => exact .inside (hthis hn) (hsuper hn') he hs
  | method hn hn' ho he hs => exact .method (List.mem_cons_of_mem _ hn) (hsuper hn') ho he hs
  | submethod hn hn' ho he hc hq hs =>
    exact .submethod (List.mem_cons_of_mem _ hn) (hsuper hn') ho he hc hq hs

end Serves

/-! ### How states change -/

/-- Frames keep their links and what they bind `this` and `super` to, and closures stay with their
homes. The current frame and the table of distances are the same again. -/
structure Leads (t u : State) : Prop where
  frames : t.heap.frames.size ≤ u.heap.frames.size
  enclosing : ∀ e, e.index < t.heap.frames.size → u.heap.enclosing? e = t.heap.enclosing? e
  bound : ∀ {e x v}, e ≠ Machine.globals → ¬ IsName x → t.heap.local? e x = some v →
    u.heap.local? e x = some v
  closures : t.heap.closures.size ≤ u.heap.closures.size
  closure : ∀ f, f.index < t.heap.closures.size →
    u.heap.closure f = t.heap.closure f ∧ u.home f = t.home f
  classes : t.heap.classes.size ≤ u.heap.classes.size
  frame : u.machine.frame = t.machine.frame
  distances : u.machine.distances = t.machine.distances

theorem not_isName_this : ¬ IsName "this" := fun h => h.1 rfl

theorem not_isName_super : ¬ IsName "super" := fun h => h.2 rfl

theorem ne_globals_of_enclosing? {h : Heap} {e p : FrameId} (he : h.enclosing? e = some p) :
    e ≠ Machine.globals := by
  rintro rfl
  exact absurd (Heap.enclosing?_lt he) (Nat.not_lt_zero _)

namespace Leads

variable {t u v : State}

theorem refl (t : State) : Leads t t where
  frames := le_rfl
  enclosing _ _ := rfl
  bound _ _ h := h
  closures := le_rfl
  closure _ _ := ⟨rfl, rfl⟩
  classes := le_rfl
  frame := rfl
  distances := rfl

theorem trans (h : Leads t u) (k : Leads u v) : Leads t v where
  frames := h.frames.trans k.frames
  enclosing e he := (k.enclosing e (he.trans_le h.frames)).trans (h.enclosing e he)
  bound he hx hb := k.bound he hx (h.bound he hx hb)
  closures := h.closures.trans k.closures
  closure f hf :=
    have h' := h.closure f hf
    have k' := k.closure f (hf.trans_le h.closures)
    ⟨k'.1.trans h'.1, k'.2.trans h'.2⟩
  classes := h.classes.trans k.classes
  frame := k.frame.trans h.frame
  distances := k.distances.trans h.distances

theorem enclosing?_eq (h : Leads t u) {e p : FrameId} (he : t.heap.enclosing? e = some p) :
    u.heap.enclosing? e = some p :=
  (h.enclosing e (Heap.lt_of_enclosing? he)).trans he

theorem serves (h : Leads t u) {e : FrameId} {scopes : Scopes} {home : Home}
    (hs : Serves t.heap e scopes home) : Serves u.heap e scopes home := by
  induction hs with
  | outside => exact .outside
  | inside hn hn' he _ ih => exact .inside hn hn' (h.enclosing?_eq he) ih
  | method hn hn' ho he _ ih =>
    exact .method hn hn' (h.bound (ne_globals_of_enclosing? he) not_isName_this ho)
      (h.enclosing?_eq he) ih
  | submethod hn hn' ho he hc hq _ ih =>
    exact .submethod hn hn' (h.bound (ne_globals_of_enclosing? he) not_isName_this ho)
      (h.enclosing?_eq he) (h.bound (ne_globals_of_enclosing? hq) not_isName_super hc)
      (h.enclosing?_eq hq) ih

/-- The current frame goes on serving its place. -/
theorem serving (h : Leads t u) {scopes : Scopes} {home : Home}
    (hs : Serves t.heap t.machine.frame scopes home) :
    Serves u.heap u.machine.frame scopes home :=
  h.frame ▸ h.serves hs

theorem around (h : Leads t u) {p : FrameId} {scopes : Scopes} {parent : Option ClassId}
    (hs : Around t.heap p scopes parent) : Around u.heap p scopes parent := by
  cases hs with
  | plain hs => exact .plain (h.serves hs)
  | derived hc hq hs =>
    exact .derived (h.bound (ne_globals_of_enclosing? hq) not_isName_super hc) (h.enclosing?_eq hq)
      (h.serves hs)

end Leads

/-! ### What a state holds -/

/-- A closure whose body obeys the rules for the kind of function it is. -/
def Upright (f : Closure) : Prop :=
  ∃ c context, f.decl.Legal c context ∧ context ≠ .none ∧
    (f.isInitializer = true → context = .initializer)

theorem upright_function {f : FunDecl} {c : Surroundings} (h : f.Legal c .function) (e : FrameId) :
    Upright ⟨f, e, false⟩ :=
  ⟨c, .function, h, by simp, by simp⟩

theorem upright_method {f : FunDecl} {c : Surroundings} (h : f.Legal c f.methodContext)
    (e : FrameId) : Upright ⟨f, e, f.isInitializer⟩ := by
  refine ⟨c, f.methodContext, h, ?_, fun hi => ?_⟩
  · unfold FunDecl.methodContext
    split <;> simp
  · exact if_pos hi

variable (far : NodeId → Option Nat → Prop)

/-- A closure that can be called on behalf of this home. -/
def Callable (h : Heap) (f : Closure) (home : Home) : Prop :=
  Upright f ∧ ∃ scopes, Serves h f.frame scopes home ∧ f.decl.Scoped far scopes

/-- A closure that can be called once it is bound to an instance. -/
def Bindable (h : Heap) (f : Closure) (home : Home) : Prop :=
  Upright f ∧ ∃ scopes, Around h f.frame scopes home.parent ∧
    f.decl.Scoped far (["this"] :: scopes)

namespace State

/-- A value whose function, if it is one, can be called, and whose class is there. -/
def Holds (t : State) (v : Value) : Prop :=
  (∀ f, v = .function f →
    f.index < t.heap.closures.size ∧ Callable far t.heap (t.heap.closure f) (t.home f)) ∧
  ∀ c, v = .class c → c.index < t.heap.classes.size

def Method (t : State) (f : ClosureId) : Prop :=
  f.index < t.heap.closures.size ∧ Bindable far t.heap (t.heap.closure f) (t.home f)

/-- All that values and classes hold serves its home, no class comes before its superclass, and the
table tells what `far` says. -/
structure Sound (t : State) : Prop where
  table : ∀ {id d}, far id d → t.machine.distances[id]? = d
  size : t.homes.size = t.heap.closures.size
  globals : 0 < t.heap.frames.size
  locals : ∀ {e x v}, t.heap.local? e x = some v → t.Holds far v
  fields : ∀ {o x v}, t.heap.field? o x = some v → t.Holds far v
  methods : ∀ {c x f}, (t.heap.classAt c).methods.find? x = some f → t.Method far f
  chain : ∀ {c s}, (t.heap.classAt c).superclass = some s → s.index < c.index

end State

variable {far} {t u : State}

/-- Neither a function nor a class, so that nothing is asked of it. -/
def Primitive (v : Value) : Prop := (∀ f, v ≠ .function f) ∧ ∀ c, v ≠ .class c

/-- A value that is no object. -/
def Simple (v : Value) : Prop :=
  (∀ f, v ≠ .function f) ∧ (∀ c, v ≠ .class c) ∧ ∀ o, v ≠ .instance o

theorem Simple.primitive {v : Value} (hv : Simple v) : Primitive v := ⟨hv.1, hv.2.1⟩

theorem Primitive.holds {v : Value} (hv : Primitive v) : t.Holds far v :=
  ⟨fun f hf => absurd hf (hv.1 f), fun c hc => absurd hc (hv.2 c)⟩

theorem holds_nil : t.Holds far .nil := Primitive.holds (by simp [Primitive])

theorem holds_instance (o : InstanceId) : t.Holds far (.instance o) :=
  Primitive.holds (by simp [Primitive])

theorem Leads.callable (h : Leads t u) {f : Closure} {home : Home}
    (hf : Callable far t.heap f home) : Callable far u.heap f home := by
  obtain ⟨hu, scopes, hs, hd⟩ := hf
  exact ⟨hu, scopes, h.serves hs, hd⟩

theorem Leads.bindable (h : Leads t u) {f : Closure} {home : Home}
    (hf : Bindable far t.heap f home) : Bindable far u.heap f home := by
  obtain ⟨hu, scopes, hs, hd⟩ := hf
  exact ⟨hu, scopes, h.around hs, hd⟩

theorem Leads.holds (h : Leads t u) {v : Value} (hv : t.Holds far v) : u.Holds far v := by
  refine ⟨fun f hf => ?_, fun c hc => (hv.2 c hc).trans_le h.classes⟩
  obtain ⟨hlt, hc⟩ := hv.1 f hf
  obtain ⟨hc', hl'⟩ := h.closure f hlt
  rw [hc', hl']
  exact ⟨hlt.trans_le h.closures, h.callable hc⟩

theorem Leads.method (h : Leads t u) {f : ClosureId} (hf : t.Method far f) : u.Method far f := by
  obtain ⟨hlt, hb⟩ := hf
  obtain ⟨hc', hl'⟩ := h.closure f hlt
  rw [State.Method, hc', hl']
  exact ⟨hlt.trans_le h.closures, h.bindable hb⟩

namespace State.Sound

theorem method_of_findMethod? (ht : t.Sound far) {c : ClassId} {x : String} {f : ClosureId}
    (h : t.heap.findMethod? c x = some f) : t.Method far f := by
  fun_induction t.heap.findMethod? c x with
  | case1 c g hg =>
    cases h
    exact ht.methods hg
  | case2 => cases h
  | case3 c hg s hs _ ih => exact ih h

/-! ### Steps -/

/-- Another frame is the current one. -/
theorem enter (ht : t.Sound far) (e : FrameId) :
    State.Sound far { t with machine := { t.machine with frame := e } } :=
  { ht with }

/-- A step that leaves frames, closures and classes as they are. -/
theorem quiet (ht : t.Sound far) {m : Machine} (hf : m.heap.frames = t.heap.frames)
    (hc : m.heap.closures = t.heap.closures) (hk : m.heap.classes = t.heap.classes)
    (hd : m.distances = t.machine.distances) (he : m.frame = t.machine.frame)
    (hfields : ∀ {o x v}, m.heap.field? o x = some v → t.Holds far v) :
    State.Sound far { t with machine := m } ∧ Leads t { t with machine := m } := by
  have hl : Leads t { t with machine := m } :=
    { frames := hf ▸ le_rfl
      enclosing := fun e _ => by simp only [State.heap, Heap.enclosing?, Heap.frame] at hf ⊢; rw [hf]
      bound := fun _ _ hb => by
        simp only [State.heap, Heap.local?, Heap.frame] at hf hb ⊢
        rw [hf]
        exact hb
      closures := hc ▸ le_rfl
      closure := fun f _ => ⟨by simp only [State.heap, Heap.closure] at hc ⊢; rw [hc], rfl⟩
      classes := hk ▸ le_rfl
      frame := he
      distances := hd }
  refine ⟨⟨?_, ?_, ?_, ?_, fun h => hl.holds (hfields h), ?_, ?_⟩, hl⟩
  · intro id d h
    show m.distances[id]? = d
    rw [hd]
    exact ht.table h
  · exact ht.size.trans (congrArg Array.size hc.symm)
  · show 0 < m.heap.frames.size
    rw [hf]
    exact ht.globals
  · intro e x v h
    refine hl.holds (ht.locals (e := e) (x := x) ?_)
    simp only [State.heap, Heap.local?, Heap.frame] at hf h ⊢
    rwa [hf] at h
  · intro c x f h
    refine hl.method (ht.methods (c := c) (x := x) ?_)
    simp only [State.heap, Heap.classAt] at hk h ⊢
    rwa [hk] at h
  · intro c k h
    refine ht.chain (c := c) ?_
    simp only [State.heap, Heap.classAt] at hk h ⊢
    rwa [hk] at h

end State.Sound

/-- What is read after a definition was defined or there before. -/
theorem local?_of_define {h : Heap} {e p : FrameId} {x y : String} {v w : Value}
    (hw : (h.define e x v).local? p y = some w) : w = v ∨ h.local? p y = some w := by
  unfold Heap.local? at hw ⊢
  rw [Heap.frame_define] at hw
  split at hw
  · rw [Bindings.find?_insert] at hw
    split at hw
    · exact .inl (Option.some.inj hw).symm
    · exact .inr hw
  · exact .inr hw

theorem local?_of_newFrame {h : Heap} {outer : Option FrameId} {b : Bindings Value} {e : FrameId}
    {x : String} {v : Value} (hv : (h.newFrame outer b).2.local? e x = some v) :
    b.find? x = some v ∨ h.local? e x = some v := by
  rcases Nat.lt_trichotomy e.index h.frames.size with hlt | heq | hgt
  · exact .inr ((Heap.local?_newFrame_of_lt h outer b hlt x).symm.trans hv)
  · obtain rfl : e = (h.newFrame outer b).1 := by
      cases e
      exact congrArg FrameId.mk heq
    exact .inl ((Heap.local?_newFrame h outer b x).symm.trans hv)
  · have hge : (h.newFrame outer b).2.frames.size ≤ e.index := by
      simp only [Heap.newFrame, Array.size_push]
      omega
    rw [Heap.local?_of_le _ hge] at hv
    cases hv

def State.withHeap (t : State) (h : Heap) : State := { t with machine := { t.machine with heap := h } }

namespace State.Sound

/-- A name that a program may use is given a value, or the host gives a global one. -/
theorem define (ht : t.Sound far) {e : FrameId} {x : String} {v : Value}
    (hx : IsName x ∨ e = Machine.globals) (hv : t.Holds far v) :
    (t.withHeap (t.heap.define e x v)).Sound far ∧ Leads t (t.withHeap (t.heap.define e x v)) := by
  have hl : Leads t (t.withHeap (t.heap.define e x v)) :=
    { frames := (Heap.size_frames_define t.heap e x v).ge
      enclosing := fun p _ => Heap.enclosing?_define t.heap e p x v
      bound := by
        intro p y w hp hy hw
        by_cases hxy : x = y
        · subst hxy
          obtain hx | rfl := hx
          · exact absurd hx hy
          · show (t.heap.define Machine.globals x v).local? p x = some w
            unfold Heap.local? at hw ⊢
            rwa [Heap.frame_define, if_neg fun h => hp h.1.symm]
        · exact (Heap.local?_define_of_ne t.heap e p v hxy).trans hw
      closures := le_rfl
      closure := fun _ _ => ⟨rfl, rfl⟩
      classes := le_rfl
      frame := rfl
      distances := rfl }
  refine ⟨⟨ht.table, ht.size, ?_, ?_, fun h => hl.holds (ht.fields h),
    fun h => hl.method (ht.methods h), ht.chain⟩, hl⟩
  · exact ht.globals.trans_le hl.frames
  · intro p y w hw
    rcases local?_of_define hw with rfl | hw
    · exact hl.holds hv
    · exact hl.holds (ht.locals hw)

theorem newFrame (ht : t.Sound far) (outer : FrameId) {b : Bindings Value}
    (hb : ∀ x v, b.find? x = some v → t.Holds far v) :
    (t.withHeap (t.heap.newFrame (some outer) b).2).Sound far ∧
      Leads t (t.withHeap (t.heap.newFrame (some outer) b).2) := by
  have hl : Leads t (t.withHeap (t.heap.newFrame (some outer) b).2) :=
    { frames := by
        show _ ≤ (t.heap.newFrame (some outer) b).2.frames.size
        simp [Heap.newFrame]
      enclosing := fun e he => Heap.enclosing?_newFrame_of_lt t.heap _ b he
      bound := fun _ _ hw =>
        (Heap.local?_newFrame_of_lt t.heap _ b (Heap.lt_of_local? (Option.isSome_of_eq_some hw)) _).trans hw
      closures := le_rfl
      closure := fun _ _ => ⟨rfl, rfl⟩
      classes := le_rfl
      frame := rfl
      distances := rfl }
  refine ⟨⟨ht.table, ht.size, ht.globals.trans_le hl.frames, ?_, fun h => hl.holds (ht.fields h),
    fun h => hl.method (ht.methods h), ht.chain⟩, hl⟩
  intro e x v hv
  rcases local?_of_newFrame hv with hv | hv
  · exact hl.holds (hb x v hv)
  · exact hl.holds (ht.locals hv)

end State.Sound

/-- New closures with their homes, and new classes. -/
def State.pushClosures (t : State) (fs : Array Closure) (homes : Array Home)
    (classes : Array Class) : State where
  machine := { t.machine with heap := { t.machine.heap with
    closures := t.machine.heap.closures ++ fs, classes } }
  homes := t.homes ++ homes

theorem closure_pushClosures (t : State) (fs : Array Closure) (homes : Array Home)
    (classes : Array Class) {i : Nat} (hi : i < fs.size) :
    (t.pushClosures fs homes classes).heap.closure ⟨t.heap.closures.size + i⟩ = fs[i] := by
  simp [State.pushClosures, State.heap, Heap.closure, hi]

theorem home_pushClosures (ht : t.Sound far) (fs : Array Closure) (homes : Array Home)
    (classes : Array Class) {i : Nat} (hi : i < homes.size) :
    (t.pushClosures fs homes classes).home ⟨t.heap.closures.size + i⟩ = homes[i] := by
  rw [← ht.size]
  simp [State.pushClosures, State.home, hi]

namespace State.Sound

theorem leads_pushClosures (ht : t.Sound far) (fs : Array Closure) (homes : Array Home)
    {classes : Array Class} (hk : t.heap.classes.size ≤ classes.size) :
    Leads t (t.pushClosures fs homes classes) where
  frames := le_rfl
  enclosing _ _ := rfl
  bound _ _ h := h
  closures := by simp [State.pushClosures, State.heap]
  closure f hf := by
    have hc : f.index < t.homes.size := ht.size ▸ hf
    have hf' : f.index < t.machine.heap.closures.size := hf
    have hf'' : f.index < t.machine.heap.closures.size + fs.size := by omega
    have hc' : f.index < t.homes.size + homes.size := by omega
    constructor
    · simp [State.pushClosures, State.heap, Heap.closure, Array.getElem_append_left, hf', hf'']
    · simp [State.pushClosures, State.home, Array.getElem_append_left, hc, hc']
  classes := hk
  frame := rfl
  distances := rfl

theorem pushClosures (ht : t.Sound far) {fs : Array Closure} {homes : Array Home}
    {classes : Array Class} (hs : homes.size = fs.size)
    (hk : t.heap.classes.size ≤ classes.size)
    (hmethods : ∀ {c x f}, ((t.pushClosures fs homes classes).heap.classAt c).methods.find? x =
      some f → (t.pushClosures fs homes classes).Method far f)
    (hchain : ∀ {c s}, ((t.pushClosures fs homes classes).heap.classAt c).superclass = some s →
      s.index < c.index) :
    (t.pushClosures fs homes classes).Sound far :=
  have hl := ht.leads_pushClosures fs homes hk
  ⟨ht.table, by have := ht.size; simp_all [State.pushClosures, State.heap], ht.globals,
    fun h => hl.holds (ht.locals h), fun h => hl.holds (ht.fields h), hmethods, hchain⟩

theorem pushClosure (ht : t.Sound far) {f : Closure} {home : Home}
    (hf : Callable far t.heap f home) :
    (t.pushClosures #[f] #[home] t.heap.classes).Sound far ∧
      (t.pushClosures #[f] #[home] t.heap.classes).Holds far
        (.function ⟨t.heap.closures.size⟩) := by
  have hl := ht.leads_pushClosures #[f] #[home] (le_refl t.heap.classes.size)
  refine ⟨ht.pushClosures rfl le_rfl (fun h => hl.method (ht.methods h)) ht.chain, ?_, by simp⟩
  rintro g hg
  cases hg
  have hclosure := closure_pushClosures t #[f] #[home] t.heap.classes (i := 0) (by simp)
  have hhome := home_pushClosures ht #[f] #[home] t.heap.classes (i := 0) (by simp)
  rw [Nat.add_zero] at hclosure hhome
  rw [hclosure, hhome]
  exact ⟨by simp [State.pushClosures, State.heap], hl.callable hf⟩

/-- The methods of a new class wait for an instance. -/
theorem pushClass (ht : t.Sound far) (name : String) {parent : Option ClassId}
    (hparent : ∀ s, parent = some s → s.index < t.heap.classes.size)
    {methods : List FunDecl} {e : FrameId} {scopes : Scopes} {c : Surroundings}
    (he : Around t.heap e scopes parent)
    (hm : FunDecl.ScopedAll far (["this"] :: scopes) methods) (hl : FunDecl.LegalAll c methods) :
    (t.pushClosures (methodClosures methods e) (Array.replicate methods.length ⟨none, parent⟩)
      (t.heap.classes.push
        ⟨name, parent, methodTable t.heap.closures.size methods .empty⟩)).Sound far := by
  have hk : t.heap.classes.size ≤ (t.heap.classes.push
      ⟨name, parent, methodTable t.heap.closures.size methods .empty⟩).size := by simp
  have hleads := ht.leads_pushClosures (methodClosures methods e)
    (Array.replicate methods.length ⟨none, parent⟩) hk
  -- A method or a superclass that is found belongs to the new class or was there before.
  refine ht.pushClosures (by simp [methodClosures]) hk (fun {k x f} hf => ?_) fun {k s} hs => ?_
  case refine_2 =>
    simp only [State.pushClosures, State.heap, Heap.classAt, Array.getD_eq_getD_getElem?,
      Array.getElem?_push] at hs
    split at hs
    · next hk => exact (hparent s hs).trans_eq hk.symm
    · refine ht.chain (c := k) ?_
      simpa [Heap.classAt, State.heap] using hs
  simp only [State.pushClosures, State.heap, Heap.classAt, Array.getD_eq_getD_getElem?,
    Array.getElem?_push] at hf
  split at hf
  · rcases find?_methodTable hf with h | ⟨i, hlen, hi, -⟩
    · cases h
    obtain rfl : f = ⟨t.heap.closures.size + i⟩ := hi
    have hc := closure_pushClosures t (methodClosures methods e)
      (Array.replicate methods.length ⟨none, parent⟩)
      (t.heap.classes.push ⟨name, parent, methodTable t.heap.closures.size methods .empty⟩)
      (i := i) (by simpa [methodClosures] using hlen)
    have hk := home_pushClosures ht (methodClosures methods e)
      (Array.replicate methods.length ⟨none, parent⟩)
      (t.heap.classes.push ⟨name, parent, methodTable t.heap.closures.size methods .empty⟩)
      (i := i) (by simpa using hlen)
    have hmem := List.getElem_mem hlen
    rw [State.Method, hc, hk]
    refine ⟨?_, ?_, scopes, ?_, ?_⟩
    · simp [State.pushClosures, State.heap, methodClosures, hlen]
    · simpa [methodClosures] using upright_method (FunDecl.legal_of_mem hl _ hmem) e
    · simpa [methodClosures] using hleads.around he
    · simpa [methodClosures] using FunDecl.scoped_of_mem hm _ hmem
  · refine hleads.method (ht.methods (c := k) (x := x) ?_)
    simpa [Heap.classAt, State.heap] using hf

end State.Sound

end Traced

end Lox

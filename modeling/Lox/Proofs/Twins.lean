import Mathlib.Order.Nat
import Lox.Proofs.Cells
import Lox.Proofs.Lockstep

/-!
# Twin machines

A machine with distances beside one that looks names up, both after the same steps: they have the
same objects, globals and output, and every function that a value can reach has its body scoped by
the distances and its frame standing for the list it captured. The bodies of methods wait for the
frame of `this`, so the two kinds of closure are told apart.
-/

namespace Lox.Lexical

/-- Two machines, what ties the frames of one to the cells of the other, and the first node id that
no tree has had yet. -/
structure Twin where
  world : World
  machine : Machine
  lexical : State
  next : Nat

namespace Twin

def heap (t : Twin) : Heap := t.machine.heap

/-- What the distances tell of an occurrence in some tree there has been. -/
def far (t : Twin) (id : NodeId) (distance : Option Nat) : Prop :=
  id.index < t.next ∧ t.machine.distances[id]? = distance

/-- The list a closure captured. -/
def captured (t : Twin) (f : ClosureId) : Locals := t.lexical.captured.getD f.index []

/-- A closure that can be called; only the initializer of an instance is called as one. -/
def Callable (t : Twin) (f : Closure) (locals : Locals) : Prop :=
  ∃ scopes, Stands t.heap t.world f.frame scopes locals ∧
    f.decl.Scoped t.far scopes ∧
    (f.isInitializer = true → scopes.head? = some ["this"])

/-- A closure that can be called once `this` is bound, as the method of a name. -/
def Method (t : Twin) (x : String) (f : ClosureId) : Prop :=
  f.index < t.heap.closures.size ∧
    (t.heap.closure f).isInitializer = (x == initializerName) ∧ ∃ scopes,
    Stands t.heap t.world (t.heap.closure f).frame scopes (t.captured f) ∧
      (t.heap.closure f).decl.Scoped t.far (["this"] :: scopes)

/-- A value whose function, if it is one, can be called. -/
def Holds (t : Twin) (v : Value) : Prop :=
  ∀ f, v = .function f →
    f.index < t.heap.closures.size ∧ t.Callable (t.heap.closure f) (t.captured f)

structure Sound (t : Twin) : Prop where
  machine : t.lexical.machine = t.machine.withoutLocals
  size : t.lexical.captured.size = t.heap.closures.size
  globals : 0 < t.heap.frames.size
  noCells : ∀ e, e = Machine.globals ∨ t.heap.frames.size ≤ e.index → t.world e = []
  nodup : ∀ e, ((t.world e).map Prod.fst).Nodup
  apart : ∀ {e e' x x' c}, (x, c) ∈ t.world e → (x', c) ∈ t.world e' → e = e' ∧ x = x'
  cell : ∀ {e x c}, (x, c) ∈ t.world e →
    ∃ v, t.heap.local? e x = some v ∧ t.lexical.cells[c.index]? = some v
  this : ∀ {e c}, ("this", c) ∈ t.world e → ∃ o, t.heap.local? e "this" = some (.instance o)
  super : ∀ {e c}, ("super", c) ∈ t.world e → ∃ k, t.heap.local? e "super" = some (.class k)
  locals : ∀ {e x v}, t.heap.local? e x = some v → t.Holds v
  fields : ∀ {o x v}, t.heap.field? o x = some v → t.Holds v
  methods : ∀ {k x f}, (t.heap.classAt k).methods.find? x = some f → t.Method x f

/-- How twins change. Frames keep their links, the names they have declared and what they bind `this`
and `super` to. While an expression runs no frame that was there declares anything; while a statement
runs the current one may. -/
structure Leads (grows : Bool) (t u : Twin) : Prop where
  frames : t.heap.frames.size ≤ u.heap.frames.size
  enclosing : ∀ e, e.index < t.heap.frames.size → u.heap.enclosing? e = t.heap.enclosing? e
  closures : t.heap.closures.size ≤ u.heap.closures.size
  closure : ∀ f, f.index < t.heap.closures.size →
    u.heap.closure f = t.heap.closure f ∧ u.captured f = t.captured f
  distances : u.machine.distances = t.machine.distances
  next : u.next = t.next
  frame : u.machine.frame = t.machine.frame
  world : ∀ e, e.index < t.heap.frames.size → t.world e <:+ u.world e
  kept : ∀ e, e.index < t.heap.frames.size → (grows = true → e ≠ t.machine.frame) →
    u.world e = t.world e
  bound : ∀ {e x v}, e ≠ Machine.globals → ¬ IsName x → t.heap.local? e x = some v →
    u.heap.local? e x = some v
  cells : t.lexical.cells.size ≤ u.lexical.cells.size
  fresh : ∀ {e x c}, (x, c) ∈ u.world e → (x, c) ∈ t.world e ∨ t.lexical.cells.size ≤ c.index

namespace Leads

theorem refl (grows : Bool) (t : Twin) : Leads grows t t where
  frames := le_rfl
  enclosing _ _ := rfl
  closures := le_rfl
  closure _ _ := ⟨rfl, rfl⟩
  distances := rfl
  next := rfl
  frame := rfl
  world _ _ := List.suffix_rfl
  kept _ _ _ := rfl
  bound _ _ h := h
  cells := le_rfl
  fresh h := .inl h

theorem trans {grows : Bool} {t u v : Twin} (h : Leads grows t u) (k : Leads grows u v) :
    Leads grows t v where
  frames := h.frames.trans k.frames
  enclosing e he := (k.enclosing e (he.trans_le h.frames)).trans (h.enclosing e he)
  closures := h.closures.trans k.closures
  closure f hf :=
    have h' := h.closure f hf
    have k' := k.closure f (hf.trans_le h.closures)
    ⟨k'.1.trans h'.1, k'.2.trans h'.2⟩
  distances := k.distances.trans h.distances
  next := k.next.trans h.next
  frame := k.frame.trans h.frame
  world e he := (h.world e he).trans (k.world e (he.trans_le h.frames))
  kept e he hg :=
    (k.kept e (he.trans_le h.frames) (by rw [h.frame]; exact hg)).trans (h.kept e he hg)
  bound he hx hb := k.bound he hx (h.bound he hx hb)
  cells := h.cells.trans k.cells
  fresh hx := by
    rcases k.fresh hx with hx | hx
    · exact h.fresh hx
    · exact .inr (h.cells.trans hx)

theorem loud {grows : Bool} {t u : Twin} (h : Leads grows t u) : Leads true t u :=
  { h with kept := fun e he hn => h.kept e he fun _ => hn rfl }

theorem far {grows : Bool} {t u : Twin} (h : Leads grows t u) : u.far = t.far := by
  funext id distance
  simp [Twin.far, h.distances, h.next]

theorem stands {grows : Bool} {t u : Twin} (h : Leads grows t u)
    {e : FrameId} {scopes : Scopes} {locals : Locals}
    (hs : Stands t.heap t.world e scopes locals) : Stands u.heap u.world e scopes locals := by
  induction hs with
  | globals => exact .globals
  | inside hown he _ ih =>
    have hlt := Heap.lt_of_enclosing? he
    exact .inside (hown.trans (h.world _ hlt)) ((h.enclosing _ hlt).trans he) ih

theorem callable {grows : Bool} {t u : Twin} (h : Leads grows t u) {f : Closure}
    {locals : Locals} (hf : t.Callable f locals) : u.Callable f locals := by
  obtain ⟨scopes, hs, hd, hi⟩ := hf
  exact ⟨scopes, h.stands hs, by rwa [h.far], hi⟩

theorem method {grows : Bool} {t u : Twin} (h : Leads grows t u)
    {x : String} {f : ClosureId} (hf : t.Method x f) : u.Method x f := by
  obtain ⟨hlt, hi, scopes, hs, hd⟩ := hf
  obtain ⟨hc, hl⟩ := h.closure f hlt
  refine ⟨hlt.trans_le h.closures, hc ▸ hi, scopes, ?_, ?_⟩
  · rw [hc, hl]
    exact h.stands hs
  · rwa [hc, h.far]

theorem holds {grows : Bool} {t u : Twin} (h : Leads grows t u)
    {v : Value} (hv : t.Holds v) : u.Holds v := by
  intro f hf
  obtain ⟨hlt, hc⟩ := hv f hf
  obtain ⟨hc', hl'⟩ := h.closure f hlt
  refine ⟨hlt.trans_le h.closures, ?_⟩
  rw [hc', hl']
  exact h.callable hc

end Leads

theorem holds_of_ne {t : Twin} {v : Value} (h : ∀ f, v ≠ .function f) : t.Holds v :=
  fun f hf => absurd hf (h f)

theorem holds_nil {t : Twin} : t.Holds .nil := holds_of_ne (by simp)

/-- Steps that leave frames and cells as they are. -/
theorem Leads.of_same {t u : Twin} (hw : u.world = t.world)
    (hf : u.heap.frames = t.heap.frames) (hc : u.lexical.cells = t.lexical.cells)
    (hd : u.machine.distances = t.machine.distances) (hn : u.next = t.next) (he : u.machine.frame = t.machine.frame)
    (hs : t.heap.closures.size ≤ u.heap.closures.size)
    (hk : ∀ f, f.index < t.heap.closures.size →
      u.heap.closure f = t.heap.closure f ∧ u.captured f = t.captured f) : Leads false t u where
  frames := by rw [hf]
  enclosing e _ := by simp only [Heap.enclosing?, Heap.frame, hf]
  closures := hs
  closure := hk
  distances := hd
  next := hn
  frame := he
  world _ _ := hw ▸ List.suffix_rfl
  kept _ _ _ := by rw [hw]
  bound _ _ hb := by
    simp only [Heap.local?, Heap.frame, hf] at hb ⊢
    exact hb
  cells := by rw [hc]
  fresh h := .inl (hw ▸ h)

theorem Sound.of_same {t u : Twin} (ht : t.Sound) (h : Leads false t u) (hw : u.world = t.world)
    (hf : u.heap.frames = t.heap.frames) (hc : u.lexical.cells = t.lexical.cells)
    (hm : u.lexical.machine = u.machine.withoutLocals)
    (hs : u.lexical.captured.size = u.heap.closures.size)
    (hfields : ∀ {o x v}, u.heap.field? o x = some v → u.Holds v)
    (hmethods : ∀ {k x f}, (u.heap.classAt k).methods.find? x = some f → u.Method x f) :
    u.Sound := by
  have hl : ∀ e x, u.heap.local? e x = t.heap.local? e x := fun e x => by
    simp only [Heap.local?, Heap.frame, hf]
  constructor
  case machine => exact hm
  case size => exact hs
  case globals => rw [hf]; exact ht.globals
  case noCells => rw [hf, hw]; exact ht.noCells
  case nodup => rw [hw]; exact ht.nodup
  case apart => rw [hw]; exact ht.apart
  case cell => simp only [hw, hc, hl]; exact ht.cell
  case this => simp only [hw, hl]; exact ht.this
  case super => simp only [hw, hl]; exact ht.super
  case locals =>
    intro e x v hv
    rw [hl] at hv
    exact h.holds (ht.locals hv)
  case fields => exact hfields
  case methods => exact hmethods

end Twin

/-! ### New frames -/

/-- The cells that `bindAll` makes, when `n` cells are there. -/
def newLocals (n : Nat) : List (String × Value) → Locals → Locals
  | [], locals => locals
  | (name, _) :: rest, locals => newLocals (n + 1) rest ((name, ⟨n⟩) :: locals)

theorem bindAll_eq (pairs : List (String × Value)) (locals : Locals) (r : State) :
    bindAll pairs locals r = .ok (newLocals r.cells.size pairs locals)
      { r with cells := r.cells ++ (pairs.map Prod.snd).toArray } := by
  induction pairs generalizing locals r with
  | nil => simp [bindAll, newLocals, pure, EStateM.pure]
  | cons p pairs ih =>
    obtain ⟨name, v⟩ := p
    simp only [bindAll, newCell, Bind.bind, EStateM.bind, ih, newLocals]
    simp

theorem newLocals_append (n : Nat) (pairs : List (String × Value)) (locals : Locals) :
    newLocals n pairs locals = newLocals n pairs [] ++ locals := by
  induction pairs generalizing n locals with
  | nil => rfl
  | cons p pairs ih =>
    simp only [newLocals]
    rw [ih (n + 1) (_ :: locals), ih (n + 1) [_]]
    simp

theorem newLocals_fst (n : Nat) (pairs : List (String × Value)) :
    (newLocals n pairs []).map Prod.fst = (pairs.map Prod.fst).reverse := by
  induction pairs generalizing n with
  | nil => rfl
  | cons p pairs ih =>
    simp only [newLocals]
    rw [newLocals_append, List.map_append, ih]
    simp

theorem mem_newLocals {n : Nat} {pairs : List (String × Value)} {name : String} {c : CellId}
    (h : (name, c) ∈ newLocals n pairs []) :
    ∃ i v, pairs[i]? = some (name, v) ∧ c = ⟨n + i⟩ := by
  induction pairs generalizing n with
  | nil => cases h
  | cons p pairs ih =>
    simp only [newLocals] at h
    rw [newLocals_append, List.mem_append] at h
    rcases h with h | h
    · obtain ⟨i, v, hi, rfl⟩ := ih h
      exact ⟨i + 1, v, hi, by simp only [CellId.mk.injEq]; omega⟩
    · simp only [List.mem_singleton, Prod.mk.injEq] at h
      obtain ⟨rfl, rfl⟩ := h
      exact ⟨0, p.2, rfl, rfl⟩

def bindingsOf (pairs : List (String × Value)) : Bindings Value :=
  pairs.foldl (fun b (name, v) => b.insert name v) .empty

theorem find?_bindingsOf (pairs : List (String × Value)) (name : String) :
    (bindingsOf pairs).find? name = pairs.reverse.lookup name := by
  suffices ∀ b : Bindings Value, (pairs.foldl (fun b (x, v) => b.insert x v) b).find? name =
      (pairs.reverse.lookup name).or (b.find? name) by
    simpa [bindingsOf, Bindings.find?_empty] using this .empty
  induction pairs with
  | nil => simp
  | cons p pairs ih =>
    intro b
    obtain ⟨x, v⟩ := p
    rw [List.foldl_cons, ih, List.reverse_cons, List.lookup_append, Bindings.find?_insert,
      Option.or_assoc]
    congr 1
    by_cases h : x = name
    · simp [h]
    · have : (name == x) = false := by simpa using Ne.symm h
      simp [h, List.lookup_cons, this]

namespace Twin

/-- A new frame inside `outer`, its names bound and declared. -/
def pushFrame (t : Twin) (outer : FrameId) (pairs : List (String × Value)) : Twin where
  world e := if e = ⟨t.heap.frames.size⟩ then newLocals t.lexical.cells.size pairs [] else t.world e
  machine := { t.machine with heap := (t.heap.newFrame (some outer) (bindingsOf pairs)).2 }
  lexical := { t.lexical with cells := t.lexical.cells ++ (pairs.map Prod.snd).toArray }
  next := t.next

theorem size_newFrame (h : Heap) (enclosing : Option FrameId) (b : Bindings Value) :
    (h.newFrame enclosing b).2.frames.size = h.frames.size + 1 := by
  simp [Heap.newFrame]

theorem pushFrame_world_of_lt {t : Twin} {outer : FrameId} {pairs : List (String × Value)}
    {e : FrameId} (he : e.index < t.heap.frames.size) :
    (t.pushFrame outer pairs).world e = t.world e := by
  have : e ≠ ⟨t.heap.frames.size⟩ := by
    rintro rfl
    exact Nat.lt_irrefl _ he
  simp [pushFrame, this]

theorem pushFrame_leads (t : Twin) (outer : FrameId) (pairs : List (String × Value)) :
    Leads false t (t.pushFrame outer pairs) where
  frames := by
    show _ ≤ (t.heap.newFrame _ _).2.frames.size
    rw [size_newFrame]
    omega
  enclosing e he := Heap.enclosing?_newFrame_of_lt t.heap _ _ he
  closures := le_rfl
  closure _ _ := ⟨rfl, rfl⟩
  distances := rfl
  next := rfl
  frame := rfl
  world e he := pushFrame_world_of_lt he ▸ List.suffix_rfl
  kept e he _ := pushFrame_world_of_lt he
  bound _ _ hb :=
    (Heap.local?_newFrame_of_lt t.heap _ _ (Heap.lt_of_local? (by rw [hb]; rfl)) _).trans hb
  cells := by simp [pushFrame]
  fresh {e x c} h := by
    simp only [pushFrame] at h
    split at h
    · obtain ⟨i, v, -, rfl⟩ := mem_newLocals h
      exact .inr (by simp)
    · exact .inl h

theorem stands_pushFrame {t : Twin} {outer : FrameId} (pairs : List (String × Value))
    (ho : outer.index < t.heap.frames.size) {scopes : Scopes} {locals : Locals}
    (hs : Stands t.heap t.world outer scopes locals) :
    Stands (t.pushFrame outer pairs).heap (t.pushFrame outer pairs).world
      ⟨t.heap.frames.size⟩ ((pairs.map Prod.fst).reverse :: scopes)
      (newLocals t.lexical.cells.size pairs locals) := by
  rw [newLocals_append, ← newLocals_fst t.lexical.cells.size]
  refine .inside ?_ (Heap.enclosing?_newFrame t.heap _ ho)
    ((pushFrame_leads t outer pairs).stands hs)
  simp [pushFrame]

theorem Sound.lt_of_mem {t : Twin} (ht : t.Sound) {e : FrameId} {x : String} {c : CellId}
    (h : (x, c) ∈ t.world e) : e.index < t.heap.frames.size := by
  by_contra he
  rw [ht.noCells e (.inr (Nat.le_of_not_lt he))] at h
  cases h

theorem Sound.lt_cells {t : Twin} (ht : t.Sound) {e : FrameId} {x : String} {c : CellId}
    (h : (x, c) ∈ t.world e) : c.index < t.lexical.cells.size := by
  obtain ⟨v, -, hc⟩ := ht.cell h
  exact (Array.getElem?_eq_some_iff.1 hc).1

theorem local?_pushFrame (t : Twin) (outer : FrameId) (pairs : List (String × Value))
    (e : FrameId) (x : String) :
    (t.pushFrame outer pairs).heap.local? e x =
      if e = ⟨t.heap.frames.size⟩ then pairs.reverse.lookup x else t.heap.local? e x := by
  split
  · next he =>
    subst he
    exact (Heap.local?_newFrame t.heap _ _ x).trans (find?_bindingsOf pairs x)
  · next he =>
    rcases Nat.lt_or_ge e.index t.heap.frames.size with hlt | hge
    · exact Heap.local?_newFrame_of_lt t.heap _ _ hlt x
    · have : e.index ≠ t.heap.frames.size := fun h => he (by cases e; simp_all)
      rw [Heap.local?_of_le _ hge]
      refine Heap.local?_of_le _ ?_ x
      show (t.heap.newFrame _ _).2.frames.size ≤ _
      rw [size_newFrame]
      omega

/-- What the world with a new frame knows was known before, or it is a name that the frame binds. -/
theorem mem_world_pushFrame {t : Twin} {outer : FrameId} {pairs : List (String × Value)}
    (hn : (pairs.map Prod.fst).Nodup) {e : FrameId} {x : String} {c : CellId}
    (h : (x, c) ∈ (t.pushFrame outer pairs).world e) :
    (∃ i v, e = ⟨t.heap.frames.size⟩ ∧ pairs[i]? = some (x, v) ∧
      c = ⟨t.lexical.cells.size + i⟩ ∧ (t.pushFrame outer pairs).heap.local? e x = some v) ∨
    (x, c) ∈ t.world e ∧ (t.pushFrame outer pairs).heap.local? e x = t.heap.local? e x := by
  simp only [local?_pushFrame]
  simp only [Twin.pushFrame] at h
  split at h
  · next he =>
    obtain ⟨i, v, hi, rfl⟩ := mem_newLocals h
    have hm : (x, v) ∈ pairs.reverse := by simpa using List.mem_of_getElem? hi
    have hlookup : pairs.reverse.lookup x = some v :=
      lookup_of_mem (by simpa [List.map_reverse] using hn) hm
    exact .inl ⟨i, v, he, hi, rfl, by simpa [he] using hlookup⟩
  · next he => exact .inr ⟨h, by simp [he]⟩

/-- The new frame binds its names to what their cells hold, and the old ones are as they were. -/
theorem Sound.pushFrame {t : Twin} (ht : t.Sound) (outer : FrameId)
    {pairs : List (String × Value)} (hn : (pairs.map Prod.fst).Nodup)
    (hv : ∀ x v, (x, v) ∈ pairs → t.Holds v)
    (hthis : ∀ v, ("this", v) ∈ pairs → ∃ o, v = .instance o)
    (hsuper : ∀ v, ("super", v) ∈ pairs → ∃ k, v = .class k) : (t.pushFrame outer pairs).Sound := by
  have hl := pushFrame_leads t outer pairs
  have hcells : (t.pushFrame outer pairs).lexical.cells =
      t.lexical.cells ++ (pairs.map Prod.snd).toArray := rfl
  constructor
  case machine =>
    show t.lexical.machine = _
    rw [ht.machine]
    simp only [Twin.pushFrame, Machine.withoutLocals]
    rw [Heap.withoutLocals_newFrame ht.globals]
    rfl
  case size => exact ht.size
  case globals => exact Nat.lt_of_lt_of_le ht.globals hl.frames
  case noCells =>
    intro e he
    have hs : (t.pushFrame outer pairs).heap.frames.size = t.heap.frames.size + 1 :=
      size_newFrame t.heap _ _
    have : e ≠ ⟨t.heap.frames.size⟩ := by
      rintro rfl
      rcases he with he | he
      · have := congrArg FrameId.index he
        have := ht.globals
        simp_all [Machine.globals]
      · simp only [hs] at he
        omega
    simp only [Twin.pushFrame, this, if_false]
    exact ht.noCells e (he.imp_right fun h => by omega)
  case nodup =>
    intro e
    simp only [Twin.pushFrame]
    split
    · rw [newLocals_fst]
      exact List.nodup_reverse.2 hn
    · exact ht.nodup e
  case apart =>
    intro e e' x x' c h h'
    -- A new cell lies behind all old ones, so the two names are both new or both old.
    obtain ⟨i, v, rfl, hi, rfl, -⟩ | ⟨h, -⟩ := mem_world_pushFrame hn h
    · obtain ⟨j, v', rfl, hj, hc, -⟩ | ⟨h', -⟩ := mem_world_pushFrame hn h'
      · have hij : i = j := by simpa using hc
        subst hij
        rw [hi] at hj
        cases hj
        exact ⟨rfl, rfl⟩
      · have hlt : t.lexical.cells.size + i < t.lexical.cells.size := ht.lt_cells h'
        omega
    · obtain ⟨j, v', -, -, rfl, -⟩ | ⟨h', -⟩ := mem_world_pushFrame hn h'
      · have hlt : t.lexical.cells.size + j < t.lexical.cells.size := ht.lt_cells h
        omega
      · exact ht.apart h h'
  case cell =>
    intro e x c h
    rw [hcells]
    obtain ⟨i, v, -, hi, rfl, hx⟩ | ⟨h, hx⟩ := mem_world_pushFrame hn h
    · refine ⟨v, hx, ?_⟩
      rw [Array.getElem?_append_right (Nat.le_add_right _ _)]
      simp [hi]
    · obtain ⟨v, hv, hc⟩ := ht.cell h
      refine ⟨v, hx.trans hv, ?_⟩
      rw [Array.getElem?_append_left (ht.lt_cells h), hc]
  case this =>
    intro e c h
    obtain ⟨i, v, -, hi, -, hx⟩ | ⟨h, hx⟩ := mem_world_pushFrame hn h
    · obtain ⟨o, rfl⟩ := hthis v (List.mem_of_getElem? hi)
      exact ⟨o, hx⟩
    · rw [hx]
      exact ht.this h
  case super =>
    intro e c h
    obtain ⟨i, v, -, hi, -, hx⟩ | ⟨h, hx⟩ := mem_world_pushFrame hn h
    · obtain ⟨k, rfl⟩ := hsuper v (List.mem_of_getElem? hi)
      exact ⟨k, hx⟩
    · rw [hx]
      exact ht.super h
  case locals =>
    intro e x v h
    rw [local?_pushFrame] at h
    split at h
    · exact hl.holds (hv x v (by simpa using mem_of_lookup h))
    · exact hl.holds (ht.locals h)
  case fields => exact fun h => hl.holds (ht.fields h)
  case methods => exact fun h => hl.method (ht.methods h)

end Twin

end Lox.Lexical

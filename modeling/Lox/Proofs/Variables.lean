import Lox.Proofs.Twins

/-!
# Writing twins' variables

A local variable is written in its frame and in its cell, a global one in the two global frames. A
declaration first makes a cell, which no frame has yet, and adds it to what its frame has declared
once the variable has its value.
-/

namespace Lox.Lexical.Twin

/-- A cell that no frame has declared. -/
def Free (t : Twin) (c : CellId) : Prop :=
  c.index < t.lexical.cells.size ∧ ∀ e x, (x, c) ∉ t.world e

theorem Leads.free {t u : Twin} {grows : Bool} (h : Leads grows t u) {c : CellId}
    (hc : t.Free c) : u.Free c := by
  refine ⟨hc.1.trans_le h.cells, fun e x hx => ?_⟩
  rcases h.fresh hx with hx | hx
  · exact hc.2 e x hx
  · exact absurd hc.1 (Nat.not_lt.2 hx)

/-- Writes a variable in a frame and its value in a cell. -/
def write (t : Twin) (e : FrameId) (x : String) (c : CellId) (v : Value) : Twin :=
  { t with
    machine := { t.machine with heap := t.machine.heap.define e x v }
    lexical := { t.lexical with cells := t.lexical.cells.setIfInBounds c.index v } }

theorem write_leads (t : Twin) (e : FrameId) {x : String} (hx : IsName x) (c : CellId) (v : Value) :
    Leads false t (t.write e x c v) where
  frames := by simp [write, heap]
  enclosing p _ := Heap.enclosing?_define t.machine.heap e p x v
  closures := le_rfl
  closure _ _ := ⟨rfl, rfl⟩
  distances := rfl
  next := rfl
  frame := rfl
  world _ _ := List.suffix_rfl
  kept _ _ _ := rfl
  bound _ hy hb :=
    (Heap.local?_define_of_ne t.machine.heap e _ v (by rintro rfl; exact hy hx)).trans hb
  cells := by simp [write]
  fresh h := .inl h

/-- The cell and the variable belong together, or neither belongs to anything. -/
theorem Sound.write {t : Twin} (ht : t.Sound) {e : FrameId} {x : String} {c : CellId} {v : Value}
    (he : e.index < t.heap.frames.size) (hg : e ≠ Machine.globals) (hx : IsName x)
    (hc : c.index < t.lexical.cells.size)
    (hown : ∀ {p y k}, (y, k) ∈ t.world p → (k = c ↔ e = p ∧ x = y)) (hv : t.Holds v) :
    (t.write e x c v).Sound := by
  have hl := write_leads t e hx c v
  have hlocal : ∀ p y, (t.write e x c v).heap.local? p y =
      if e = p ∧ x = y then some v else t.heap.local? p y :=
    fun p y => Heap.local?_define t.machine.heap he p x y v
  constructor
  case machine =>
    show t.lexical.machine = _
    rw [ht.machine]
    simp only [Twin.write, Machine.withoutLocals, Heap.withoutLocals_define_of_ne hg]
  case size => exact ht.size
  case globals => exact Nat.lt_of_lt_of_le ht.globals hl.frames
  case noCells =>
    intro p hp
    refine ht.noCells p (hp.imp_right fun h => ?_)
    simpa [Twin.write, heap] using h
  case nodup => exact ht.nodup
  case apart => exact ht.apart
  case cell =>
    intro p y k hk
    rw [hlocal]
    by_cases hpy : e = p ∧ x = y
    · obtain rfl := (hown hk).2 hpy
      exact ⟨v, if_pos hpy, by simp [Twin.write, hc]⟩
    · -- Another variable has another cell, which the write leaves alone.
      obtain ⟨w, hw, hcell⟩ := ht.cell hk
      refine ⟨w, by rw [if_neg hpy, hw], ?_⟩
      have : c.index ≠ k.index := fun h =>
        hpy ((hown hk).1 (by cases c; cases k; simp_all))
      simpa [Twin.write, this] using hcell
  case this =>
    intro p k hk
    rw [hlocal, if_neg fun h => hx.1 h.2]
    exact ht.this hk
  case super =>
    intro p k hk
    rw [hlocal, if_neg fun h => hx.2 h.2]
    exact ht.super hk
  case locals =>
    intro p y w hw
    rw [hlocal] at hw
    split at hw
    · cases hw
      exact hl.holds hv
    · exact hl.holds (ht.locals hw)
  case fields => exact fun h => hl.holds (ht.fields h)
  case methods => exact fun h => hl.method (ht.methods h)

theorem Sound.owns {t : Twin} (ht : t.Sound) {e : FrameId} {x : String} {c : CellId}
    (h : (x, c) ∈ t.world e) {p : FrameId} {y : String} {k : CellId} (hk : (y, k) ∈ t.world p) :
    k = c ↔ e = p ∧ x = y := by
  constructor
  · rintro rfl
    exact ht.apart h hk
  · rintro ⟨rfl, rfl⟩
    have hk := lookup_of_mem (ht.nodup e) hk
    have hc := lookup_of_mem (ht.nodup e) h
    exact Option.some.inj (hk.symm.trans hc)

theorem Free.owns {t : Twin} {c : CellId} (hc : t.Free c) {e : FrameId} {x : String}
    (hx : x ∉ (t.world e).map Prod.fst) {p : FrameId} {y : String} {k : CellId}
    (hk : (y, k) ∈ t.world p) : k = c ↔ e = p ∧ x = y := by
  constructor
  · rintro rfl
    exact absurd hk (hc.2 p y)
  · rintro ⟨rfl, rfl⟩
    exact absurd (List.mem_map_of_mem hk) hx

/-- Adds a variable with its cell to what a frame has declared. -/
def declare (t : Twin) (e : FrameId) (x : String) (c : CellId) : Twin :=
  { t with world := fun p => if p = e then (x, c) :: t.world e else t.world p }

theorem declare_world_suffix (t : Twin) (e : FrameId) (x : String) (c : CellId) (p : FrameId) :
    t.world p <:+ (t.declare e x c).world p := by
  simp only [declare]
  split
  · next h => exact h ▸ List.suffix_cons _ _
  · exact List.suffix_rfl

theorem stands_declare {t : Twin} (e : FrameId) (x : String) (c : CellId) {p : FrameId}
    {scopes : Scopes} {locals : Locals} (hs : Stands t.heap t.world p scopes locals) :
    Stands t.heap (t.declare e x c).world p scopes locals := by
  induction hs with
  | globals => exact .globals
  | inside hown hp _ ih => exact .inside (hown.trans (declare_world_suffix t e x c _)) hp ih

theorem holds_declare {t : Twin} (e : FrameId) (x : String) (c : CellId) {v : Value}
    (hv : t.Holds v) : (t.declare e x c).Holds v := by
  intro f hf
  obtain ⟨hlt, scopes, hs, hd⟩ := hv f hf
  exact ⟨hlt, scopes, stands_declare e x c hs, hd⟩

/-- A statement declares in the current frame, with a cell made since it began. -/
theorem Leads.declare {t u : Twin} (h : Leads true t u) {x : String} {c : CellId}
    (hc : t.lexical.cells.size ≤ c.index) : Leads true t (u.declare t.machine.frame x c) where
  frames := h.frames
  enclosing := h.enclosing
  closures := h.closures
  closure := h.closure
  distances := h.distances
  next := h.next
  frame := h.frame
  world e he := (h.world e he).trans (declare_world_suffix u _ x c e)
  kept e he hg := by
    simp only [Twin.declare, hg rfl, if_false]
    exact h.kept e he hg
  bound := h.bound
  cells := h.cells
  fresh {e y k} hk := by
    simp only [Twin.declare] at hk
    split at hk
    · next he =>
      subst he
      rcases List.mem_cons.1 hk with hk | hk
      · cases hk
        exact .inr hc
      · exact h.fresh hk
    · exact h.fresh hk

theorem Sound.declare {t : Twin} (ht : t.Sound) {e : FrameId} {x : String} {c : CellId} {v : Value}
    (he : e.index < t.heap.frames.size) (hg : e ≠ Machine.globals) (hx : IsName x)
    (hc : t.Free c) (hfresh : x ∉ (t.world e).map Prod.fst)
    (hlocal : t.heap.local? e x = some v) (hcell : t.lexical.cells[c.index]? = some v) :
    (t.declare e x c).Sound := by
  have hmem : ∀ {p y k}, (y, k) ∈ (t.declare e x c).world p →
      (p = e ∧ y = x ∧ k = c) ∨ (y, k) ∈ t.world p := by
    intro p y k hk
    simp only [Twin.declare] at hk
    split at hk
    · next hp =>
      subst hp
      rcases List.mem_cons.1 hk with hk | hk
      · cases hk
        exact .inl ⟨rfl, rfl, rfl⟩
      · exact .inr hk
    · exact .inr hk
  constructor
  case machine => exact ht.machine
  case size => exact ht.size
  case globals => exact ht.globals
  case noCells =>
    intro p hp
    have : p ≠ e := by
      rintro rfl
      rcases hp with hp | hp
      · exact hg hp
      · exact Nat.not_lt.2 hp he
    simp only [Twin.declare, this, if_false]
    exact ht.noCells p hp
  case nodup =>
    intro p
    simp only [Twin.declare]
    split
    · exact List.nodup_cons.2 ⟨hfresh, ht.nodup e⟩
    · exact ht.nodup p
  case apart =>
    intro p p' y y' k h h'
    rcases hmem h with ⟨rfl, rfl, rfl⟩ | hk
    · rcases hmem h' with ⟨rfl, rfl, -⟩ | hk'
      · exact ⟨rfl, rfl⟩
      · exact absurd hk' (hc.2 _ _)
    · rcases hmem h' with ⟨rfl, rfl, rfl⟩ | hk'
      · exact absurd hk (hc.2 _ _)
      · exact ht.apart hk hk'
  case cell =>
    intro p y k h
    rcases hmem h with ⟨rfl, rfl, rfl⟩ | h
    · exact ⟨v, hlocal, hcell⟩
    · exact ht.cell h
  case this =>
    intro p k h
    rcases hmem h with ⟨-, h, -⟩ | h
    · exact absurd h.symm hx.1
    · exact ht.this h
  case super =>
    intro p k h
    rcases hmem h with ⟨-, h, -⟩ | h
    · exact absurd h.symm hx.2
    · exact ht.super h
  case locals => exact fun h => holds_declare e x c (ht.locals h)
  case fields => exact fun h => holds_declare e x c (ht.fields h)
  case methods =>
    intro k y f hf
    obtain ⟨hlt, hi, scopes, hs, hd⟩ := ht.methods hf
    exact ⟨hlt, hi, scopes, stands_declare e x c hs, hd⟩

/-- A cell that belongs to nothing yet. -/
def pushCell (t : Twin) (v : Value) : Twin :=
  { t with lexical := { t.lexical with cells := t.lexical.cells.push v } }

theorem pushCell_leads (t : Twin) (v : Value) : Leads false t (t.pushCell v) where
  frames := le_rfl
  enclosing _ _ := rfl
  closures := le_rfl
  closure _ _ := ⟨rfl, rfl⟩
  distances := rfl
  next := rfl
  frame := rfl
  world _ _ := List.suffix_rfl
  kept _ _ _ := rfl
  bound _ _ h := h
  cells := by simp [pushCell]
  fresh h := .inl h

theorem Sound.pushCell {t : Twin} (ht : t.Sound) (v : Value) : (t.pushCell v).Sound :=
  { ht with
    cell := by
      intro e x c h
      obtain ⟨w, hw, hc⟩ := ht.cell h
      refine ⟨w, hw, ?_⟩
      simp only [Twin.pushCell, Array.getElem?_push]
      rw [if_neg (Nat.ne_of_lt (ht.lt_cells h)), hc]
    locals := fun h => (pushCell_leads t v).holds (ht.locals h)
    fields := fun h => (pushCell_leads t v).holds (ht.fields h)
    methods := fun h => (pushCell_leads t v).method (ht.methods h) }

theorem Sound.free_pushCell {t : Twin} (ht : t.Sound) (v : Value) :
    (t.pushCell v).Free ⟨t.lexical.cells.size⟩ := by
  refine ⟨by simp [Twin.pushCell], fun e x h => ?_⟩
  have := ht.lt_cells h
  simp at this

def defineGlobal (t : Twin) (x : String) (v : Value) : Twin :=
  { t with
    machine := { t.machine with heap := t.machine.heap.define Machine.globals x v }
    lexical := { t.lexical with
      machine := { t.lexical.machine with
        heap := t.lexical.machine.heap.define Machine.globals x v } } }

theorem defineGlobal_leads (t : Twin) (x : String) (v : Value) :
    Leads false t (t.defineGlobal x v) where
  frames := by simp [defineGlobal, heap]
  enclosing p _ := Heap.enclosing?_define t.machine.heap _ p x v
  closures := le_rfl
  closure _ _ := ⟨rfl, rfl⟩
  distances := rfl
  next := rfl
  frame := rfl
  world _ _ := List.suffix_rfl
  kept _ _ _ := rfl
  bound he _ hb := by
    have hne := fun h => he (Eq.symm h)
    simp only [Heap.local?, heap, Heap.frame_define, defineGlobal] at hb ⊢
    rwa [if_neg fun h => hne h.1]
  cells := le_rfl
  fresh h := .inl h

theorem Sound.defineGlobal {t : Twin} (ht : t.Sound) (x : String) {v : Value} (hv : t.Holds v) :
    (t.defineGlobal x v).Sound := by
  have hl := defineGlobal_leads t x v
  have hlocal : ∀ p y, (t.defineGlobal x v).heap.local? p y =
      if Machine.globals = p ∧ x = y then some v else t.heap.local? p y :=
    fun p y => Heap.local?_define t.machine.heap ht.globals p x y v
  have hne : ∀ {p y k}, (y, k) ∈ t.world p → Machine.globals ≠ p := by
    rintro p y k h rfl
    rw [ht.noCells _ (.inl rfl)] at h
    cases h
  have hkept : ∀ {p y z k}, (y, k) ∈ t.world p →
      (t.defineGlobal x v).heap.local? p z = t.heap.local? p z := by
    intro p y z k h
    rw [hlocal, if_neg fun h' => hne h h'.1]
  constructor
  case machine =>
    simp only [Twin.defineGlobal, ht.machine, Machine.withoutLocals]
    rw [← Heap.withoutLocals_define (show 0 < t.machine.heap.frames.size from ht.globals)]
  case size => exact ht.size
  case globals => exact Nat.lt_of_lt_of_le ht.globals hl.frames
  case noCells =>
    intro p hp
    refine ht.noCells p (hp.imp_right fun h => ?_)
    simpa [Twin.defineGlobal, heap] using h
  case nodup => exact ht.nodup
  case apart => exact ht.apart
  case cell =>
    intro p y k h
    rw [hkept h]
    exact ht.cell h
  case this =>
    intro p k h
    rw [hkept h]
    exact ht.this h
  case super =>
    intro p k h
    rw [hkept h]
    exact ht.super h
  case locals =>
    intro p y w hw
    rw [hlocal] at hw
    split at hw
    · cases hw
      exact hl.holds hv
    · exact hl.holds (ht.locals hw)
  case fields => exact fun h => hl.holds (ht.fields h)
  case methods => exact fun h => hl.method (ht.methods h)

end Lox.Lexical.Twin

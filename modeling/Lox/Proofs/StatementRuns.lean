import Lox.Proofs.ObjectRuns

/-!
# Steps of twins on scopes

Where a statement stands, going into a frame and coming back, and declaring a name. A local
declaration has its cell before its value is known, and the frame has the name only from then on: until
the value is there the cell belongs to nothing, and the twins take it over when the name is defined.
-/

namespace Lox.Lexical

open Twin (Leads)

variable {t : SoundTwin}

/-- Where a statement stands: at the top, or in a frame whose scope has all that it has declared. -/
inductive At (t : Twin) : Scopes → Scope → Prop
  | top : t.machine.frame = Machine.globals → At t [] .top
  | inside {own : Locals} {outer : FrameId} {scopes : Scopes} {locals : Locals} :
      t.world t.machine.frame = own → t.heap.enclosing? t.machine.frame = some outer →
      Stands t.heap t.world outer scopes locals →
      At t (own.map Prod.fst :: scopes) (.inside (own ++ locals))

theorem At.stands {t : Twin} {scopes : Scopes} {scope : Scope} (h : At t scopes scope) :
    Stands t.heap t.world t.machine.frame scopes scope.locals := by
  cases h with
  | top hf => exact hf ▸ .globals
  | inside hw he hs => exact .inside (hw ▸ List.suffix_rfl) he hs

/-- A new frame has declared all that its scope has. -/
theorem At.of_stands {t : Twin} {e : FrameId} {names : List String} {scopes : Scopes}
    {locals : Locals} (he : t.machine.frame = e)
    (hs : Stands t.heap t.world e (names :: scopes) locals)
    (hl : (t.world e).length = names.length) : At t (names :: scopes) (.inside locals) := by
  cases hs with
  | inside hown hp hs =>
    subst he
    rw [List.length_map] at hl
    exact .inside (hown.eq_of_length hl.symm).symm hp hs

theorem At.place {scopes : Scopes} {scope : Scope} (h : At t.1 scopes scope) :
    Place t.1 scopes none scope.locals :=
  .settled h.stands

theorem At.after {u : SoundTwin} (h : Leads false t.1 u.1) {scopes : Scopes} {scope : Scope}
    (ha : At t.1 scopes scope) : At u.1 scopes scope := by
  cases ha with
  | top hf => exact .top (h.frame.trans hf)
  | inside hw he hs =>
    have hlt := Heap.lt_of_enclosing? he
    refine .inside ?_ ?_ (h.stands hs)
    · rw [h.frame, h.kept _ hlt (by simp), hw]
    · rw [h.frame, h.enclosing _ hlt, he]

/-! ### Frames -/

/-- The same way of ending, with a value that can be called if it is a function. -/
def SameFlow (f g : Flow) (t : SoundTwin) : Prop := f = g ∧ ∀ v, f = .return v → t.1.Holds v

def Twin.enter (t : Twin) (e : FrameId) : Twin := { t with machine := { t.machine with frame := e } }

theorem Twin.Sound.enter {t : Twin} (h : t.Sound) (e : FrameId) : (t.enter e).Sound :=
  ⟨h.machine, h.size, h.globals, h.noCells, h.nodup, h.apart, h.cell, h.this, h.super, h.locals,
    h.fields, h.methods⟩

/-- What runs in a frame that is newer than `base` changes no frame of `base`. -/
theorem runs_withFrame {base : SoundTwin} {e : FrameId} {act : Exec Flow} {other : Run Flow}
    (hb : Leads false base.1 t.1) (he : base.1.heap.frames.size ≤ e.index)
    (h : (twins true).Runs ⟨_, t.2.enter e⟩ act other SameFlow) :
    (twins false).RunsFrom base t (Exec.withFrame e act) other SameFlow := by
  -- Seen from the base, the body declared in a frame that was not yet there.
  have back : ∀ q : SoundTwin, Leads true (t.1.enter e) q.1 →
      Leads false base.1 (q.1.enter t.1.machine.frame) := fun q hq =>
    { frames := hb.frames.trans hq.frames
      enclosing := fun p hp =>
        (hq.enclosing p (hp.trans_le hb.frames)).trans (hb.enclosing p hp)
      closures := hb.closures.trans hq.closures
      closure := fun f hf =>
        have hb' := hb.closure f hf
        have hq' := hq.closure f (hf.trans_le hb.closures)
        ⟨hq'.1.trans hb'.1, hq'.2.trans hb'.2⟩
      distances := hq.distances.trans hb.distances
      next := hq.next.trans hb.next
      frame := hb.frame
      world := fun p hp => (hb.world p hp).trans (hq.world p (hp.trans_le hb.frames))
      kept := fun p hp hg => by
        refine (hq.kept p (hp.trans_le hb.frames) fun _ => ?_).trans (hb.kept p hp hg)
        rintro rfl
        exact Nat.not_lt.2 he hp
      bound := fun he hx hb' => hq.bound he hx (hb.bound he hx hb')
      cells := hb.cells.trans hq.cells
      fresh := fun hx => by
        rcases hq.fresh hx with hx | hx
        · exact hb.fresh hx
        · exact .inr (hb.cells.trans hx) }
  have h := h fun _ _ _ => id
  intro _
  simp only [twins, Exec.withFrame] at h ⊢
  have hin : (t.1.enter e).machine = { t.1.machine with frame := e } := rfl
  have hlex : (t.1.enter e).lexical = t.1.lexical := rfl
  rw [hin, hlex] at h
  split at h
  · obtain ⟨q, rfl, rfl, hq, hf, hv⟩ := h
    simp only [*]
    exact ⟨⟨_, q.2.enter t.1.machine.frame⟩, rfl, rfl, back q hq, rfl, hf ▸ hv⟩
  · obtain ⟨⟨rfl, hs⟩, q, rfl, rfl, hq⟩ := h
    simp only [*]
    exact ⟨⟨trivial, trivial⟩, ⟨_, q.2.enter t.1.machine.frame⟩, rfl, rfl, back q hq⟩
  · exact h.elim

/-- An initializer gives back what its closure has bound to `this`. -/
theorem runs_receiver {e : FrameId} {scopes : Scopes} {locals : Locals}
    (hs : Stands t.1.heap t.1.world e scopes locals) (hh : scopes.head? = some ["this"]) :
    (twins false).Runs t (Exec.ask fun m => m.heap.getAt e 0 "this") (receiver locals) Same := by
  obtain ⟨outer, rfl⟩ : ∃ outer, scopes = ["this"] :: outer := by
    cases scopes with
    | nil => cases hh
    | cons names outer => exact ⟨outer, by simpa using hh⟩
  have hd : Scopes.distance? (["this"] :: outer) "this" = some 0 := by
    simp [Scopes.distance?_cons]
  obtain ⟨p, c, hp, hc, hl⟩ := hs.find hd
  unfold receiver
  rw [hl]
  exact (runs_getAt (fun _ => e) hp hc).imp fun _ _ _ _ h => h.1

/-! ### Declarations -/

/-- A global variable is defined in the global frames of both machines. -/
theorem runs_defineTop (hf : t.1.machine.frame = Machine.globals) (name : Token) {v : Value}
    (hv : t.1.Holds v) :
    (twins false).Runs t (Exec.define name.lexeme v) (define .top name v) fun _ _ _ => True := by
  refine .of_ok (a := ()) (b := ()) ⟨_, t.2.defineGlobal name.lexeme hv⟩ ?_ ?_
    (Twin.defineGlobal_leads t.1 name.lexeme v) trivial
  · have : t.1.machine.heap.define t.1.machine.frame name.lexeme v =
        t.1.machine.heap.define Machine.globals name.lexeme v := by rw [hf]
    simp only [twins, Exec.define, this]
    rfl
  · have hf : t.1.lexical.machine.frame = Machine.globals := by
      rw [t.2.machine]
      rfl
    have : t.1.lexical.machine.heap.define t.1.lexical.machine.frame name.lexeme v =
        t.1.lexical.machine.heap.define Machine.globals name.lexeme v := by rw [hf]
    simp only [twins, define, onMachine, Exec.define, this]
    rfl

/-- Where a local variable is about to be defined: its name is new to the scope, and its cell belongs
to nothing. -/
structure Introduces (t : Twin) (scopes : Scopes) (locals : Locals) (x : String) (c : CellId) :
    Prop where
  scope : At t scopes (.inside locals)
  name : IsName x
  fresh : scopes.Fresh x
  free : t.Free c

/-- The frame has declared the name, which has no value yet. -/
def Twin.introduce (t : Twin) (x : String) (c : CellId) : Twin :=
  (t.write t.machine.frame x c .nil).declare t.machine.frame x c

namespace Introduces

variable {scopes : Scopes} {locals : Locals} {x : String} {c : CellId}

theorem after {u : SoundTwin} (h : Introduces t.1 scopes locals x c) (hu : Leads false t.1 u.1) :
    Introduces u.1 scopes locals x c :=
  ⟨h.scope.after hu, h.name, h.fresh, hu.free h.free⟩

theorem place (h : Introduces t.1 scopes locals x c) :
    Place t.1 (scopes.declare x) (scopes.pending x) ((x, c) :: locals) := by
  obtain ⟨ha, hx, hn, hc⟩ := h
  cases ha with
  | inside hw he hs =>
    subst hw
    exact .pending (.inside List.suffix_rfl he hs) hx hn hc

theorem sound (h : Introduces t.1 scopes locals x c) : (t.1.introduce x c).Sound := by
  obtain ⟨ha, hx, hn, hc⟩ := h
  cases ha with
  | inside hw he hs =>
    subst hw
    have hlt := Heap.lt_of_enclosing? he
    have hg : t.1.machine.frame ≠ Machine.globals := fun h => by
      rw [h] at he
      exact absurd (Heap.enclosing?_lt he) (Nat.not_lt_zero _)
    have hl := Twin.write_leads t.1 t.1.machine.frame hx c .nil
    have hs := t.2.write hlt hg hx hc.1 (fun hk => hc.owns hn hk)
      Twin.holds_nil
    refine hs.declare (v := .nil) (hlt.trans_le hl.frames) hg hx (hl.free hc) hn ?_ ?_
    · exact (Heap.local?_define t.1.heap hlt _ x x .nil).trans (by simp)
    · simp [Twin.write, hc.1]

theorem leads (h : Introduces t.1 scopes locals x c) {base : Twin} (hb : Leads true base t.1)
    (hc : base.lexical.cells.size ≤ c.index) : Leads true base (t.1.introduce x c) := by
  have hl := hb.trans ((Twin.write_leads t.1 t.1.machine.frame h.name c .nil).loud)
  have hf : base.machine.frame = t.1.machine.frame := hb.frame.symm
  unfold Twin.introduce
  rw [← hf]
  rw [← hf] at hl
  exact hl.declare hc

theorem holds (h : Introduces t.1 scopes locals x c) {v : Value} (hv : t.1.Holds v) :
    (t.1.introduce x c).Holds v :=
  Twin.holds_declare _ x c ((Twin.write_leads t.1 _ h.name c .nil).holds hv)

theorem introduced (h : Introduces t.1 scopes locals x c) :
    At (t.1.introduce x c) (scopes.declare x) (.inside ((x, c) :: locals)) := by
  obtain ⟨ha, hx, hn, hc⟩ := h
  have hl := Twin.write_leads t.1 t.1.machine.frame hx c .nil
  cases ha with
  | @inside own outer scopes locals hw he hs =>
    have hlt := Heap.lt_of_enclosing? he
    show At _ (((x, c) :: own).map Prod.fst :: scopes) (.inside (((x, c) :: own) ++ locals))
    refine .inside ?_ ((hl.enclosing _ hlt).trans he) (Twin.stands_declare _ x c (hl.stands hs))
    simp [Twin.introduce, Twin.declare, Twin.write, hw]

end Introduces

/-- Both machines define the variable, whose value may already see it. -/
theorem runs_defineLocal {base : SoundTwin} {scopes : Scopes} {locals : Locals} {name : Token}
    {c : CellId} {v : Value} (h : Introduces t.1 scopes locals name.lexeme c)
    (hb : Leads true base.1 t.1) (hc : base.1.lexical.cells.size ≤ c.index)
    (hv : (t.1.introduce name.lexeme c).Holds v) :
    (twins true).RunsFrom base t (Exec.define name.lexeme v)
      (define (.inside ((name.lexeme, c) :: locals)) name v) fun _ _ u =>
        At u.1 (scopes.declare name.lexeme) (.inside ((name.lexeme, c) :: locals)) ∧
          (name.lexeme, c) ∈ u.1.world u.1.machine.frame := by
  have hs := h.sound
  have hmem : (name.lexeme, c) ∈ (t.1.introduce name.lexeme c).world t.1.machine.frame := by
    simp [Twin.introduce, Twin.declare]
  have hg : t.1.machine.frame ≠ Machine.globals := fun hg => by
    rw [hg, hs.noCells _ (.inl rfl)] at hmem
    cases hmem
  have hl := Twin.write_leads (t.1.introduce name.lexeme c) t.1.machine.frame h.name c v
  have hw := hs.write (hs.lt_of_mem hmem) hg h.name (hs.lt_cells hmem)
    (fun hk => hs.owns hmem hk) hv
  refine .of_ok (a := ()) (b := ()) ⟨_, hw⟩ ?_ ?_ ((h.leads hb hc).trans hl.loud)
    ⟨At.after (t := ⟨_, hs⟩) hl h.introduced, hmem⟩
  · simp only [twins, Exec.define, Twin.write, Twin.introduce, Twin.declare,
      Heap.define_define]
  · simp [twins, define, assign, writeCell, Twin.write, Twin.introduce, Twin.declare]

/-- A name that the current frame has declared is overwritten there. -/
theorem runs_assignHere {name : Token} {c : CellId} {v : Value} (locals : Locals)
    (hmem : (name.lexeme, c) ∈ t.1.world t.1.machine.frame) (hx : IsName name.lexeme)
    (hv : t.1.Holds v) :
    (twins false).Runs t (Exec.assignFrom t.1.machine.frame name v)
      (assign ((name.lexeme, c) :: locals) name v) fun _ _ _ => True := by
  have hg : t.1.machine.frame ≠ Machine.globals := fun hg => by
    rw [hg, t.2.noCells _ (.inl rfl)] at hmem
    cases hmem
  obtain ⟨w, hw, -⟩ := t.2.cell hmem
  have hh : t.1.machine.heap.holder? t.1.machine.frame name.lexeme = some t.1.machine.frame :=
    Heap.holder?_self (by rw [show t.1.machine.heap = t.1.heap from rfl, hw]; rfl)
  refine .of_ok (a := ()) (b := ()) ⟨_, t.2.write (t.2.lt_of_mem hmem) hg hx (t.2.lt_cells hmem)
    (fun hk => t.2.owns hmem hk) hv⟩ ?_ ?_ (Twin.write_leads t.1 _ hx c v) trivial
  · simp only [twins, Exec.assignFrom, hh]
    rfl
  · simp [twins, assign, writeCell, Twin.write]

/-- A function that a declaration has just made sees its own name. -/
theorem Introduces.holds_self {u : SoundTwin} {decl : FunDecl} {scopes : Scopes} {locals : Locals}
    {x : String} {c : CellId} (h : Introduces t.1 scopes locals x c)
    (hd : decl.Scoped t.1.far (scopes.declare x)) (hl : Leads false t.1 u.1)
    (hu : u.1 = t.1.pushClosures #[⟨decl, t.1.machine.frame, false⟩] #[(x, c) :: locals]
      t.1.heap.classes t.1.heap.instances) :
    (u.1.introduce x c).Holds (.function ⟨t.1.heap.closures.size⟩) := by
  have hi := h.after hl
  have hclosure := Twin.closure_pushClosures t.1 #[⟨decl, t.1.machine.frame, false⟩]
    #[(x, c) :: locals] t.1.heap.classes t.1.heap.instances (i := 0) (by simp)
  have hcaptured := Twin.captured_pushClosures t.2 #[⟨decl, t.1.machine.frame, false⟩]
    #[(x, c) :: locals] t.1.heap.classes t.1.heap.instances (i := 0) (by simp)
  rw [← hu] at hclosure hcaptured
  intro f hf
  cases hf
  refine ⟨?_, ?_⟩
  · show _ < u.1.heap.closures.size
    rw [hu]
    simp [Twin.pushClosures, Twin.heap]
  · show (u.1.introduce x c).Callable (u.1.heap.closure _) (u.1.captured _)
    rw [Nat.add_zero] at hclosure hcaptured
    rw [hclosure, hcaptured]
    refine ⟨scopes.declare x, ?_, ?_, by simp⟩
    · have := hi.introduced.stands
      rwa [show (u.1.introduce x c).machine.frame = u.1.machine.frame from rfl, hl.frame] at this
    · have : (u.1.introduce x c).far = u.1.far := rfl
      rw [this, hl.far]
      exact hd

/-- A local declaration has a fresh cell, which belongs to nothing. -/
theorem runs_declare {α β : Type} {scopes : Scopes} {locals : Locals} {name : Token}
    (ha : At t.1 scopes (.inside locals)) (hx : IsName name.lexeme)
    (hf : scopes.Fresh name.lexeme) {act : Exec α} {other : Scope → Run β}
    {post : α → β → SoundTwin → Prop}
    (h : ∀ (q : SoundTwin) (c : CellId), Leads true t.1 q.1 → t.1.lexical.cells.size ≤ c.index →
      Introduces q.1 scopes locals name.lexeme c →
      (twins true).RunsFrom t q act (other (.inside ((name.lexeme, c) :: locals))) post) :
    (twins true).RunsFrom t t act (declare (.inside locals) name >>= other) post := by
  have hl := Twin.pushCell_leads t.1 .nil
  have hq := t.2.pushCell .nil
  refine .right (b := .inside ((name.lexeme, ⟨t.1.lexical.cells.size⟩) :: locals)) ⟨_, hq⟩ rfl rfl
    (h ⟨_, hq⟩ ⟨t.1.lexical.cells.size⟩ hl.loud le_rfl ?_)
  exact ⟨ha.after (u := ⟨_, hq⟩) hl, hx, hf, t.2.free_pushCell .nil⟩

end Lox.Lexical

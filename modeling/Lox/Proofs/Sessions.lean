import Mathlib
import Lox.Proofs.Agreement
import Lox.Proofs.Distances
import Lox.Proofs.ParsedTrees
import Lox.Session

/-!
# Sessions stay sound

Between two inputs of a session its machine has a twin. An input only adds distances of occurrences
that no earlier tree has, so the functions that are kept from earlier inputs stay scoped, and a tree
that resolves is scoped by the table as it is then. So no run complains of what only a wrong distance
could give.

The examples of sessions, here and in the modules on top of this one, are run by `cbv`. Mathlib is
imported whole for the equations of library functions which that takes.
-/

namespace Lox

open Lexical (Twin SoundTwin twins Same)
open Scope.Walk (Notes Finds)

/-- The distances of one tree and then those of another are the distances of both. -/
theorem Machine.noteAll_append (m : Machine) (notes more : Array (NodeId × Nat)) :
    (m.noteAll notes).noteAll more = m.noteAll (notes ++ more) := by
  simp only [noteAll, Array.foldl_append]

/-- The latest note about an occurrence counts, and without one what was known before. -/
theorem Machine.distances_noteAll (m : Machine) (notes : List (NodeId × Nat)) (id : NodeId) :
    (m.noteAll notes.toArray).distances[id]? =
      (notes.reverse.lookup id).or m.distances[id]? := by
  simp only [noteAll, List.foldl_toArray]
  induction notes generalizing m with
  | nil => simp
  | cons note notes ih =>
    obtain ⟨id', d⟩ := note
    rw [List.foldl_cons, ih { m with distances := m.distances.insert id' d }, List.reverse_cons,
      List.lookup_append, Std.HashMap.getElem?_insert, Option.or_assoc]
    congr 1
    by_cases h : id' = id
    · simp [h]
    · have h' : (id == id') = false := by simpa using Ne.symm h
      simp [h, h', List.lookup_cons]

/-- In a table that has nothing about the occurrences, a walk is known by what it has noted. -/
theorem Scope.Walk.Finds.of_noteAll {ids : List NodeId} {walk : Scope.Walk}
    {found : (NodeId → Option Nat → Prop) → Prop} (hf : Scope.Walk.Finds ids .start walk found)
    {m : Machine} (hm : ∀ id ∈ ids, m.distances[id]? = none) {far : NodeId → Option Nat → Prop}
    (hfar : ∀ id ∈ ids, far id (m.noteAll walk.distances).distances[id]?) : found far := by
  obtain ⟨notes, hnotes, hs⟩ := hf.of_start
  refine hs far fun id hi => ?_
  have hid := hfar id hi
  rwa [hnotes, Machine.distances_noteAll, hm id hi, Option.or_none] at hid

/-- Notes about other occurrences say nothing of this one. -/
theorem Machine.distances_noteAll_of_ne {notes : List (NodeId × Nat)} {id : NodeId}
    (h : ∀ p ∈ notes, p.1 ≠ id) (m : Machine) :
    (m.noteAll notes.toArray).distances[id]? = m.distances[id]? := by
  have hnone : notes.reverse.lookup id = none := by
    rw [List.lookup_eq_none_iff]
    intro p hp
    simpa using (h p (List.mem_reverse.1 hp)).symm
  rw [Machine.distances_noteAll, hnone, Option.none_or]

/-! ### Larger tables -/

namespace Lexical.Twin

/-- The twins when more trees have been read. -/
def knowing (t : Twin) (distances : Std.HashMap NodeId Nat) (next : Nat) : Twin :=
  { t with machine := { t.machine with distances }, next }

/-- The table tells of the trees there were what it told before. -/
structure Extends (t : Twin) (distances : Std.HashMap NodeId Nat) (next : Nat) : Prop where
  next : t.next ≤ next
  same : ∀ id : NodeId, id.index < t.next → distances[id]? = t.machine.distances[id]?

variable {t : Twin} {distances : Std.HashMap NodeId Nat} {next : Nat}

theorem Extends.far (h : t.Extends distances next) (id : NodeId) (d : Option Nat)
    (hd : t.far id d) : (t.knowing distances next).far id d :=
  ⟨hd.1.trans_le h.next, (h.same id hd.1).trans hd.2⟩

theorem Extends.holds (h : t.Extends distances next) {v : Value} (hv : t.Holds v) :
    (t.knowing distances next).Holds v := by
  intro f hf
  obtain ⟨hlt, scopes, hs, hd, hi⟩ := hv f hf
  exact ⟨hlt, scopes, hs, FunDecl.Scoped.mono h.far _ hd, hi⟩

theorem Extends.method (h : t.Extends distances next) {x : String} {f : ClosureId}
    (hf : t.Method x f) : (t.knowing distances next).Method x f := by
  obtain ⟨hlt, hi, scopes, hs, hd⟩ := hf
  exact ⟨hlt, hi, scopes, hs, FunDecl.Scoped.mono h.far _ hd⟩

theorem Sound.knowing (ht : t.Sound) (h : t.Extends distances next) :
    (t.knowing distances next).Sound where
  machine := ht.machine
  size := ht.size
  globals := ht.globals
  noCells := ht.noCells
  nodup := ht.nodup
  apart := ht.apart
  cell := ht.cell
  this := ht.this
  super := ht.super
  locals hv := h.holds (ht.locals hv)
  fields hv := h.holds (ht.fields hv)
  methods hf := h.method (ht.methods hf)

/-! ### The host -/

def newNative (t : Twin) (native : Native) : Twin :=
  { t with
    machine := { t.machine with heap := (t.machine.heap.newNative native).2 }
    lexical := { t.lexical with
      machine := { t.lexical.machine with
        heap := (t.lexical.machine.heap.newNative native).2 } } }

theorem newNative_leads (t : Twin) (native : Native) : Leads false t (t.newNative native) :=
  .of_same rfl rfl rfl rfl rfl rfl le_rfl fun _ _ => ⟨rfl, rfl⟩

theorem Sound.newNative (ht : t.Sound) (native : Native) : (t.newNative native).Sound := by
  have hl := newNative_leads t native
  refine ht.of_same hl rfl rfl rfl ?_ ht.size (fun h => hl.holds (ht.fields h))
    fun h => hl.method (ht.methods h)
  simp only [Twin.newNative, ht.machine]
  rfl

/-- The host defines a native under a name. -/
def defineNative (t : Twin) (name : String) (native : Native) : Twin :=
  (t.newNative native).defineGlobal name (.native ⟨t.machine.heap.natives.size⟩)

theorem defineNative_leads (t : Twin) (name : String) (native : Native) :
    Leads false t (t.defineNative name native) :=
  (newNative_leads t native).trans (defineGlobal_leads _ name _)

theorem Sound.defineNative (ht : t.Sound) (name : String) (native : Native) :
    (t.defineNative name native).Sound :=
  (ht.newNative native).defineGlobal name (holds_of_ne (by simp))

theorem machine_defineNative (t : Twin) (name : String) (native : Native) :
    (t.defineNative name native).machine = t.machine.defineNative name native := rfl

/-- No global yet. -/
def bare (clock : Nat → Float) (limit : Option Nat) : Twin :=
  let m : Machine :=
    ⟨(Heap.empty.newFrame none .empty).2, Machine.globals, ∅, ⟨#[], limit⟩, clock, 0⟩
  ⟨fun _ => [], m, ⟨m.withoutLocals, #[], #[]⟩, 0⟩

theorem sound_bare (clock : Nat → Float) (limit : Option Nat) : (bare clock limit).Sound where
  machine := rfl
  size := rfl
  globals := Nat.zero_lt_one
  noCells _ _ := rfl
  nodup _ := List.nodup_nil
  apart h := by cases h
  cell h := by cases h
  this h := by cases h
  super h := by cases h
  locals {e x v} h := by
    have hn : (bare clock limit).heap.local? e x = none := by
      simp only [Heap.local?, Heap.frame, heap, bare, Heap.newFrame, Heap.empty]
      rcases e with ⟨_ | e⟩ <;> rfl
    rw [hn] at h
    cases h
  fields h := by cases h
  methods h := by cases h

theorem lexical_start (clock : Nat → Float) (limit : Option Nat) :
    ((bare clock limit).defineNative Native.clock.name Native.clock).lexical =
      .start clock limit := by
  have hb : (bare clock limit).lexical = ⟨(bare clock limit).machine, #[], #[]⟩ := by
    simp [bare, Machine.withoutLocals, Heap.withoutLocals, Heap.newFrame, Heap.empty, Heap.frame,
      Machine.globals]
  simp only [Twin.defineNative, Twin.newNative, Twin.defineGlobal, hb]
  rfl

end Lexical.Twin

/-! ### Sources -/

namespace Source

theorem program?_made (source : String) (first : Nat) :
    first ≤ (program? source first).2 ∧ ∀ program, (program? source first).1 = .ok program →
      Stmt.FormedAll Token.Spelled program ∧
        Within first (program? source first).2 (Stmt.idsAll program) := by
  obtain ⟨hn, hmade⟩ := Parser.program_made first (Lexer.spelled_scan source)
  refine ⟨hn, fun program hp => hmade program ?_⟩
  unfold program? at hp
  dsimp only at hp
  split at hp
  · next hparsed =>
    cases hp
    exact hparsed
  · cases hp
  · cases hp

theorem expression?_made (source : String) (first : Nat) :
    first ≤ (expression? source first).2 ∧ ∀ e, (expression? source first).1 = .ok e →
      e.Made Token.Spelled first (expression? source first).2 := by
  unfold expression?
  rcases ht : tokens? source with errors | tokens
  · exact ⟨le_rfl, by simp⟩
  · have hs : ∀ t ∈ tokens, t.Spelled := by
      unfold tokens? at ht
      dsimp only at ht
      split at ht
      · cases ht
        exact Lexer.spelled_scan source
      · cases ht
    obtain ⟨hn, hmade⟩ := Parser.expressionOnly_made first hs
    refine ⟨hn, fun e he => hmade e ?_⟩
    dsimp only at he
    rcases hp : (Parser.expressionOnly tokens first).1 with error | e'
    · rw [hp] at he
      cases he
    · rw [hp] at he
      cases he
      rfl

theorem expression?_static {source : String} {first : Nat} {failure : Failure}
    (h : (expression? source first).1 = .error failure) : failure.isStatic = true := by
  unfold expression? at h
  split at h
  · cases h
    rfl
  · dsimp only [Except.mapError] at h
    split at h
    · cases h
      rfl
    · cases h

end Source

/-! ### Sessions -/

namespace Session

/-- What is kept from one input to the next: twins that stand at the top, ids that no tree has had,
and values that the host may define. -/
structure Carries (s : Session) (held : List Value) (t : Twin) : Prop where
  sound : t.Sound
  machine : t.machine = s.machine
  next : t.next = s.nextId
  frame : s.machine.frame = Machine.globals
  fresh : ∀ id : NodeId, s.nextId ≤ id.index → s.machine.distances[id]? = none
  held : ∀ v ∈ held, t.Holds v

variable {s : Session} {held : List Value} {t : Twin}

theorem Carries.extends (h : s.Carries held t) {next : Nat} (hn : s.nextId ≤ next)
    {notes : List (NodeId × Nat)} (hids : ∀ p ∈ notes, s.nextId ≤ p.1.index) :
    t.Extends (s.machine.noteAll notes.toArray).distances next where
  next := h.next ▸ hn
  same id hi := by
    rw [h.machine]
    refine Machine.distances_noteAll_of_ne (fun p hp => ?_) s.machine
    rintro rfl
    exact absurd (hids p hp) (Nat.not_le.2 (h.next ▸ hi))

/-- The table is taken over whether or not the input is rejected. -/
theorem Carries.noteAll (h : s.Carries held t) {next : Nat} (hn : s.nextId ≤ next)
    {notes : List (NodeId × Nat)}
    (hids : ∀ p ∈ notes, s.nextId ≤ p.1.index ∧ p.1.index < next) :
    Carries ⟨s.machine.noteAll notes.toArray, next⟩ held
      (t.knowing (s.machine.noteAll notes.toArray).distances next) where
  sound := h.sound.knowing (h.extends hn fun p hp => (hids p hp).1)
  machine := by simp only [Twin.knowing, h.machine]; rfl
  next := rfl
  frame := h.frame
  fresh id hi := by
    refine (Machine.distances_noteAll_of_ne (fun p hp => ?_) s.machine).trans
      (h.fresh id (hn.trans hi))
    rintro rfl
    exact absurd hi (Nat.not_le.2 (hids p hp).2)
  held v hv := (h.extends hn fun p hp => (hids p hp).1).holds (h.held v hv)

/-- How a request ends beside what the twin of its machine comes to. -/
def Answers {α β : Type} (twin : EStateM.Result Stop Lexical.State β)
    (post : α → β → SoundTwin → Prop) (u : SoundTwin) : Except Failure α → Prop
  | .ok a => ∃ b, twin = .ok b u.1.lexical ∧ post a b u
  | .error (.stopped stop) => twin = .error stop u.1.lexical ∧ stop.isInternal = false
  | .error _ => True

theorem Carries.perform {α β : Type} {grows : Bool} {act : Exec α} {other : Lexical.Run β}
    {post : α → β → SoundTwin → Prop} (h : s.Carries held t)
    (hr : (twins grows).Runs ⟨t, h.sound⟩ act other post) :
    ∃ u : SoundTwin, (s.perform act).2.Carries held u.1 ∧
      Answers (other t.lexical) post u (s.perform act).1 := by
  have carries : ∀ u : SoundTwin, Twin.Leads grows t u.1 →
      Carries ⟨u.1.machine, s.nextId⟩ held u.1 := by
    intro u hu
    refine ⟨u.2, rfl, hu.next.trans h.next, hu.frame.trans (h.machine ▸ h.frame), ?_,
      fun v hv => hu.holds (h.held v hv)⟩
    rw [hu.distances, h.machine]
    exact h.fresh
  have hr := hr fun _ _ _ => id
  simp only [twins, h.machine] at hr
  unfold Session.perform
  rcases ha : act s.machine with ⟨a, m⟩ | ⟨stop, m⟩ <;>
    rcases hb : other t.lexical with ⟨b, r⟩ | ⟨stop', r⟩ <;> rw [ha, hb] at hr
  · obtain ⟨u, rfl, rfl, hu, hp⟩ := hr
    exact ⟨u, carries u hu, b, rfl, hp⟩
  · exact hr.elim
  · exact hr.elim
  · obtain ⟨⟨rfl, hs⟩, u, rfl, rfl, hu⟩ := hr
    exact ⟨u, carries u hu, rfl, hs⟩

/-- A tree of new occurrences finds in the table what its own walk has noted. -/
theorem Carries.knows (h : s.Carries held t) {next : Nat} {walk : Scope.Walk} {ids : List NodeId}
    (hids : Within s.nextId next ids) {found : (NodeId → Option Nat → Prop) → Prop}
    (hf : Finds ids .start walk found) :
    found (t.knowing (s.machine.noteAll walk.distances).distances next).far := by
  exact hf.of_noteAll (fun id hi => h.fresh id (hids.2 id hi).1)
    fun id hi => ⟨(hids.2 id hi).2, rfl⟩

/-- An input whose tree has been read: if it is not rejected, it runs beside its twin. -/
theorem Carries.resolved {α β : Type} {grows : Bool} {act : Exec α} {other : Lexical.Run β}
    {post : α → β → SoundTwin → Prop} (h : s.Carries held t) {next : Nat} {walk : Scope.Walk}
    {ids : List NodeId} (hn : s.nextId ≤ next) (hids : Within s.nextId next ids)
    (hw : Notes ids .start walk)
    (hr : ∀ u : SoundTwin, u.1.machine.frame = Machine.globals → walk.errors = #[] →
      (∀ {found}, Finds ids .start walk found → found u.1.far) →
      (twins grows).Runs u act other post) :
    ∃ u : SoundTwin, (resolved ⟨s.machine, next⟩ walk act).2.Carries held u.1 ∧
      Answers (other t.lexical) post u (resolved ⟨s.machine, next⟩ walk act).1 := by
  obtain ⟨notes, hnotes, hm⟩ := hw.of_start
  have hc := h.noteAll hn fun p hp => hids.2 _ (hm p hp)
  rw [← hnotes] at hc
  unfold Session.resolved
  dsimp only
  split
  · next he =>
    have hframe : t.machine.frame = Machine.globals := by rw [h.machine, h.frame]
    exact hc.perform (hr ⟨_, hc.sound⟩ hframe (by simpa using he) (h.knows hids))
  · exact ⟨⟨_, hc.sound⟩, hc, trivial⟩

/-- Ids that were handed out for nothing. -/
theorem Carries.skip (h : s.Carries held t) {next : Nat} (hn : s.nextId ≤ next) :
    ∃ u : SoundTwin, Carries ⟨s.machine, next⟩ held u.1 := by
  have hnil : ∀ p ∈ ([] : List (NodeId × Nat)), s.nextId ≤ p.1.index ∧ p.1.index < next := by simp
  exact ⟨⟨_, (h.noteAll hn hnil).sound⟩, h.noteAll hn hnil⟩

theorem run_of_program {fuel : Nat} {source : String} {program : List Stmt}
    (h : (Source.program? source s.nextId).1 = .ok program) :
    s.run fuel source = resolved ⟨s.machine, (Source.program? source s.nextId).2⟩
      (Scope.resolve program) (interpret fuel program) := by
  simp only [Session.run, h]

theorem run_of_errors {fuel : Nat} {source : String} {errors : List Diagnostic}
    (h : (Source.program? source s.nextId).1 = .error errors) :
    s.run fuel source =
      (.error (.rejected errors), ⟨s.machine, (Source.program? source s.nextId).2⟩) := by
  simp only [Session.run, h]

theorem evaluate_of_expression {fuel : Nat} {source : String} {e : Expr}
    (h : (Source.expression? source s.nextId).1 = .ok e) :
    s.evaluate fuel source = resolved ⟨s.machine, (Source.expression? source s.nextId).2⟩
      (Scope.resolveExpression e) (e.eval fuel) := by
  simp only [Session.evaluate, h]

theorem evaluate_of_failure {fuel : Nat} {source : String} {failure : Failure}
    (h : (Source.expression? source s.nextId).1 = .error failure) :
    s.evaluate fuel source =
      (.error failure, ⟨s.machine, (Source.expression? source s.nextId).2⟩) := by
  simp only [Session.evaluate, h]

theorem resolved_of_silent {α : Type} {walk : Scope.Walk} (h : walk.errors = #[]) (act : Exec α) :
    s.resolved walk act = Session.perform ⟨s.machine.noteAll walk.distances, s.nextId⟩ act := by
  simp only [Session.resolved, h]

theorem stopped_of_perform {α : Type} {act : Exec α} {failure : Failure}
    (h : (s.perform act).1 = .error failure) : ∃ stop, failure = .stopped stop := by
  unfold Session.perform at h
  split at h <;> cases h
  exact ⟨_, rfl⟩

theorem Carries.run (h : s.Carries held t) (fuel : Nat) (source : String) :
    ∃ u, (s.run fuel source).2.Carries held u ∧
      ∀ stop, (s.run fuel source).1 = .error (.stopped stop) → stop.isInternal = false := by
  obtain ⟨hn, hmade⟩ := Source.program?_made source s.nextId
  rcases hp : (Source.program? source s.nextId).1 with errors | program
  · obtain ⟨u, hu⟩ := h.skip hn
    rw [run_of_errors hp]
    exact ⟨u.1, hu, by simp⟩
  · obtain ⟨hformed, hids⟩ := hmade program hp
    have hw : Notes _ .start (Scope.resolve program) := Stmt.notesAll program .start
    obtain ⟨u, hu, ha⟩ := h.resolved hn hids hw
      fun u hframe herrors hfinds => Lexical.runs_interpret fuel hframe
        (hfinds (Scope.finds_resolve hformed hids.1 herrors))
    rw [run_of_program hp]
    refine ⟨u.1, hu, fun stop hstop => ?_⟩
    rw [hstop] at ha
    exact ha.2

/-- The value of an expression may be kept. -/
theorem Carries.evaluate (h : s.Carries held t) (fuel : Nat) (source : String) :
    ∃ u, (s.evaluate fuel source).2.Carries
      ((s.evaluate fuel source).1.toOption.toList ++ held) u ∧
      ∀ stop, (s.evaluate fuel source).1 = .error (.stopped stop) → stop.isInternal = false := by
  obtain ⟨hn, hmade⟩ := Source.expression?_made source s.nextId
  rcases hp : (Source.expression? source s.nextId).1 with failure | e
  · obtain ⟨u, hu⟩ := h.skip hn
    have hstatic := Source.expression?_static hp
    rw [evaluate_of_failure hp]
    refine ⟨u.1, hu, ?_⟩
    rintro stop ⟨⟩
    cases hstatic
  · obtain ⟨hformed, hids⟩ := hmade e hp
    have hw : Notes _ .start (Scope.resolveExpression e) := Expr.notes e .start
    have hplace : ∀ u : SoundTwin, u.1.machine.frame = Machine.globals →
        Lexical.Place u.1 [] none [] := fun u hframe => .settled (hframe ▸ .globals)
    obtain ⟨u, hu, ha⟩ := h.resolved hn hids hw
      fun u hframe herrors hfinds => (Lexical.agrees fuel).eval (hplace u hframe)
        (hfinds (Scope.finds_resolveExpression hformed hids.1 herrors))
    rw [evaluate_of_expression hp]
    rcases hr : (Session.resolved ⟨s.machine, (Source.expression? source s.nextId).2⟩
      (Scope.resolveExpression e) (e.eval fuel)).1 with failure | v
    · rw [hr] at ha
      refine ⟨u.1, hu, fun stop hstop => ?_⟩
      cases hstop
      exact ha.2
    · rw [hr] at ha
      obtain ⟨w, -, rfl, hv⟩ := ha
      refine ⟨u.1, { hu with held := ?_ }, by simp⟩
      intro w hw
      rcases List.mem_append.1 hw with hw | hw
      · obtain rfl : w = v := by simpa [Except.toOption] using hw
        exact hv
      · exact hu.held w hw

/-- The sessions that inputs lead to when the host, between them, only defines globals: plain values,
natives of its own, and values that expressions have given it. -/
inductive Reached : Session → List Value → Prop
  | start (clock : Nat → Float) (limit : Option Nat) : Reached (.start clock limit) []
  | run {s : Session} {held : List Value} (h : Reached s held) (fuel : Nat) (source : String) :
      Reached (s.run fuel source).2 held
  | evaluate {s : Session} {held : List Value} (h : Reached s held) (fuel : Nat)
      (source : String) :
      Reached (s.evaluate fuel source).2 ((s.evaluate fuel source).1.toOption.toList ++ held)
  | define {s : Session} {held : List Value} (h : Reached s held) (name : String) {v : Value}
      (hv : v ∈ held ∨ ∃ literal, v = .ofLiteral literal) :
      Reached { s with machine := s.machine.defineGlobal name v } held
  | defineNative {s : Session} {held : List Value} (h : Reached s held) (name : String)
      (native : Native) :
      Reached { s with machine := s.machine.defineNative name native } held

theorem Carries.leads {u : Twin} (h : s.Carries held t) (hu : u.Sound)
    (hl : Twin.Leads false t u) : Carries ⟨u.machine, s.nextId⟩ held u where
  sound := hu
  machine := rfl
  next := hl.next.trans h.next
  frame := hl.frame.trans (h.machine ▸ h.frame)
  fresh id hi := by
    rw [hl.distances, h.machine]
    exact h.fresh id hi
  held v hv := hl.holds (h.held v hv)

theorem carries_start (clock : Nat → Float) (limit : Option Nat) :
    Carries (.start clock limit) []
      ((Twin.bare clock limit).defineNative Native.clock.name Native.clock) where
  sound := (Twin.sound_bare clock limit).defineNative _ _
  machine := rfl
  next := rfl
  frame := rfl
  fresh id _ := by
    show (∅ : Std.HashMap NodeId Nat)[id]? = none
    simp
  held := by simp

theorem Reached.carries (h : Reached s held) : ∃ t, s.Carries held t := by
  induction h with
  | start clock limit => exact ⟨_, carries_start clock limit⟩
  | run _ fuel source ih =>
    obtain ⟨t, ht⟩ := ih
    obtain ⟨u, hu, -⟩ := ht.run fuel source
    exact ⟨u, hu⟩
  | evaluate _ fuel source ih =>
    obtain ⟨t, ht⟩ := ih
    obtain ⟨u, hu, -⟩ := ht.evaluate fuel source
    exact ⟨u, hu⟩
  | @define s held _ name v hv ih =>
    obtain ⟨t, ht⟩ := ih
    have hholds : t.Holds v := by
      rcases hv with hv | ⟨literal, rfl⟩
      · exact ht.held v hv
      · exact Lexical.holds_ofLiteral (t := ⟨t, ht.sound⟩) literal
    have hc := ht.leads (ht.sound.defineGlobal name hholds) (t.defineGlobal_leads name v)
    refine ⟨_, { hc with machine := ?_, frame := ht.frame, fresh := ht.fresh }⟩
    simp only [Twin.defineGlobal, ht.machine]
    rfl
  | @defineNative s held _ name native ih =>
    obtain ⟨t, ht⟩ := ih
    have hc := ht.leads (ht.sound.defineNative name native) (t.defineNative_leads name native)
    refine ⟨_, { hc with machine := ?_, frame := ht.frame, fresh := ht.fresh }⟩
    rw [Twin.machine_defineNative, ht.machine]

/-- Whatever came before, and however the run ends, no jump misses its frame or its name, no `super`
stands at distance zero, and `super` is bound where it is used. -/
theorem Reached.no_internal_stop (h : Reached s held) (fuel : Nat) (source : String) :
    (∀ stop, (s.run fuel source).1 = .error (.stopped stop) → stop.isInternal = false) ∧
      ∀ stop, (s.evaluate fuel source).1 = .error (.stopped stop) → stop.isInternal = false := by
  obtain ⟨t, ht⟩ := h.carries
  obtain ⟨_, -, hrun⟩ := ht.run fuel source
  obtain ⟨_, -, hevaluate⟩ := ht.evaluate fuel source
  exact ⟨hrun, hevaluate⟩

/-- A function that one input declares and the next one calls. -/
theorem no_internal_stop_later_call :
    Reached ((start (fun _ => 0) none).run 9 "fun f() \x7b return f; \x7d").2 [] ∧
      ∀ stop, (((start (fun _ => 0) none).run 9 "fun f() \x7b return f; \x7d").2.evaluate 9
        "f()").1 = .error (.stopped stop) → stop.isInternal = false := by
  have h := Reached.run (.start (fun _ => 0) none) 9 "fun f() \x7b return f; \x7d"
  exact ⟨h, (h.no_internal_stop 9 "f()").2⟩

/-! ### Scope by name -/

/-- The first program of a session ends as it does when every name is looked up in the list of local
variables in sight, and prints the same lines. -/
theorem run_eq_runProgram {source : String} {program : List Stmt}
    (hp : (Source.program? source 0).1 = .ok program)
    (hr : (Scope.resolve program).errors = #[]) (clock : Nat → Float) (limit : Option Nat)
    (fuel : Nat) :
    (((start clock limit).run fuel source).1, ((start clock limit).run fuel source).2.printed) =
      ((Lexical.runProgram clock limit fuel program).1.mapError Failure.stopped,
        (Lexical.runProgram clock limit fuel program).2) := by
  obtain ⟨hn, hmade⟩ := Source.program?_made source 0
  obtain ⟨hformed, hids⟩ := hmade program hp
  have hw : Notes _ .start (Scope.resolve program) := Stmt.notesAll program .start
  obtain ⟨u, hu, ha⟩ := (carries_start clock limit).resolved hn hids hw
    fun u hframe herrors hfinds => Lexical.runs_interpret fuel hframe
      (hfinds (Scope.finds_resolve hformed hids.1 herrors))
  have hrun : (start clock limit).run fuel source = _ := run_of_program hp
  have hprinted : ((start clock limit).run fuel source).2.printed =
      u.1.lexical.machine.sink.lines := by
    rw [hrun, u.2.machine, hu.machine]
    rfl
  have hperform := resolved_of_silent (s := ⟨(start clock limit).machine,
    (Source.program? source 0).2⟩) hr (interpret fuel program)
  rw [hprinted, hrun]
  unfold Lexical.runProgram
  rcases ho : (resolved ⟨(start clock limit).machine, (Source.program? source 0).2⟩
    (Scope.resolve program) (interpret fuel program)).1 with failure | _
  · obtain ⟨stop, rfl⟩ := stopped_of_perform (hperform ▸ ho)
    rw [ho] at ha
    rw [← Twin.lexical_start, ha.1]
    exact Prod.ext ho rfl
  · rw [ho] at ha
    obtain ⟨b, hb, -⟩ := ha
    rw [← Twin.lexical_start, hb]
    exact Prod.ext ho rfl

/-- A variable declared in a block after a function there has captured the global one. -/
theorem run_eq_runProgram_shadowed :
    ∃ source program, (Source.program? source 0).1 = .ok program ∧
      (Scope.resolve program).errors = #[] ∧
      (((start (fun _ => 0) none).run 20 source).1,
        ((start (fun _ => 0) none).run 20 source).2.printed) =
        ((Lexical.runProgram (fun _ => 0) none 20 program).1.mapError Failure.stopped,
          (Lexical.runProgram (fun _ => 0) none 20 program).2) := by
  have hp : (Source.program? "var a; \x7b fun f() \x7b print a; \x7d var a = f; f(); \x7d" 0).1 =
      .ok [.var ⟨.identifier, "a", 1⟩ none,
        .block [
          .function ⟨⟨.identifier, "f", 1⟩, [],
            [.print (.variable ⟨0⟩ ⟨.identifier, "a", 1⟩)]⟩,
          .var ⟨.identifier, "a", 1⟩ (some (.variable ⟨1⟩ ⟨.identifier, "f", 1⟩)),
          .expression (.call (.variable ⟨2⟩ ⟨.identifier, "f", 1⟩)
            ⟨.punct .rightParen, ")", 1⟩ [])]] := by
    cbv
  exact ⟨_, _, hp, by decide, run_eq_runProgram hp (by decide) _ _ _⟩

end Session

end Lox

import Lox.Proofs.Sessions
import Lox.Proofs.TracedTrees

/-!
# Traced sessions

A session with a trace answers every input as the session without one, and all that runs in it is as
it should be: code in a method sees the instance on whose behalf it runs and the superclass of the
class it stands in, and no break, return or value leaves a place where the rules do not allow it.
-/

namespace Lox.Traced

open Scope.Walk (Notes Finds)

/-! ### Larger tables -/

section

variable {far far' : NodeId → Option Nat → Prop} (hf : ∀ id d, far id d → far' id d)

include hf

theorem Callable.mono {h : Heap} {f : Closure} {home : Home} (hc : Callable far h f home) :
    Callable far' h f home := by
  obtain ⟨hu, scopes, hs, hd⟩ := hc
  exact ⟨hu, scopes, hs, FunDecl.Scoped.mono hf _ hd⟩

theorem Bindable.mono {h : Heap} {f : Closure} {home : Home} (hb : Bindable far h f home) :
    Bindable far' h f home := by
  obtain ⟨hu, scopes, hs, hd⟩ := hb
  exact ⟨hu, scopes, hs, FunDecl.Scoped.mono hf _ hd⟩

namespace State

variable {t : State}

theorem Holds.mono {v : Value} (hv : t.Holds far v) : t.Holds far' v :=
  ⟨fun f h => ⟨(hv.1 f h).1, (hv.1 f h).2.mono hf⟩, hv.2⟩

theorem Sound.knowing (ht : t.Sound far) {distances : Std.HashMap NodeId Nat}
    (htable : ∀ {id d}, far' id d → distances[id]? = d) :
    State.Sound far' { t with machine := { t.machine with distances } } where
  table := htable
  size := ht.size
  globals := ht.globals
  locals h := (ht.locals h).mono hf
  fields h := (ht.fields h).mono hf
  methods h := ⟨(ht.methods h).1, (ht.methods h).2.mono hf⟩
  chain := ht.chain

end State

end

/-! ### What is kept between inputs -/

/-- The distances of the trees that a session has read. -/
def known (s : Lox.Session) (id : NodeId) (d : Option Nat) : Prop :=
  id.index < s.nextId ∧ s.machine.distances[id]? = d

namespace Session

/-- A state that stands at the top, ids that no tree has had, and values that the host may define. -/
structure Carries (t : Session) (held : List Value) : Prop where
  sound : t.state.Sound (known t.toSession)
  frame : t.machine.frame = Machine.globals
  fresh : ∀ id : NodeId, t.nextId ≤ id.index → t.machine.distances[id]? = none
  held : ∀ v ∈ held, t.state.Holds (known t.toSession) v

end Session

/-- The answer comes to the plain one, and both what ran and what is kept are as they should be. -/
structure Answer.Faithful {α : Type} (answer : Answer α)
    (plain : Except Failure α × Lox.Session) (held : List Value) : Prop where
  erase : answer.erase = plain
  events : ∀ event ∈ answer.events, event.Good
  next : answer.next.Carries held

namespace Session

variable {t : Session} {held : List Value}

/-- The beginning of a trace. -/
def Carries.log (h : t.Carries held) : (runs (known t.toSession)).Pair :=
  ⟨{ t.state with events := #[] }, h.sound, by simp⟩

theorem Carries.serves (h : t.Carries held) :
    Serves h.log.1.heap h.log.1.machine.frame [] .outside := by
  rw [show h.log.1.machine.frame = Machine.globals from h.frame]
  exact .outside

/-- The table is taken over whether or not the input is rejected. -/
theorem Carries.noteAll (h : t.Carries held) {next : Nat} (hn : t.nextId ≤ next)
    {notes : List (NodeId × Nat)}
    (hids : ∀ p ∈ notes, t.nextId ≤ p.1.index ∧ p.1.index < next) :
    Carries ⟨⟨t.machine.noteAll notes.toArray, next⟩, t.homes⟩ held := by
  have hlater : ∀ id : NodeId, id.index < t.nextId ∨ next ≤ id.index →
      (t.machine.noteAll notes.toArray).distances[id]? = t.machine.distances[id]? := by
    intro id hid
    refine Machine.distances_noteAll_of_ne (fun p hp => ?_) t.machine
    have := hids p hp
    rintro rfl
    omega
  have hknown : ∀ id d, known t.toSession id d →
      known ⟨t.machine.noteAll notes.toArray, next⟩ id d := fun id d hd =>
    ⟨hd.1.trans_le hn, (hlater id (.inl hd.1)).trans hd.2⟩
  refine ⟨h.sound.knowing hknown fun hd => hd.2, h.frame, fun id hid => ?_,
    fun v hv => (h.held v hv).mono hknown⟩
  exact (hlater id (.inr hid)).trans (h.fresh id (hn.trans hid))

theorem Carries.skip (h : t.Carries held) {next : Nat} (hn : t.nextId ≤ next) :
    Carries ⟨⟨t.machine, next⟩, t.homes⟩ held :=
  h.noteAll hn fun p (hp : p ∈ []) => absurd hp List.not_mem_nil

/-- What a step of the machine leads to, with the values that it hands to the host. -/
theorem Carries.step (h : t.Carries held) {u : State} (hu : u.Sound (known t.toSession))
    (hl : Leads t.state u) (vs : List Value) (hvs : ∀ v ∈ vs, u.Holds (known t.toSession) v) :
    Carries ⟨⟨u.machine, t.nextId⟩, u.homes⟩ (vs ++ held) := by
  have hknown : ∀ id d, known t.toSession id d → known ⟨u.machine, t.nextId⟩ id d :=
    fun id d hd => ⟨hd.1, hu.table hd⟩
  refine ⟨hu.knowing hknown fun hd => hd.2, hl.frame.trans h.frame, fun id hid => ?_,
    fun v hv => ?_⟩
  · rw [hl.distances]
    exact h.fresh id hid
  · rcases List.mem_append.1 hv with hv | hv
    · exact (hvs v hv).mono hknown
    · exact (hl.holds (h.held v hv)).mono hknown

theorem Carries.perform {α : Type} {act : Run α} {other : Exec α} {f : α → List Value}
    (h : t.Carries held) (hb : Beside h.log act other fun a b u => a = b ∧
      ∀ v ∈ f a, u.Holds (known t.toSession) v) :
    (t.perform act).Faithful (t.toSession.perform other)
      ((t.perform act).outcome.toOption.toList.flatMap f ++ held) := by
  have hb := hb fun _ _ _ hx => hx
  simp only [runs, Carries.log] at hb
  unfold Session.perform Lox.Session.perform
  split at hb
  · next hl hr =>
    obtain ⟨q, rfl, rfl, hq, rfl, hvs⟩ := hb
    have hr : other t.machine = _ := hr
    simp only [hl, hr]
    exact ⟨rfl, q.2.events, by simpa [Except.toOption] using h.step q.2.sound hq _ hvs⟩
  · next hl hr =>
    obtain ⟨rfl, q, rfl, rfl, hq⟩ := hb
    have hr : other t.machine = _ := hr
    simp only [hl, hr]
    exact ⟨rfl, q.2.events, h.step q.2.sound hq [] (by simp)⟩
  · exact hb.elim

/-- A tree of new occurrences finds in the table what its own walk has noted. -/
theorem Carries.knows (h : t.Carries held) {next : Nat} {walk : Scope.Walk} {ids : List NodeId}
    (hids : Within t.nextId next ids) {found : (NodeId → Option Nat → Prop) → Prop}
    (hf : Finds ids .start walk found) :
    found (known ⟨t.machine.noteAll walk.distances, next⟩) := by
  exact hf.of_noteAll (fun id hi => h.fresh id (hids.2 id hi).1)
    fun id hi => ⟨(hids.2 id hi).2, rfl⟩

/-- An input whose tree has been read: if it is not rejected, it runs beside itself. -/
theorem Carries.resolved {α : Type} {act : Run α} {other : Exec α} {f : α → List Value}
    (h : t.Carries held) {next : Nat} {walk : Scope.Walk} {ids : List NodeId}
    (hn : t.nextId ≤ next) (hids : Within t.nextId next ids) (hw : Notes ids .start walk)
    (hb : ∀ {u : Session} (hu : u.Carries held), walk.errors = #[] →
      (∀ {found}, Finds ids .start walk found → found (known u.toSession)) →
      Beside hu.log act other fun a b w => a = b ∧
        ∀ v ∈ f a, w.Holds (known u.toSession) v) :
    (Session.resolved ⟨⟨t.machine, next⟩, t.homes⟩ walk act).Faithful
      (Lox.Session.resolved ⟨t.machine, next⟩ walk other)
      ((Session.resolved ⟨⟨t.machine, next⟩, t.homes⟩ walk act).outcome.toOption.toList.flatMap
        f ++ held) := by
  obtain ⟨notes, hnotes, hm⟩ := hw.of_start
  have hc := h.noteAll hn fun p hp => hids.2 _ (hm p hp)
  rw [← hnotes] at hc
  rcases he : walk.errors.toList with _ | ⟨error, errors⟩
  · simp only [Session.resolved, Lox.Session.resolved, he]
    exact hc.perform (hb hc (by simpa using he) (h.knows hids))
  · simp only [Session.resolved, Lox.Session.resolved, he]
    exact ⟨rfl, by simp, hc⟩

theorem run_of_program {fuel : Nat} {source : String} {program : List Stmt}
    (h : (Source.program? source t.nextId).1 = .ok program) :
    t.run fuel source = resolved ⟨⟨t.machine, (Source.program? source t.nextId).2⟩, t.homes⟩
      (Scope.resolve program) (interpret fuel program) := by
  simp only [Session.run, h]

theorem evaluate_of_expression {fuel : Nat} {source : String} {e : Expr}
    (h : (Source.expression? source t.nextId).1 = .ok e) :
    t.evaluate fuel source =
      resolved ⟨⟨t.machine, (Source.expression? source t.nextId).2⟩, t.homes⟩
        (Scope.resolveExpression e) (eval fuel .outside e) := by
  simp only [Session.evaluate, h]

theorem Carries.run (h : t.Carries held) (fuel : Nat) (source : String) :
    (t.run fuel source).Faithful (t.toSession.run fuel source) held := by
  obtain ⟨hn, hmade⟩ := Source.program?_made source t.nextId
  rcases hp : (Source.program? source t.nextId).1 with errors | program
  · rw [Lox.Session.run_of_errors hp]
    simp only [Session.run, hp]
    exact ⟨rfl, by simp, h.skip hn⟩
  · obtain ⟨hformed, hids⟩ := hmade program hp
    rw [run_of_program hp, Lox.Session.run_of_program hp]
    have hw : Notes _ .start (Scope.resolve program) := Stmt.notesAll program .start
    have hrun := h.resolved (f := fun _ => []) hn hids hw fun hu herrors hfinds =>
      (beside_interpret fuel hu.serves (hfinds (Scope.finds_resolve hformed hids.1 herrors))
        ((Scope.errors_resolve_eq hformed).1 herrors)).imp fun _ _ _ _ _ => ⟨rfl, by simp⟩
    rwa [List.flatMap_eq_nil_iff.2 (by simp), List.nil_append] at hrun

/-- The value of an expression may be kept. -/
theorem Carries.evaluate (h : t.Carries held) (fuel : Nat) (source : String) :
    (t.evaluate fuel source).Faithful (t.toSession.evaluate fuel source)
      ((t.evaluate fuel source).outcome.toOption.toList ++ held) := by
  obtain ⟨hn, hmade⟩ := Source.expression?_made source t.nextId
  rcases hp : (Source.expression? source t.nextId).1 with failure | e
  · rw [Lox.Session.evaluate_of_failure hp]
    simp only [Session.evaluate, hp]
    exact ⟨rfl, by simp, h.skip hn⟩
  · obtain ⟨hformed, hids⟩ := hmade e hp
    rw [evaluate_of_expression hp, Lox.Session.evaluate_of_expression hp]
    have hw : Notes _ .start (Scope.resolveExpression e) := Expr.notes e .start
    have hrun := h.resolved (f := fun v => [v]) hn hids hw fun hu herrors hfinds =>
      ((agrees _ fuel).eval hu.serves (hfinds
        (Scope.finds_resolveExpression hformed hids.1 herrors))).imp fun _ _ _ _ hv =>
          ⟨hv.1, by simpa using hv.2⟩
    simpa using hrun

/-! ### The host -/

theorem Carries.define (h : t.Carries held) (name : String) {v : Value}
    (hv : t.state.Holds (known t.toSession) v) :
    (t.withMachine (t.machine.defineGlobal name v)).Carries held :=
  have ⟨hs, hl⟩ := h.sound.define (x := name) (e := Machine.globals) (.inr rfl) hv
  h.step hs hl [] (by simp)

theorem Carries.defineNative (h : t.Carries held) (name : String) (native : Native) :
    (t.withMachine (t.machine.defineNative name native)).Carries held := by
  obtain ⟨hs, hl⟩ := h.sound.quiet (m := { t.machine with
    heap := (t.machine.heap.newNative native).2 }) rfl rfl rfl rfl rfl h.sound.fields
  exact (h.step hs hl [] (by simp)).define name (Primitive.holds (by simp [Primitive]))

/-- No global yet. -/
theorem carries_bare (clock : Nat → Float) (limit : Option Nat) :
    Carries ⟨⟨⟨(Heap.empty.newFrame none .empty).2, Machine.globals, ∅, ⟨#[], limit⟩, clock, 0⟩,
      0⟩, #[]⟩ [] where
  sound :=
    { table := fun hd => absurd hd.1 (Nat.not_lt_zero _)
      size := rfl
      globals := Nat.zero_lt_one
      locals := fun {e x v} h => by
        rcases e with ⟨_ | e⟩ <;> cases h
      fields := fun h => by cases h
      methods := fun h => by cases h
      chain := fun h => by cases h }
  frame := rfl
  fresh id _ := by
    show (∅ : Std.HashMap NodeId Nat)[id]? = none
    simp
  held := by simp

theorem carries_start (clock : Nat → Float) (limit : Option Nat) :
    (start clock limit).Carries [] :=
  (carries_bare clock limit).defineNative Native.clock.name Native.clock

theorem Reached.carries (h : t.Reached held) : t.Carries held := by
  induction h with
  | start clock limit => exact carries_start clock limit
  | run _ fuel source ih => exact (ih.run fuel source).next
  | evaluate _ fuel source ih => exact (ih.evaluate fuel source).next
  | define _ name hv ih =>
    refine ih.define name ?_
    rcases hv with hv | ⟨literal, rfl⟩
    · exact ih.held _ hv
    · exact holds_ofLiteral literal
  | defineNative _ name native ih => exact ih.defineNative name native

end Session

/-! ### Telling events apart -/

namespace Event

/-- An inherited method was read. -/
def readsSuper : Event → Bool
  | eval _ (.super _ _ _) _ _ _ => true
  | _ => false

/-- The body of an initializer ended. -/
def endsInitializer : Event → Bool
  | body f _ _ _ => f.closure.isInitializer
  | _ => false

theorem readsSuper_iff (event : Event) :
    event.readsSuper = true ↔ ∃ home id keyword method before result after,
      event = eval home (.super id keyword method) before result after := by
  constructor
  · intro h
    cases event with
    | eval home e before result after =>
      cases e with
      | super id keyword method => exact ⟨home, id, keyword, method, before, result, after, rfl⟩
      | _ => cases h
    | _ => cases h
  · rintro ⟨home, id, keyword, method, before, result, after, rfl⟩
    rfl

theorem endsInitializer_iff (event : Event) :
    event.endsInitializer = true ↔ ∃ f before result after,
      event = body f before result after ∧ f.closure.isInitializer = true := by
  constructor
  · intro h
    cases event with
    | body f before result after => exact ⟨f, before, result, after, rfl, h⟩
    | _ => cases h
  · rintro ⟨f, before, result, after, rfl, h⟩
    exact h

end Event

end Traced

namespace Session

variable {s : Session} {held : List Value}

/-- Every session has one with a trace beside it. -/
theorem Reached.traced (h : s.Reached held) :
    ∃ t : Traced.Session, t.toSession = s ∧ t.Reached held := by
  induction h with
  | start clock limit => exact ⟨.start clock limit, rfl, .start clock limit⟩
  | run _ fuel source ih =>
    obtain ⟨t, rfl, ht⟩ := ih
    exact ⟨_, congrArg Prod.snd (ht.carries.run fuel source).erase, ht.run fuel source⟩
  | evaluate _ fuel source ih =>
    obtain ⟨t, rfl, ht⟩ := ih
    have herase := (ht.carries.evaluate fuel source).erase
    refine ⟨_, congrArg Prod.snd herase, ?_⟩
    rw [← herase]
    exact ht.evaluate fuel source
  | define _ name hv ih =>
    obtain ⟨t, rfl, ht⟩ := ih
    exact ⟨_, rfl, ht.define name hv⟩
  | defineNative _ name native ih =>
    obtain ⟨t, rfl, ht⟩ := ih
    exact ⟨_, rfl, ht.defineNative name native⟩

/-- A session has a trace beside it, and whatever the trace, it answers every input as without it.
Code in a method sees the instance that its method value is bound to, and through `super` the methods
of the class that its own class was declared with. -/
theorem Reached.sees_home (h : s.Reached held) :
    (∃ t : Traced.Session, t.toSession = s ∧ t.Reached held) ∧
      ∀ t : Traced.Session, t.toSession = s → t.Reached held → ∀ fuel source,
        ((t.run fuel source).erase = s.run fuel source ∧
          ∀ event ∈ (t.run fuel source).events, event.SeesHome) ∧
        (t.evaluate fuel source).erase = s.evaluate fuel source ∧
          ∀ event ∈ (t.evaluate fuel source).events, event.SeesHome := by
  refine ⟨h.traced, ?_⟩
  rintro t rfl ht fuel source
  have hrun := ht.carries.run fuel source
  have hevaluate := ht.carries.evaluate fuel source
  exact ⟨⟨hrun.erase, fun event he => (hrun.events event he).1⟩, hevaluate.erase,
    fun event he => (hevaluate.events event he).1⟩

/-- An initializer that reads an inherited method. -/
theorem sees_home_initializer :
    Reached (start (fun _ => 0) none) [] ∧
      ∃ source home id keyword method before result after,
        .eval home (.super id keyword method) before result after ∈
            ((Traced.Session.start (fun _ => 0) none).run 8 source).events ∧
          (Traced.Event.eval home (.super id keyword method) before result after).SeesHome := by
  have hreached : Reached (start (fun _ => 0) none) [] := .start _ _
  have hsees := (hreached.sees_home.2 (.start _ _) rfl (.start _ _) 8
    "class A{m(){}} class B<A{init(){super.m;}} B();").1.2
  have hsuper : (((Traced.Session.start (fun _ => 0) none).run 8
      "class A{m(){}} class B<A{init(){super.m;}} B();").events[6]?.any (·.readsSuper)) = true := by
    cbv
  refine ⟨hreached, "class A{m(){}} class B<A{init(){super.m;}} B();", ?_⟩
  obtain ⟨event, he, hevent⟩ := (Option.any_eq_true _ _).1 hsuper
  have hmem := Array.mem_of_getElem? he
  obtain ⟨home, id, keyword, method, before, result, after, rfl⟩ := event.readsSuper_iff.1 hevent
  exact ⟨home, id, keyword, method, before, result, after, hmem, hsees _ hmem⟩

/-- With a trace or without, a break leaves neither a loop nor a call, an initializer gives no value
of its own, and nothing is pending when a statement at the top ends. -/
theorem Reached.keeps_flow (h : s.Reached held) :
    (∃ t : Traced.Session, t.toSession = s ∧ t.Reached held) ∧
      ∀ t : Traced.Session, t.toSession = s → t.Reached held → ∀ fuel source,
        ((t.run fuel source).erase = s.run fuel source ∧
          ∀ event ∈ (t.run fuel source).events, event.KeepsFlow) ∧
        (t.evaluate fuel source).erase = s.evaluate fuel source ∧
          ∀ event ∈ (t.evaluate fuel source).events, event.KeepsFlow := by
  refine ⟨h.traced, ?_⟩
  rintro t rfl ht fuel source
  have hrun := ht.carries.run fuel source
  have hevaluate := ht.carries.evaluate fuel source
  exact ⟨⟨hrun.erase, fun event he => (hrun.events event he).2⟩, hevaluate.erase,
    fun event he => (hevaluate.events event he).2⟩

/-- An initializer that breaks out of a loop and returns. -/
theorem keeps_flow_initializer :
    Reached (start (fun _ => 0) none) [] ∧
      ∃ source f before result after,
        .body f before result after ∈
            ((Traced.Session.start (fun _ => 0) none).run 8 source).events ∧
          f.closure.isInitializer = true ∧
            (Traced.Event.body f before result after).KeepsFlow := by
  have hreached : Reached (start (fun _ => 0) none) [] := .start _ _
  have hkeeps := (hreached.keeps_flow.2 (.start _ _) rfl (.start _ _) 8
    "class A{init(){while(true){break;} return;}} A();").1.2
  have hbody : (((Traced.Session.start (fun _ => 0) none).run 8
      "class A{init(){while(true){break;} return;}} A();").events[8]?.any
        (·.endsInitializer)) = true := by
    cbv
  refine ⟨hreached, "class A{init(){while(true){break;} return;}} A();", ?_⟩
  obtain ⟨event, he, hevent⟩ := (Option.any_eq_true _ _).1 hbody
  have hmem := Array.mem_of_getElem? he
  obtain ⟨f, before, result, after, rfl, hf⟩ := event.endsInitializer_iff.1 hevent
  exact ⟨f, before, result, after, hmem, hf, hkeeps _ hmem⟩

end Session

end Lox

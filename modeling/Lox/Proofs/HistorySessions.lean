import Lox.Proofs.HistoryTrees
import Lox.Proofs.TracedSessions

/-!
# Sessions and what is kept of them

A session goes on from input to input, and so does its trace. Whatever has run in it, all that was
ever in the store is still there, a field holds what was set last, and an assignment adds no name
to a frame but for the one case of a variable that is assigned in its own initializer.
-/

namespace Lox.Traced

open Scope.Walk (Notes Finds)
open History (keeping)

namespace Session

/-- The sessions that inputs and the host lead to, with the values that the host has been given
and all that has run. -/
inductive Lived : Session → List Value → List Event → Prop
  | start (clock : Nat → Float) (limit : Option Nat) : Lived (.start clock limit) [] []
  | run {t : Session} {held : List Value} {past : List Event} (h : Lived t held past) (fuel : Nat)
      (source : String) :
      Lived (t.run fuel source).next held (past ++ (t.run fuel source).events.toList)
  | evaluate {t : Session} {held : List Value} {past : List Event} (h : Lived t held past)
      (fuel : Nat) (source : String) :
      Lived (t.evaluate fuel source).next
        ((t.evaluate fuel source).outcome.toOption.toList ++ held)
        (past ++ (t.evaluate fuel source).events.toList)
  | define {t : Session} {held : List Value} {past : List Event} (h : Lived t held past)
      (name : String) {v : Value} (hv : v ∈ held ∨ ∃ literal, v = .ofLiteral literal) :
      Lived (t.withMachine (t.machine.defineGlobal name v)) held past
  | defineNative {t : Session} {held : List Value} {past : List Event} (h : Lived t held past)
      (name : String) (native : Native) :
      Lived (t.withMachine (t.machine.defineNative name native)) held past

variable {t : Session} {held : List Value} {past : List Event}

theorem Lived.reached (h : t.Lived held past) : t.Reached held := by
  induction h with
  | start clock limit => exact .start clock limit
  | run _ fuel source ih => exact ih.run fuel source
  | evaluate _ fuel source ih => exact ih.evaluate fuel source
  | define _ name hv ih => exact ih.define name hv
  | defineNative _ name native ih => exact ih.defineNative name native

theorem Reached.lived (h : t.Reached held) : ∃ past, t.Lived held past := by
  induction h with
  | start clock limit => exact ⟨_, .start clock limit⟩
  | run _ fuel source ih =>
    obtain ⟨past, h⟩ := ih
    exact ⟨_, h.run fuel source⟩
  | evaluate _ fuel source ih =>
    obtain ⟨past, h⟩ := ih
    exact ⟨_, h.evaluate fuel source⟩
  | define _ name hv ih =>
    obtain ⟨past, h⟩ := ih
    exact ⟨past, h.define name hv⟩
  | defineNative _ name native ih =>
    obtain ⟨past, h⟩ := ih
    exact ⟨past, h.defineNative name native⟩

/-- The store is sound for the trees that were read, and each field holds what was set last. -/
structure Remembers (t : Session) (held : List Value) (past : List Event) : Prop where
  sound : t.machine.Sound (known t.toSession)
  held : ∀ v ∈ held, t.machine.heap.Holds (known t.toSession) v
  latest : ∀ {o x v}, SetLast past o x v → t.machine.heap.field? o x = some v
  reads : ReadsLast past

end Session

/-- Nothing has left the store `h`, and all that ran and all that is kept after it is as told. -/
structure Answer.Kept {α : Type} (answer : Answer α) (h : Heap) (held : List Value)
    (past : List Event) : Prop where
  grows : h.Grows answer.next.machine.heap
  grew : ∀ event ∈ answer.events, event.Grew
  assigns : ∀ event ∈ answer.events, event.Assigns fun x frame e =>
    ∃ d ∈ answer.events, d.Declares x frame e
  next : answer.next.Remembers held (past ++ answer.events.toList)

namespace Session

variable {t : Session} {held : List Value} {past : List Event}

/-- The beginning of a trace, when no initializer is running. -/
def Remembers.log (h : t.Remembers held past) :
    (keeping (known t.toSession) past fun _ _ _ => False).Pair :=
  ⟨{ t.state with events := #[] }, h.sound, by simp, by simp,
    fun hs => h.latest (by simpa using hs), by simpa using h.reads⟩

theorem Remembers.covers (hc : t.Carries held) (h : t.Remembers held past) :
    Covers h.log.1.machine.heap h.log.1.machine.frame [] := by
  rw [show h.log.1.machine.frame = Machine.globals from hc.frame]
  exact .globals

/-- A larger table, the same machine otherwise. -/
theorem Remembers.knowing (h : t.Remembers held past) {distances : Std.HashMap NodeId Nat}
    {next : Nat}
    (hknown : ∀ id d, known t.toSession id d → known ⟨{ t.machine with distances }, next⟩ id d) :
    Remembers ⟨⟨{ t.machine with distances }, next⟩, t.homes⟩ held past where
  sound := ⟨fun hd => hd.2, h.sound.heap.mono hknown⟩
  held v hv := (h.held v hv).mono hknown
  latest := h.latest
  reads := h.reads

theorem Remembers.noteAll (h : t.Remembers held past) {next : Nat} (hn : t.nextId ≤ next)
    {notes : List (NodeId × Nat)}
    (hids : ∀ p ∈ notes, t.nextId ≤ p.1.index ∧ p.1.index < next) :
    Remembers ⟨⟨t.machine.noteAll notes.toArray, next⟩, t.homes⟩ held past := by
  refine h.knowing fun id d hd => ⟨hd.1.trans_le hn, ?_⟩
  refine (Machine.distances_noteAll_of_ne (fun p hp => ?_) t.machine).trans hd.2
  have := hids p hp
  rintro rfl
  exact absurd hd.1 (Nat.not_lt.2 this.1)

theorem Remembers.skip (h : t.Remembers held past) {next : Nat} (hn : t.nextId ≤ next) :
    Remembers ⟨⟨t.machine, next⟩, t.homes⟩ held past :=
  h.noteAll hn fun p (hp : p ∈ []) => absurd hp List.not_mem_nil

/-- An input that runs nothing. -/
theorem Remembers.kept {α : Type} {outcome : Except Failure α} (h : t.Remembers held past) :
    Answer.Kept ⟨outcome, t, #[]⟩ t.machine.heap held past :=
  ⟨.refl _, by simp, by simp, by simpa using h⟩

/-- What a log leaves, with the values that it hands to the host. -/
theorem Remembers.step (h : t.Remembers held past)
    {q : (keeping (known t.toSession) past fun _ _ _ => False).Pair}
    (hq : t.machine.Evolves q.1.machine) (vs : List Value)
    (hvs : ∀ v ∈ vs, q.1.machine.heap.Holds (known t.toSession) v) :
    Remembers ⟨⟨q.1.machine, t.nextId⟩, q.1.homes⟩ (vs ++ held) (past ++ q.1.events.toList) := by
  have hknown : ∀ id d, known t.toSession id d → known ⟨q.1.machine, t.nextId⟩ id d :=
    fun id d hd => ⟨hd.1, q.2.sound.table hd⟩
  refine ⟨⟨fun hd => hd.2, q.2.sound.heap.mono hknown⟩, fun v hv => ?_, q.2.latest, q.2.reads⟩
  rcases List.mem_append.1 hv with hv | hv
  · exact (hvs v hv).mono hknown
  · exact ((h.held v hv).grow hq.grows).mono hknown

theorem Remembers.perform {α : Type} {act : Run α} {other : Exec α} {f : α → List Value}
    (h : t.Remembers held past) (hb : History.Beside h.log act other fun a _ m =>
      ∀ v ∈ f a, m.heap.Holds (known t.toSession) v) :
    (t.perform act).Kept t.machine.heap
      ((t.perform act).outcome.toOption.toList.flatMap f ++ held) past := by
  have hb := hb fun _ _ _ hx => hx
  simp only [keeping, Remembers.log] at hb
  unfold Session.perform
  split at hb
  · next hl hr =>
    obtain ⟨q, rfl, rfl, hq, hvs⟩ := hb
    simp only [hl]
    exact ⟨hq.grows, q.2.grew, by simpa using q.2.assigns,
      by simpa [Except.toOption] using h.step hq _ hvs⟩
  · next hl hr =>
    obtain ⟨rfl, q, rfl, rfl, hq⟩ := hb
    simp only [hl]
    exact ⟨hq.grows, q.2.grew, by simpa using q.2.assigns, h.step hq [] (by simp)⟩
  · exact hb.elim

/-- An input whose tree has been read: it runs if it is not rejected. -/
theorem Remembers.resolved {α : Type} {act : Run α} {other : Exec α} {f : α → List Value}
    (hc : t.Carries held) (h : t.Remembers held past) {next : Nat} {walk : Scope.Walk}
    {ids : List NodeId} (hn : t.nextId ≤ next) (hids : Within t.nextId next ids)
    (hw : Notes ids .start walk)
    (hb : ∀ {u : Session} (_ : u.Carries held) (hu : u.Remembers held past), walk.errors = #[] →
      (∀ {found}, Finds ids .start walk found → found (known u.toSession)) →
      History.Beside hu.log act other fun a _ m => ∀ v ∈ f a, m.heap.Holds (known u.toSession) v) :
    (Session.resolved ⟨⟨t.machine, next⟩, t.homes⟩ walk act).Kept t.machine.heap
      ((Session.resolved ⟨⟨t.machine, next⟩, t.homes⟩ walk act).outcome.toOption.toList.flatMap
        f ++ held) past := by
  obtain ⟨notes, hnotes, hm⟩ := hw.of_start
  have hnew : ∀ p ∈ notes, t.nextId ≤ p.1.index ∧ p.1.index < next := fun p hp => hids.2 _ (hm p hp)
  have hc' := hc.noteAll hn hnew
  have h' := h.noteAll hn hnew
  rw [← hnotes] at hc' h'
  rcases he : walk.errors.toList with _ | ⟨error, errors⟩
  · simp only [Session.resolved, he]
    exact h'.perform (hb hc' h' (by simpa using he) (hc.knows hids))
  · simp only [Session.resolved, he]
    exact h'.kept

theorem Remembers.run (hc : t.Carries held) (h : t.Remembers held past) (fuel : Nat)
    (source : String) : (t.run fuel source).Kept t.machine.heap held past := by
  obtain ⟨hn, hmade⟩ := Source.program?_made source t.nextId
  rcases hp : (Source.program? source t.nextId).1 with errors | program
  · simp only [Session.run, hp]
    exact (h.skip hn).kept
  · obtain ⟨hformed, hids⟩ := hmade program hp
    rw [run_of_program hp]
    have hw : Notes _ .start (Scope.resolve program) := Stmt.notesAll program .start
    have hrun := h.resolved hc (f := fun _ => []) hn hids hw fun hcu hu herrors hfinds =>
      (History.beside_interpret fuel (hu.covers hcu)
        (hfinds (Scope.finds_resolve hformed hids.1 herrors))).imp fun _ _ _ _ _ => by simp
    rwa [List.flatMap_eq_nil_iff.2 (by simp), List.nil_append] at hrun

/-- The value of an expression may be kept. -/
theorem Remembers.evaluate (hc : t.Carries held) (h : t.Remembers held past) (fuel : Nat)
    (source : String) : (t.evaluate fuel source).Kept t.machine.heap
      ((t.evaluate fuel source).outcome.toOption.toList ++ held) past := by
  obtain ⟨hn, hmade⟩ := Source.expression?_made source t.nextId
  rcases hp : (Source.expression? source t.nextId).1 with failure | e
  · simp only [Session.evaluate, hp]
    exact (h.skip hn).kept
  · obtain ⟨hformed, hids⟩ := hmade e hp
    rw [evaluate_of_expression hp]
    have hw : Notes _ .start (Scope.resolveExpression e) := Expr.notes e .start
    have hrun := h.resolved hc (f := fun v => [v]) hn hids hw fun hcu hu herrors hfinds =>
      ((History.agrees _ _ fuel).eval .outside (.of_covers (hu.covers hcu) e) (hfinds
        (Scope.finds_resolveExpression hformed hids.1 herrors))).imp fun _ _ _ _ hv => by
          simpa using hv.2
    simpa using hrun

/-! ### The host -/

theorem Remembers.withHeap (h : t.Remembers held past) {heap : Heap}
    (hs : heap.Sound (known t.toSession)) (g : t.machine.heap.Grows heap)
    (hf : ∀ o x, heap.field? o x = t.machine.heap.field? o x) :
    (t.withMachine { t.machine with heap }).Remembers held past where
  sound := ⟨h.sound.table, hs⟩
  held v hv := (h.held v hv).grow g
  latest hl := (hf _ _).trans (h.latest hl)
  reads := h.reads

theorem Remembers.define (h : t.Remembers held past) (name : String) {v : Value}
    (hv : t.machine.heap.Holds (known t.toSession) v) :
    (t.withMachine (t.machine.defineGlobal name v)).Remembers held past :=
  have g := Heap.grows_define (h := t.machine.heap) Machine.globals name v
  h.withHeap (h.sound.heap.define Machine.globals name (hv.grow g)) g fun _ _ => rfl

theorem Remembers.defineNative (h : t.Remembers held past) (name : String) (native : Native) :
    (t.withMachine (t.machine.defineNative name native)).Remembers held past :=
  have hnative := h.withHeap (h.sound.heap.newNative native) (Heap.grows_newNative native)
    fun _ _ => rfl
  hnative.define name trivial

/-- No global yet. -/
theorem remembers_bare (clock : Nat → Float) (limit : Option Nat) :
    Remembers ⟨⟨⟨(Heap.empty.newFrame none .empty).2, Machine.globals, ∅, ⟨#[], limit⟩, clock, 0⟩,
      0⟩, #[]⟩ [] [] where
  sound :=
    { table := fun hd => absurd hd.1 (Nat.not_lt_zero _)
      heap :=
        { ordered :=
            { globals := Nat.zero_lt_one
              outermost := rfl
              enclosing := fun e he hg => by
                refine absurd ?_ hg
                obtain ⟨_ | e⟩ := e
                · rfl
                · exact absurd he (by simp [Heap.newFrame, Heap.empty])
              closure := fun f => Nat.zero_lt_one
              superclass := fun c s hs => by cases hs }
          locals := fun {e x v} hv => by
            obtain ⟨_ | e⟩ := e <;> cases hv
          fields := fun hv => by cases hv
          methods := fun hf => by cases hf } }
  held := by simp
  latest hl := by
    obtain ⟨past, event, later, he, -⟩ := hl
    simp at he
  reads past event later he := by simp at he

theorem Lived.remembers (h : t.Lived held past) : t.Remembers held past := by
  induction h with
  | start clock limit =>
    exact (remembers_bare clock limit).defineNative Native.clock.name Native.clock
  | run h fuel source ih => exact (ih.run h.reached.carries fuel source).next
  | evaluate h fuel source ih => exact (ih.evaluate h.reached.carries fuel source).next
  | define _ name hv ih =>
    refine ih.define name ?_
    rcases hv with hv | ⟨literal, rfl⟩
    · exact ih.held _ hv
    · exact History.holds_ofLiteral literal _
  | defineNative _ name native ih => exact ih.defineNative name native

end Session

/-! ### Telling events apart -/

namespace Event

/-- The field that was set and its value, where this fuel tells the instance. -/
def setField? (fuel : Nat) : Event → Option (InstanceId × String × Value)
  | eval _ (.set object name _) before (.ok v) _ =>
    match object.eval fuel before.machine with
    | .ok (.instance o) _ => some (o, name.lexeme, v)
    | _ => none
  | _ => none

/-- The property that a read which ended asked for. -/
def readField? (fuel : Nat) : Event → Option (InstanceId × String)
  | eval _ (.get object name) before result _ =>
    match object.eval fuel before.machine with
    | .ok (.instance o) _ => if result = .error .outOfFuel then none else some (o, name.lexeme)
    | _ => none
  | _ => none

/-- Something may have been set. -/
def maySet : Event → Bool
  | eval _ (.set _ _ _) _ _ _ => true
  | _ => false

/-- An assignment whose distance leads to the current frame added its name there. -/
def addsName : Event → Bool
  | eval _ (.assign id name _) before _ after =>
    before.machine.distances[id]? == some 0 &&
      (before.machine.heap.local? before.machine.frame name.lexeme).isNone &&
      (after.machine.heap.local? before.machine.frame name.lexeme).isSome
  | _ => false

/-- A value was assigned to the name that the distance leads to. -/
def overwrites : Event → Bool
  | eval _ (.assign id _ _) before (.ok _) _ => before.machine.distances[id]?.isSome
  | _ => false

variable {event : Event} {fuel : Nat} {o : InstanceId} {x : String} {v : Value}

theorem sets_of_setField? (h : event.setField? fuel = some (o, x, v)) : event.Sets o x v := by
  unfold setField? at h
  split at h
  · next home object name value before v after =>
    split at h
    · next o m ho =>
      cases h
      exact ⟨home, object, name, value, before, after, rfl, rfl, fuel, m, ho⟩
    · cases h
  · cases h

theorem reads_of_readField? (h : event.readField? fuel = some (o, x)) :
    ∃ result, event.Reads o x result := by
  unfold readField? at h
  split at h
  · next home object name before result after =>
    split at h
    · next o m ho =>
      split at h
      · cases h
      · next hends =>
        cases h
        exact ⟨result, home, object, name, before, after, rfl, rfl, hends, fuel, m, ho⟩
    · cases h
  · cases h

theorem not_sets_of_maySet (h : event.maySet = false) : ¬ event.Sets o x v := by
  rintro ⟨_, _, _, _, _, _, rfl, -⟩
  cases h

/-- A list split at one of its elements. -/
theorem eq_take_append_cons_drop {events : List Event} {i : Nat} (h : events[i]? = some event) :
    events = events.take i ++ event :: events.drop (i + 1) := by
  obtain ⟨hi, rfl⟩ := List.getElem?_eq_some_iff.1 h
  rw [List.getElem_cons_drop, List.take_append_drop]

theorem setLast_of_setField? {events : List Event} {i : Nat}
    (h : (events[i]?.bind (·.setField? fuel)) = some (o, x, v))
    (hlater : ((events.drop (i + 1)).all fun event => !event.maySet) = true) :
    SetLast events o x v := by
  obtain ⟨event, he, hset⟩ := Option.bind_eq_some_iff.1 h
  refine ⟨_, event, _, eq_take_append_cons_drop he, sets_of_setField? hset, fun later hm w => ?_⟩
  exact not_sets_of_maySet (by simpa using List.all_eq_true.1 hlater later hm)

/-- Of two events in a trace, the first sets a field last before the second reads it. -/
theorem read_of_setField? {events : List Event} (hreads : ReadsLast events) (fuel i j : Nat)
    (hset : ((events.take j)[i]?.bind (·.setField? fuel)) = some (o, x, v))
    (hlater : (((events.take j).drop (i + 1)).all fun event => !event.maySet) = true)
    (hread : (events[j]?.bind (·.readField? fuel)) = some (o, x)) :
    ∃ past event later, events = past ++ event :: later ∧ SetLast past o x v ∧
      event.Reads o x (.ok v) := by
  obtain ⟨event, he, hfield⟩ := Option.bind_eq_some_iff.1 hread
  obtain ⟨result, hr⟩ := reads_of_readField? hfield
  have hsplit := eq_take_append_cons_drop he
  have hlast := setLast_of_setField? hset hlater
  refine ⟨_, event, _, hsplit, hlast, ?_⟩
  rwa [← hreads _ event _ hsplit _ _ _ _ hr hlast]

theorem addsName_iff (event : Event) :
    event.addsName = true ↔ ∃ home id name value before result after,
      event = eval home (.assign id name value) before result after ∧
        before.machine.distances[id]? = some 0 ∧
        before.machine.heap.local? before.machine.frame name.lexeme = none ∧
        (after.machine.heap.local? before.machine.frame name.lexeme).isSome := by
  constructor
  · intro h
    unfold addsName at h
    split at h
    · next home id name value before result after =>
      refine ⟨home, id, name, value, before, result, after, rfl, ?_⟩
      simpa [and_assoc] using h
    · cases h
  · rintro ⟨home, id, name, value, before, result, after, rfl, hd, hn, hs⟩
    simp [addsName, hd, hn, hs]

end Event

end Lox.Traced

namespace Lox.Session

open Traced (Event ReadsLast SetLast)

variable {s : Session} {held : List Value}

/-- With a trace that goes back to the start of the session, or without, nothing ever leaves the
store: whatever ran, and however it ended, frames keep links and names, instances keep class and
fields, and classes and closures stay as they are. All links come to an end, those of frames at
the globals. A field that was set is read as the value that was set last. -/
theorem Reached.store_grows (h : s.Reached held) :
    (∃ (t : Traced.Session) (past : List Event), t.toSession = s ∧ t.Lived held past) ∧
      ∀ (t : Traced.Session) (past : List Event), t.toSession = s → t.Lived held past →
        s.machine.heap.Rooted ∧ ∀ fuel source,
          ((t.run fuel source).erase = s.run fuel source ∧
            s.machine.heap.Grows (s.run fuel source).2.machine.heap ∧
            (∀ event ∈ (t.run fuel source).events, event.Grew) ∧
            ReadsLast (past ++ (t.run fuel source).events.toList)) ∧
          (t.evaluate fuel source).erase = s.evaluate fuel source ∧
            s.machine.heap.Grows (s.evaluate fuel source).2.machine.heap ∧
            (∀ event ∈ (t.evaluate fuel source).events, event.Grew) ∧
            ReadsLast (past ++ (t.evaluate fuel source).events.toList) := by
  constructor
  · obtain ⟨t, ht, hreached⟩ := h.traced
    obtain ⟨past, hlived⟩ := hreached.lived
    exact ⟨t, past, ht, hlived⟩
  rintro t past rfl ht
  have hremembers := ht.remembers
  have hcarries := ht.reached.carries
  refine ⟨hremembers.sound.heap.ordered.rooted, fun fuel source => ?_⟩
  have hrun := hremembers.run hcarries fuel source
  have herase := (hcarries.run fuel source).erase
  have hevaluate := hremembers.evaluate hcarries fuel source
  have herase' := (hcarries.evaluate fuel source).erase
  refine ⟨⟨herase, ?_, hrun.grew, hrun.next.reads⟩, herase', ?_, hevaluate.grew,
    hevaluate.next.reads⟩
  · rw [← herase]
    exact hrun.grows
  · rw [← herase']
    exact hevaluate.grows

/-- A field that hides a method. -/
theorem store_grows_field :
    Reached (start (fun _ => 0) none) [] ∧
      ∃ source past event later o x v,
        ((Traced.Session.start (fun _ => 0) none).run 8 source).events.toList =
            past ++ event :: later ∧
          SetLast past o x v ∧ event.Reads o x (.ok v) := by
  have hreached : Reached (start (fun _ => 0) none) [] := .start _ _
  have hreads := ((hreached.store_grows.2 (.start _ _) [] rfl (.start _ _)).2 8
    "class A{m(){}} var a=A(); a.m=nil; a.m;").1.2.2.2
  refine ⟨hreached, "class A{m(){}} var a=A(); a.m=nil; a.m;", ?_⟩
  obtain ⟨past, event, later, hsplit, hlast, hread⟩ :=
    Event.read_of_setField? hreads 4 8 12 (o := ⟨0⟩) (x := "m") (v := .nil) (by cbv) (by cbv)
      (by cbv)
  exact ⟨past, event, later, ⟨0⟩, "m", .nil, hsplit, hlast, hread⟩

/-- With a trace or without, an assignment finds its name: in the frame that its distance tells,
or else among the globals, and if it is missing there the store stays as it is. No frame is given
a name that it does not have, unless the assignment stands in the initializer of that very
variable. -/
theorem Reached.assigns_in_place (h : s.Reached held) :
    (∃ t : Traced.Session, t.toSession = s ∧ t.Reached held) ∧
      ∀ t : Traced.Session, t.toSession = s → t.Reached held → ∀ fuel source,
        ((t.run fuel source).erase = s.run fuel source ∧
          ∀ event ∈ (t.run fuel source).events, event.Assigns fun x frame e =>
            ∃ d ∈ (t.run fuel source).events, d.Declares x frame e) ∧
        (t.evaluate fuel source).erase = s.evaluate fuel source ∧
          ∀ event ∈ (t.evaluate fuel source).events, event.Assigns fun x frame e =>
            ∃ d ∈ (t.evaluate fuel source).events, d.Declares x frame e := by
  refine ⟨h.traced, ?_⟩
  rintro t rfl ht fuel source
  obtain ⟨past, hlived⟩ := ht.lived
  have hrun := hlived.remembers.run ht.carries fuel source
  have hevaluate := hlived.remembers.evaluate ht.carries fuel source
  exact ⟨⟨(ht.carries.run fuel source).erase, hrun.assigns⟩,
    (ht.carries.evaluate fuel source).erase, hevaluate.assigns⟩

/-- A local variable that is declared, and then assigned from a block inside. -/
theorem assigns_in_place_block :
    Reached (start (fun _ => 0) none) [] ∧
      ∃ source event,
        event ∈ ((Traced.Session.start (fun _ => 0) none).run 8 source).events ∧
          event.overwrites = true ∧ event.Assigns fun x frame e =>
            ∃ d ∈ ((Traced.Session.start (fun _ => 0) none).run 8 source).events,
              d.Declares x frame e := by
  have hreached : Reached (start (fun _ => 0) none) [] := .start _ _
  have hassigns := (hreached.assigns_in_place.2 (.start _ _) rfl (.start _ _) 8
    "{var a; {a=nil;}}").1.2
  have hevent : (((Traced.Session.start (fun _ => 0) none).run 8
      "{var a; {a=nil;}}").events[2]?.any (·.overwrites)) = true := by
    cbv
  obtain ⟨event, he, hoverwrites⟩ := (Option.any_eq_true _ _).1 hevent
  have hmem := Array.mem_of_getElem? he
  exact ⟨hreached, "{var a; {a=nil;}}", event, hmem, hoverwrites, hassigns event hmem⟩

/-- A variable that is assigned in its own initializer: its distance leads to the frame that is to
bind it, and it is the assignment that adds the name there. -/
theorem assignment_adds_name :
    ((Traced.Session.start (fun _ => 0) none).run 8 "{var a=a=nil;}").outcome = .ok () ∧
      ∃ home id name value before result after,
        .eval home (.assign id name value) before result after ∈
            ((Traced.Session.start (fun _ => 0) none).run 8 "{var a=a=nil;}").events ∧
          before.machine.distances[id]? = some 0 ∧
          before.machine.heap.local? before.machine.frame name.lexeme = none ∧
          (after.machine.heap.local? before.machine.frame name.lexeme).isSome := by
  have houtcome : ((Traced.Session.start (fun _ => 0) none).run 8 "{var a=a=nil;}").outcome =
      .ok () := by
    cbv
  have hevent : (((Traced.Session.start (fun _ => 0) none).run 8
      "{var a=a=nil;}").events[1]?.any (·.addsName)) = true := by
    cbv
  obtain ⟨event, he, hadds⟩ := (Option.any_eq_true _ _).1 hevent
  have hmem := Array.mem_of_getElem? he
  obtain ⟨home, id, name, value, before, result, after, rfl, hrest⟩ := event.addsName_iff.1 hadds
  exact ⟨houtcome, home, id, name, value, before, result, after, hmem, hrest⟩

end Lox.Session

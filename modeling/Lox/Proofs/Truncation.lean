import Lox.Proofs.NotedOnce
import Lox.Proofs.RecordedRuns

/-!
# Runs into a sink that gets full

A program is run twice from one state, into a sink that takes everything and into one that takes so
many lines and no more. The runs go in step as long as there is room. A print without room stops the
second run where it is: no call, loop or argument list around it does anything any more, since each
of them is one step after another, and a stop goes through all of them.
-/

namespace Lox

def Machine.withLimit (m : Machine) (limit : Option Nat) : Machine :=
  m.withSink { m.sink with limit }

theorem Exec.Silent.withLimit {α : Type} {act : Exec α} (h : act.Silent) (m : Machine)
    (limit : Option Nat) : act (m.withLimit limit) = onState (·.withLimit limit) (act m) := by
  rw [Machine.withLimit, h m { m.sink with limit }]
  refine onState_congr ?_
  rw [Machine.withLimit, h.sink_eq]

/-- The session with another sink behind what was printed so far. -/
def Session.withLimit (s : Session) (limit : Option Nat) : Session :=
  { s with machine := s.machine.withLimit limit }

namespace Recorded

def State.withLimit (t : State) (limit : Option Nat) : State :=
  { t with machine := t.machine.withLimit limit }

def State.printed (t : State) : List String := t.machine.sink.lines.toList

theorem lines_append (events others : List Event) :
    lines (events ++ others) = lines events ++ lines others :=
  List.filterMap_append

theorem lines_concat_print (events : List Event) (line : String) (store : Heap) :
    lines (events ++ [.print line store]) = lines events ++ [line] := by
  rw [lines_append]
  rfl

/-! ### Steps -/

/-- From `t` to `u` these events were noted, in a sink that takes everything: what they were to
print is printed. -/
structure Grows (t : State) (noted : List Event) (u : State) : Prop where
  events : u.events = t.events ++ noted
  printed : u.printed = t.printed ++ lines noted
  unlimited : u.machine.sink.limit = none

/-- From `t` a run into a sink with room for `room` lines came to stop in `u`: the sink is full, and
the last event is a print, which the run that noted `noted` began at the same point. -/
structure Stops (room : Nat) (t : State) (noted : List Event) (u : State) (before : List Event)
    (line : String) : Prop where
  events : u.events = t.events ++ (before ++ [.print line u.machine.heap])
  noted : before ++ [.print line u.machine.heap] <+: noted
  printed : u.printed = t.printed ++ lines before
  full : u.printed.length = room

variable {t u v : State} {noted noted' before : List Event} {room : Nat} {line : String}

theorem Grows.trans (h : Grows t noted u) (h' : Grows u noted' v) :
    Grows t (noted ++ noted') v where
  events := by rw [h'.events, h.events, List.append_assoc]
  printed := by rw [h'.printed, h.printed, lines_append, List.append_assoc]
  unlimited := h'.unlimited

/-- The frame is of no account. -/
theorem Grows.inFrame (h : Grows t noted u) (e e' : FrameId) :
    Grows { t with machine := { t.machine with frame := e } } noted
      { u with machine := { u.machine with frame := e' } } :=
  ⟨h.events, h.printed, h.unlimited⟩

theorem Stops.inFrame (h : Stops room t noted u before line) (e e' : FrameId) :
    Stops room { t with machine := { t.machine with frame := e } } noted
      { u with machine := { u.machine with frame := e' } } before line :=
  ⟨h.events, h.noted, h.printed, h.full⟩

/-- What the other run goes on to note is of no account. -/
theorem Stops.append (h : Stops room t noted u before line) (more : List Event) :
    Stops room t (noted ++ more) u before line :=
  { h with noted := h.noted.trans (List.prefix_append _ _) }

theorem Stops.since (hg : Grows t noted u) (h : Stops room u noted' v before line) :
    Stops room t (noted ++ noted') v (noted ++ before) line where
  events := by rw [h.events, hg.events, List.append_assoc, List.append_assoc]
  noted := by
    rw [List.append_assoc]
    exact (List.prefix_append_right_inj noted).2 h.noted
  printed := by rw [h.printed, hg.printed, lines_append, List.append_assoc]
  full := h.full

theorem Stops.length_eq (h : Stops room t noted u before line) :
    t.printed.length + (lines before).length = room := by
  rw [← h.full, h.printed, List.length_append]

/-- The line that found no room is one of those that the other run was to print. -/
theorem Stops.lines_prefix (h : Stops room t noted u before line) :
    lines before ++ [line] <+: lines noted := by
  obtain ⟨after, hafter⟩ := h.noted
  rw [← hafter, lines_append, lines_concat_print]
  exact List.prefix_append _ _

theorem Stops.room_lt (h : Stops room t noted u before line) :
    room < t.printed.length + (lines noted).length := by
  have hle := h.lines_prefix.length_le
  have hlength := h.length_eq
  rw [List.length_append, List.length_singleton] at hle
  omega

variable {α β : Type} {r : Run α}

/-- With room for what it prints, the step ends in the limited sink as it does in one that takes
everything. Without, it stops. -/
def Truncates (room : Nat) (r : Run α) : Prop :=
  ∀ t : State, t.machine.sink.limit = none → ∃ noted, Grows t noted (endState (r t)) ∧
    (t.printed.length ≤ room →
      ((endState (r t)).printed.length ≤ room ∧
        r (t.withLimit (some room)) = onState (·.withLimit (some room)) (r t)) ∨
      ∃ u before line, r (t.withLimit (some room)) = .error .sinkFull u ∧
        Stops room t noted u before line)

theorem print_of_room (line : String) {t : State} (h : t.machine.sink.hasRoom = true) :
    print line t = .ok () { t.noting (.print line t.machine.heap) with
      machine := { t.machine with sink := t.machine.sink.push line } } := by
  simp only [print, lift_eq, Exec.print, State.noting, h, if_true]
  rfl

theorem print_of_full (line : String) {t : State} (h : t.machine.sink.hasRoom = false) :
    print line t = .error .sinkFull (t.noting (.print line t.machine.heap)) := by
  simp only [print, lift_eq, Exec.print, State.noting, h]
  rfl

namespace Truncates

theorem lift {act : Exec α} (h : act.Silent) : Truncates room (Recorded.lift act) := by
  intro t ht
  have hmachine : (endState (Recorded.lift act t)).machine = endState (act t.machine) := by
    rw [lift_eq, endState_onState]
  have hsink : (endState (Recorded.lift act t)).machine.sink = t.machine.sink := by
    rw [hmachine, h.sink_eq]
  have hprinted : (endState (Recorded.lift act t)).printed = t.printed := by
    rw [State.printed, hsink, State.printed]
  have hgrows : Grows t [] (endState (Recorded.lift act t)) :=
    { events := by rw [lift_eq, endState_onState, List.append_nil]
      printed := hprinted.trans (List.append_nil _).symm
      unlimited := by rw [hsink, ht] }
  refine ⟨[], hgrows, fun hroom => .inl ⟨hprinted ▸ hroom, ?_⟩⟩
  have hlimited : act (t.withLimit (some room)).machine = _ := h.withLimit t.machine (some room)
  rw [lift_eq, lift_eq, hlimited]
  rcases act t.machine with _ | _ <;> rfl

theorem note {event : Event} (h : event.line? = none) : Truncates room (Recorded.note event) := by
  intro t ht
  have hlines : lines [event] = [] := by simp [lines, h]
  have hgrows : Grows t [event] (endState (Recorded.note event t)) :=
    { events := rfl
      printed := by
        rw [hlines]
        exact (List.append_nil _).symm
      unlimited := ht }
  exact ⟨[event], hgrows, fun hroom => .inl ⟨hroom, rfl⟩⟩

theorem print (line : String) : Truncates room (Recorded.print line) := by
  intro t ht
  have hprint := print_of_room line (Sink.hasRoom_of_unlimited ht)
  refine ⟨[.print line t.machine.heap], ?_, fun hroom => ?_⟩
  · rw [hprint]
    exact ⟨rfl, Array.toList_push, ht⟩
  · rcases Nat.lt_or_ge t.printed.length room with hlt | hge
    · have hlimited : (t.withLimit (some room)).machine.sink.hasRoom = true := decide_eq_true hlt
      refine .inl ⟨?_, ?_⟩
      · rw [hprint]
        have hpushed : (t.machine.sink.lines.push line).toList.length = t.printed.length + 1 := by
          rw [Array.toList_push, List.length_append]
          rfl
        exact hpushed.trans_le hlt
      · rw [hprint, print_of_room line hlimited]
        rfl
    · have hlimited : (t.withLimit (some room)).machine.sink.hasRoom = false :=
        decide_eq_false (Nat.not_lt.2 hge)
      refine .inr ⟨_, [], line, print_of_full line hlimited, ?_⟩
      exact
        { events := rfl
          noted := List.prefix_refl _
          printed := (List.append_nil _).symm
          full := Nat.le_antisymm hroom hge }

/-- Where the first step stops, the second one is not begun. -/
theorem bind {f : α → Run β} (h : Truncates room r) (hf : ∀ a, Truncates room (f a)) :
    Truncates room (r >>= f) := by
  intro t ht
  obtain ⟨noted, hgrows, hends⟩ := h t ht
  simp only [Bind.bind, EStateM.bind]
  rcases hr : r t with ⟨a, u⟩ | ⟨stop, u⟩
  · rw [hr] at hgrows hends
    obtain ⟨noted', hgrows', hends'⟩ := hf a u hgrows.unlimited
    refine ⟨noted ++ noted', hgrows.trans hgrows', fun hroom => ?_⟩
    rcases hends hroom with ⟨hfits, hl⟩ | ⟨v, before, line, hl, hstops⟩
    · -- The first step had room, so the second one begins where it does in the other run.
      rw [hl]
      rcases hends' hfits with hsame | ⟨v, before, line, hl', hstops⟩
      · exact .inl hsame
      · exact .inr ⟨v, _, line, hl', hstops.since hgrows⟩
    · rw [hl]
      exact .inr ⟨v, before, line, rfl, hstops.append noted'⟩
  · rw [hr] at hgrows hends
    refine ⟨noted, hgrows, fun hroom => ?_⟩
    rcases hends hroom with ⟨hfits, hl⟩ | ⟨v, before, line, hl, hstops⟩
    · rw [hl]
      exact .inl ⟨hfits, rfl⟩
    · rw [hl]
      exact .inr ⟨v, before, line, rfl, hstops⟩

theorem withFrame (h : Truncates room r) (e : FrameId) :
    Truncates room (Recorded.withFrame e r) := by
  intro t ht
  obtain ⟨noted, hgrows, hends⟩ := h { t with machine := { t.machine with frame := e } } ht
  have hlimited : ({ t.withLimit (some room) with
      machine := { (t.withLimit (some room)).machine with frame := e } } : State) =
      State.withLimit { t with machine := { t.machine with frame := e } } (some room) := rfl
  simp only [Recorded.withFrame, hlimited]
  rcases hr : r { t with machine := { t.machine with frame := e } } with ⟨a, u⟩ | ⟨stop, u⟩ <;>
  · rw [hr] at hgrows hends
    refine ⟨noted, hgrows.inFrame t.machine.frame t.machine.frame, fun hroom => ?_⟩
    rcases hends hroom with ⟨hfits, hl⟩ | ⟨v, before, line, hl, hstops⟩
    · rw [hl]
      exact .inl ⟨hfits, rfl⟩
    · rw [hl]
      exact .inr ⟨_, before, line, rfl, hstops.inFrame t.machine.frame t.machine.frame⟩

end Truncates

/-- A recorded run is made of steps that truncate. -/
theorem Records.truncates {act : Exec α} (h : Records r act) (room : Nat) : Truncates room r := by
  induction h with
  | lift h => exact .lift h
  | note event h => exact .note h
  | print line => exact .print line
  | bind _ _ ih ihf => exact ih.bind ihf
  | withFrame e _ ih => exact ih.withFrame e

/-! ### Sessions -/

/-- The answer `cut` out of a sink with room for `room` lines after the `old` ones, beside the
answer `whole` out of one that takes everything. -/
structure Truncated (old : Array String) (room : Nat) (whole cut : Answer) : Prop where
  printed : whole.next.printed.toList = old.toList ++ lines whole.events
  same : (lines whole.events).length ≤ room → cut.outcome = whole.outcome ∧
    cut.next = whole.next.withLimit (some (old.size + room)) ∧ cut.events = whole.events
  stopped : room < (lines whole.events).length →
    cut.outcome = .error (.stopped .sinkFull) ∧
    cut.next.printed.toList = old.toList ++ (lines whole.events).take room ∧
    cut.events <+: whole.events ∧
    ∃ before line, cut.events = before ++ [.print line cut.next.machine.heap] ∧
      (lines before).length = room

/-- An input that begins nothing. -/
theorem Truncated.silent (s : Session) (room : Nat) (outcome : Except Failure Unit) :
    Truncated s.printed room ⟨outcome, s.withLimit none, []⟩
      ⟨outcome, s.withLimit (some (s.printed.size + room)), []⟩ where
  printed := (List.append_nil _).symm
  same _ := ⟨rfl, rfl, rfl⟩
  stopped h := absurd h (Nat.not_lt_zero _)

theorem events_answer (s : Session) (result : EStateM.Result Stop State Unit) :
    (answer s result).events = (endState result).events := by
  cases result <;> rfl

theorem printed_answer (s : Session) (result : EStateM.Result Stop State Unit) :
    (answer s result).next.printed.toList = (endState result).printed := by
  cases result <;> rfl

theorem truncated_perform {r : Run Unit} (h : ∀ room, Truncates room r) (s : Session)
    (room : Nat) : Truncated s.printed room (perform (s.withLimit none) r)
      (perform (s.withLimit (some (s.printed.size + room))) r) := by
  let first : State := ⟨(s.withLimit none).machine, []⟩
  let limited := first.withLimit (some (s.printed.size + room))
  have hfirst : first.printed.length = s.printed.size := rfl
  have hlimited : perform (s.withLimit (some (s.printed.size + room))) r =
      answer (s.withLimit (some (s.printed.size + room))) (r limited) := rfl
  obtain ⟨noted, hgrows, hends⟩ := h (s.printed.size + room) first rfl
  have hevents : (perform (s.withLimit none) r).events = noted := by
    rw [perform, events_answer, hgrows.events, List.nil_append]
  have hprinted : (perform (s.withLimit none) r).next.printed.toList =
      s.printed.toList ++ lines (perform (s.withLimit none) r).events := by
    rw [hevents, perform, printed_answer, hgrows.printed]
    rfl
  rw [hlimited]
  -- Either all lines fit, or the run stops at the first one that does not.
  rcases hends (Nat.le_add_right _ _) with ⟨hfits, hl⟩ | ⟨u, before, line, hl, hstops⟩
  · have hroom : (lines noted).length ≤ room := by
      rw [hgrows.printed, List.length_append, hfirst] at hfits
      omega
    refine ⟨hprinted, fun _ => ?_, fun hlt => ?_⟩
    · rw [hl, perform]
      rcases r first with _ | _ <;> exact ⟨rfl, rfl, rfl⟩
    · rw [hevents] at hlt
      omega
  · have hroom : room < (lines noted).length := by
      have hlt := hstops.room_lt
      omega
    refine ⟨hprinted, fun hle => ?_, fun _ => ?_⟩
    · rw [hevents] at hle
      omega
    · rw [hl, hevents]
      have hlength : (lines before).length = room := by
        have hlength := hstops.length_eq
        omega
      have htake : (lines noted).take room = lines before := by
        have hprefix := (List.prefix_append _ _).trans hstops.lines_prefix
        rw [← hlength, ← List.prefix_iff_eq_take.1 hprefix]
      have hcut : u.events = before ++ [.print line u.machine.heap] := hstops.events
      refine ⟨rfl, ?_, ?_, before, line, hcut, hlength⟩
      · rw [printed_answer, htake]
        exact hstops.printed
      · rw [events_answer]
        exact hcut ▸ hstops.noted

theorem truncated_run (fuel : Nat) (source : String) (s : Session) (room : Nat) :
    Truncated s.printed room (run fuel source (s.withLimit none))
      (run fuel source (s.withLimit (some (s.printed.size + room)))) := by
  have hid : ∀ limit, (s.withLimit limit).nextId = s.nextId := fun _ => rfl
  simp only [run, hid]
  rcases Source.program? source s.nextId with ⟨errors | program, next⟩
  · exact .silent ⟨s.machine, next⟩ room _
  · let first : Session := ⟨s.machine.noteAll (Scope.resolve program).distances, next⟩
    simp only [resolved]
    rcases (Scope.resolve program).errors.toList with _ | _
    · exact truncated_perform (records_interpret fuel program).truncates first room
    · exact .silent first room _

end Recorded

namespace Session

theorem frame_run (fuel : Nat) (source : String) (s : Session) :
    (s.run fuel source).2.machine.frame = s.machine.frame := by
  rcases hp : (Source.program? source s.nextId).1 with errors | program
  · rw [run_of_errors hp]
  · rw [run_of_program hp]
    exact (evolves_resolved _ _ (evolves_interpret fuel program)).1.frame_eq

/-- A sink that gets full cuts a run off and does nothing else to it. From any state, and for any
program, let one run print to a sink that takes everything, and another to a sink with room for
`room` more lines. If the first prints no more than that, the second is the same. Otherwise the
second prints the first `room` of those lines and stops at the next one for the reason that the sink
is full: up to there both began the same things in the same order, after it the second began nothing
and changed nothing in the store, and it is back in the global frame. -/
theorem Reached.sink_truncates {s : Session} {held : List Value} (h : Reached s held) (fuel : Nat)
    (source : String) (room : Nat) :
    let whole := Recorded.run fuel source (s.withLimit none)
    let cut := Recorded.run fuel source (s.withLimit (some (s.printed.size + room)))
    let prints := Recorded.lines whole.events
    whole.erase = (s.withLimit none).run fuel source ∧
    cut.erase = (s.withLimit (some (s.printed.size + room))).run fuel source ∧
    whole.next.printed.toList = s.printed.toList ++ prints ∧
    (prints.length ≤ room → cut.outcome = whole.outcome ∧
      cut.next = whole.next.withLimit (some (s.printed.size + room)) ∧
      cut.events = whole.events) ∧
    (room < prints.length → cut.outcome = .error (.stopped .sinkFull) ∧
      cut.next.printed.toList = s.printed.toList ++ prints.take room ∧
      cut.next.machine.frame = Machine.globals ∧
      cut.events <+: whole.events ∧
      ∃ before line, cut.events = before ++ [.print line cut.next.machine.heap] ∧
        (Recorded.lines before).length = room) := by
  intro whole cut prints
  obtain ⟨t, ht⟩ := h.carries
  have htruncated := Recorded.truncated_run fuel source s room
  have hcut := Recorded.erase_run fuel source (s.withLimit (some (s.printed.size + room)))
  have hframe : cut.next.machine.frame = Machine.globals := by
    have hnext : cut.next = _ := congrArg Prod.snd hcut
    rw [hnext, frame_run]
    exact ht.frame
  refine ⟨Recorded.erase_run _ _ _, hcut, htruncated.printed, htruncated.same, fun hlt => ?_⟩
  obtain ⟨houtcome, hprinted, hevents, hlast⟩ := htruncated.stopped hlt
  exact ⟨houtcome, hprinted, hframe, hevents, hlast⟩

/-- Three prints inside the arguments of calls, and room for one of them. -/
theorem sink_truncates_arguments :
    let s := ((start (fun _ => 0) none).run 20
      "print \"begin\"; fun show(x) \x7b print x; return x; \x7d").2
    let source := "show(show(\"a\") + show(\"b\"));"
    Reached s [] ∧ s.printed = #["begin"] ∧
      ((s.withLimit none).run 30 source).2.printed = #["begin", "a", "b", "ab"] ∧
      ((s.withLimit (some 2)).run 30 source).1 = .error (.stopped .sinkFull) ∧
      ((s.withLimit (some 2)).run 30 source).2.printed = #["begin", "a"] ∧
      ((s.withLimit (some 2)).run 30 source).2.machine.frame = Machine.globals := by
  intro s source
  have hreached : Reached s [] := .run (.start _ _) _ _
  have hbegin : s.printed = #["begin"] := by
    simp only [s]
    cbv
  have hprints : Recorded.lines (Recorded.run 30 source (s.withLimit none)).events =
      ["a", "b", "ab"] := by
    simp only [s, source]
    cbv
  have hsize : s.printed.size + 1 = 2 := by rw [hbegin]; rfl
  obtain ⟨hwhole, hcut, hall, -, hstopped⟩ := hreached.sink_truncates 30 source 1
  rw [hprints, hbegin] at hall
  rw [hsize] at hcut
  rw [hsize, hprints, hbegin] at hstopped
  obtain ⟨houtcome, hfirst, hframe, -⟩ := hstopped (by decide)
  rw [← hwhole, ← hcut]
  exact ⟨hreached, hbegin, Array.toList_inj.1 hall, houtcome, Array.toList_inj.1 hfirst, hframe⟩

end Session

end Lox

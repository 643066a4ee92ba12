import Lox.Proofs.Coverage
import Lox.Proofs.Fuel
import Lox.Proofs.Traced
import Lox.Proofs.Violations

/-!
# What a trace tells of the store

An instance keeps the field that was set last: the trace of all that has run tells which value
this is, and every later read of the field has to give it. An assignment overwrites what its name
is bound to. Only inside the initializer of a local variable is there one more case, as the
distance of the variable leads to a frame that does not bind it yet.
-/

namespace Lox

/-- A part of an expression, or the expression itself. -/
def Expr.Inside (part whole : Expr) : Prop :=
  Relation.ReflTransGen (fun whole part => part ∈ whole.parts) whole part

theorem Expr.Inside.of_part {part inner whole : Expr} (h : part.Inside inner)
    (hi : inner ∈ whole.parts) : part.Inside whole :=
  .head hi h

/-- Neither a read of a property, nor what sets one, nor an assignment. -/
def Expr.Plain : Expr → Prop
  | .get _ _ | .set _ _ _ | .assign _ _ _ => False
  | _ => True

/-- Every frame binds the same names in both stores. -/
def Heap.SameNames (h h' : Heap) : Prop :=
  ∀ e x, (h'.local? e x).isSome = (h.local? e x).isSome

/-- Overwriting a name adds none. -/
theorem Heap.sameNames_define {h : Heap} {e : FrameId} {x : String}
    (hx : (h.local? e x).isSome) (v : Value) : h.SameNames (h.define e x v) := by
  intro p y
  rw [local?_define h (lt_of_local? hx)]
  split
  · next hp =>
    obtain ⟨rfl, rfl⟩ := hp
    exact hx.symm
  · rfl

/-- An evaluation that ends does so in one way only, whatever its fuel. -/
theorem Expr.eval_unique {e : Expr} {n n' : Nat} {m : Machine}
    {result result' : EStateM.Result Stop Machine Value} (h : e.eval n m = result)
    (h' : e.eval n' m = result') (hends : ∀ m', result ≠ .error .outOfFuel m')
    (hends' : ∀ m', result' ≠ .error .outOfFuel m') : result = result' := by
  rcases Nat.le_total n n' with hn | hn
  · rcases (larger hn).eval e m with ⟨m', hm⟩ | hm
    · exact absurd (h.symm.trans hm) (hends m')
    · exact h.symm.trans (hm.symm.trans h')
  · rcases (larger hn).eval e m with ⟨m', hm⟩ | hm
    · exact absurd (h'.symm.trans hm) (hends' m')
    · exact h.symm.trans (hm.trans h')

namespace Traced

namespace Event

def before : Event → State
  | eval _ _ before _ _ | exec _ _ before _ _ | body _ before _ _ | top _ before _ _ => before

def after : Event → State
  | eval _ _ _ _ after | exec _ _ _ _ after | body _ _ _ after | top _ _ _ after => after

/-- While the code ran nothing left the store, and before and after all links come to an end. -/
structure Grew (event : Event) : Prop where
  before : event.before.machine.heap.Rooted
  grows : event.before.machine.heap.Grows event.after.machine.heap
  after : event.after.machine.heap.Rooted

/-! ### Fields -/

/-- A field of this instance was given this value. -/
def Sets (event : Event) (o : InstanceId) (x : String) (v : Value) : Prop :=
  ∃ home object name value before after,
    event = .eval home (.set object name value) before (.ok v) after ∧ name.lexeme = x ∧
      ∃ n m, object.eval n before.machine = .ok (.instance o) m

/-- A property of this instance was read, which came to this. -/
def Reads (event : Event) (o : InstanceId) (x : String) (result : Except Stop Value) : Prop :=
  ∃ home object name before after,
    event = .eval home (.get object name) before result after ∧ name.lexeme = x ∧
      result ≠ .error .outOfFuel ∧ ∃ n m, object.eval n before.machine = .ok (.instance o) m

section

variable {home : Home} {e : Expr} {before after : State} {o : InstanceId} {x : String}

@[simp] theorem sets_eval {v : Value} {result : Except Stop Value} :
    (eval home e before result after).Sets o x v ↔ ∃ object name value,
      e = .set object name value ∧ result = .ok v ∧ name.lexeme = x ∧
        ∃ n m, object.eval n before.machine = .ok (.instance o) m := by
  constructor
  · rintro ⟨home, object, name, value, before, after, he, hx, ho⟩
    cases he
    exact ⟨object, name, value, rfl, rfl, hx, ho⟩
  · rintro ⟨object, name, value, rfl, rfl, hx, ho⟩
    exact ⟨home, object, name, value, before, after, rfl, hx, ho⟩

@[simp] theorem reads_eval {result result' : Except Stop Value} :
    (eval home e before result after).Reads o x result' ↔ ∃ object name,
      e = .get object name ∧ result = result' ∧ name.lexeme = x ∧ result ≠ .error .outOfFuel ∧
        ∃ n m, object.eval n before.machine = .ok (.instance o) m := by
  constructor
  · rintro ⟨home, object, name, before, after, he, hx, ho⟩
    cases he
    exact ⟨object, name, rfl, rfl, hx, ho⟩
  · rintro ⟨object, name, rfl, rfl, hx, ho⟩
    exact ⟨home, object, name, before, after, rfl, hx, ho⟩

end

end Event

/-- The last of the events that set this field gave it this value. -/
def SetLast (events : List Event) (o : InstanceId) (x : String) (v : Value) : Prop :=
  ∃ past event later, events = past ++ event :: later ∧ event.Sets o x v ∧
    ∀ event ∈ later, ∀ w, ¬ event.Sets o x w

/-- A field that was set is read, and its value is the one that was set last. -/
def ReadsLast (events : List Event) : Prop :=
  ∀ past event later, events = past ++ event :: later →
    ∀ o x result v, event.Reads o x result → SetLast past o x v → result = .ok v

/-! ### Variables -/

namespace Event

/-- A variable of this frame was declared with an initializer that the expression stands in. -/
def Declares (event : Event) (x : String) (frame : FrameId) (e : Expr) : Prop :=
  ∃ home name init before result after,
    event = .exec home (.var name (some init)) before result after ∧ name.lexeme = x ∧
      before.machine.frame = frame ∧ e.Inside init

end Event

/-- How an assignment of `v` ends in the machine `m`. A distance leads to a frame that binds the
name, unless it leads to the current frame and the assignment is excused; a global is there or is
missing. -/
inductive Assigned (excused : Prop) (id : NodeId) (name : Token) (v : Value) (m : Machine) :
    Except Stop Value → Machine → Prop
  | inFrame {d : Nat} {p : FrameId} : m.distances[id]? = some d →
      m.heap.ancestor? m.frame d = some p → (m.heap.local? p name.lexeme).isSome →
      Assigned excused id name v m (.ok v) { m with heap := m.heap.define p name.lexeme v }
  | excused : m.distances[id]? = some 0 → excused →
      Assigned excused id name v m (.ok v) { m with heap := m.heap.define m.frame name.lexeme v }
  | global : m.distances[id]? = none → (m.heap.local? Machine.globals name.lexeme).isSome →
      Assigned excused id name v m (.ok v)
        { m with heap := m.heap.define Machine.globals name.lexeme v }
  | missing : m.distances[id]? = none → m.heap.local? Machine.globals name.lexeme = none →
      Assigned excused id name v m
        (.error (.error ⟨.undefinedVariable name.lexeme, name.line⟩)) m

/-- If its value can be had, an assignment ends as told and adds no name to any frame, unless it is
excused, by its name, the current frame and where it stands. -/
def Event.Assigns (excused : String → FrameId → Expr → Prop) : Event → Prop
  | .eval _ (.assign id name value) before result after =>
    (∃ n stop, value.eval n before.machine = .error stop after.machine ∧ result = .error stop) ∨
      ∃ n v m, value.eval n before.machine = .ok v m ∧
        Assigned (excused name.lexeme before.machine.frame (.assign id name value)) id name v m
          result after.machine ∧
        (excused name.lexeme before.machine.frame (.assign id name value) ∨
          m.heap.SameNames after.machine.heap)
  | _ => True

theorem Assigned.imp {excused excused' : Prop} (h : excused → excused') {id : NodeId}
    {name : Token} {v : Value} {m m' : Machine} {result : Except Stop Value}
    (ha : Assigned excused id name v m result m') : Assigned excused' id name v m result m' := by
  cases ha with
  | inFrame hd hp hx => exact .inFrame hd hp hx
  | excused hd he => exact .excused hd (h he)
  | global hd hx => exact .global hd hx
  | missing hd hx => exact .missing hd hx

namespace Event

variable {event : Event}

theorem Assigns.imp {excused excused' : String → FrameId → Expr → Prop}
    (h : ∀ x frame e, excused x frame e → excused' x frame e) (ha : event.Assigns excused) :
    event.Assigns excused' := by
  cases event with
  | eval home e before result after =>
    cases e with
    | assign id name value =>
      refine ha.imp_right ?_
      rintro ⟨n, v, m, hv, ha, hs⟩
      exact ⟨n, v, m, hv, ha.imp (h _ _ _), hs.imp_left (h _ _ _)⟩
    | _ => trivial
  | _ => trivial

/-- An event sets one field to one value. -/
theorem Sets.unique {o o' : InstanceId} {x x' : String} {v v' : Value} (h : event.Sets o x v)
    (h' : event.Sets o' x' v') : o = o' ∧ x = x' ∧ v = v' := by
  obtain ⟨home, object, name, value, before, after, rfl, rfl, n, m, hm⟩ := h
  obtain ⟨_, _, _, _, _, _, he, rfl, n', m', hm'⟩ := h'
  cases he
  cases Expr.eval_unique hm hm' (by simp) (by simp)
  exact ⟨rfl, rfl, rfl⟩

end Event

/-! ### One event more -/

section

variable {events : List Event} {event : Event} {o : InstanceId} {x : String} {v : Value}

/-- The event that sets a field last is the newest one or stands before it. -/
theorem setLast_concat (h : SetLast (events ++ [event]) o x v) :
    event.Sets o x v ∨ (∀ w, ¬ event.Sets o x w) ∧ SetLast events o x v := by
  obtain ⟨past, last, later, he, hset, hlater⟩ := h
  rcases List.eq_nil_or_concat later with rfl | ⟨later, newest, rfl⟩
  · obtain ⟨rfl, hlast⟩ := List.append_inj' he rfl
    cases hlast
    exact .inl hset
  · have he' : events ++ [event] = (past ++ last :: later) ++ [newest] := by simpa using he
    obtain ⟨rfl, hnewest⟩ := List.append_inj' he' rfl
    cases hnewest
    refine .inr ⟨hlater event (by simp), past, last, later, rfl, hset, fun e hm => ?_⟩
    exact hlater e (by simp [hm])

theorem ReadsLast.concat (h : ReadsLast events)
    (hr : ∀ o x result v, event.Reads o x result → SetLast events o x v → result = .ok v) :
    ReadsLast (events ++ [event]) := by
  intro past read later he
  rcases List.eq_nil_or_concat later with rfl | ⟨later, newest, rfl⟩
  · obtain ⟨rfl, hread⟩ := List.append_inj' he rfl
    cases hread
    exact hr
  · have he' : events ++ [event] = (past ++ read :: later) ++ [newest] := by simpa using he
    obtain ⟨rfl, -⟩ := List.append_inj' he' rfl
    exact h past read later rfl

end

end Traced

end Lox

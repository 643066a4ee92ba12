import Mathlib.Logic.Relation
import Lox.Proofs.Sessions

/-!
# What running code does to the machine

Running any tree comes to a chain of small changes: a name is bound, an object is made, a field is
set, a line is printed, the clock is read. None of them moves the current frame, so however a step
ends, the machine is in the frame that the step began in; nor do they touch the table of distances
or a closure that is there.
-/

namespace Lox

theorem Sink.hasRoom_of_unlimited {sink : Sink} (h : sink.limit = none) : sink.hasRoom = true := by
  rw [hasRoom, h]
  rfl

/-! ### Changes -/

namespace Machine

/-- One thing that running code may do. -/
inductive Change (m : Machine) : Machine → Prop
  | bind (e : FrameId) (name : String) (v : Value) :
    m.Change { m with heap := m.heap.define e name v }
  | newFrame (enclosing : FrameId) (b : Bindings Value) :
    m.Change { m with heap := (m.heap.newFrame (some enclosing) b).2 }
  | newClosure (f : Closure) : m.Change { m with heap := (m.heap.newClosure f).2 }
  | newClass (c : Class) : m.Change { m with heap := (m.heap.newClass c).2 }
  | newInstance (c : ClassId) : m.Change { m with heap := (m.heap.newInstance c).2 }
  | setField (o : InstanceId) (name : String) (v : Value) :
    m.Change { m with heap := m.heap.setField o name v }
  | print (line : String) : m.Change { m with sink := m.sink.push line }
  | readClock : m.Change { m with readings := m.readings + 1 }

/-- The second machine comes from the first by changes one after the other. -/
def Evolves : Machine → Machine → Prop := Relation.ReflTransGen Change

variable {m m' m'' : Machine}

/-- A change is the same whichever frame the machine is in. -/
theorem Change.inFrame (h : m.Change m') (e : FrameId) :
    ({ m with frame := e } : Machine).Change { m' with frame := e } := by
  cases h with
  | bind p name v => exact .bind p name v
  | newFrame enclosing b => exact .newFrame enclosing b
  | newClosure f => exact .newClosure f
  | newClass c => exact .newClass c
  | newInstance c => exact .newInstance c
  | setField o name v => exact .setField o name v
  | print line => exact .print line
  | readClock => exact .readClock

theorem Change.frame_eq (h : m.Change m') : m'.frame = m.frame := by
  cases h <;> rfl

theorem Change.distances_eq (h : m.Change m') : m'.distances = m.distances := by
  cases h <;> rfl

theorem Change.limit_eq (h : m.Change m') : m'.sink.limit = m.sink.limit := by
  cases h <;> rfl

theorem Change.closures_prefix (h : m.Change m') :
    m.heap.closures.toList <+: m'.heap.closures.toList := by
  cases h with
  | newClosure f =>
    simp only [Heap.newClosure, Array.toList_push]
    exact List.prefix_append _ _
  | _ => exact List.prefix_refl _

namespace Evolves

theorem refl (m : Machine) : m.Evolves m := Relation.ReflTransGen.refl

theorem trans (h : m.Evolves m') (h' : m'.Evolves m'') : m.Evolves m'' :=
  Relation.ReflTransGen.trans h h'

theorem of_change (h : m.Change m') : m.Evolves m' := Relation.ReflTransGen.single h

theorem inFrame (h : m.Evolves m') (e : FrameId) :
    ({ m with frame := e } : Machine).Evolves { m' with frame := e } := by
  induction h with
  | refl => exact .refl _
  | tail _ h ih => exact ih.trans (.of_change (h.inFrame e))

/-- What was done in another frame, seen from the old one. -/
theorem back {e : FrameId} (h : ({ m with frame := e } : Machine).Evolves m') :
    m.Evolves { m' with frame := m.frame } := h.inFrame m.frame

theorem frame_eq (h : m.Evolves m') : m'.frame = m.frame := by
  induction h with
  | refl => rfl
  | tail _ h ih => exact h.frame_eq.trans ih

theorem distances_eq (h : m.Evolves m') : m'.distances = m.distances := by
  induction h with
  | refl => rfl
  | tail _ h ih => exact h.distances_eq.trans ih

theorem limit_eq (h : m.Evolves m') : m'.sink.limit = m.sink.limit := by
  induction h with
  | refl => rfl
  | tail _ h ih => exact h.limit_eq.trans ih

theorem closures_prefix (h : m.Evolves m') :
    m.heap.closures.toList <+: m'.heap.closures.toList := by
  induction h with
  | refl => exact List.prefix_refl _
  | tail _ h ih => exact ih.trans h.closures_prefix

/-- Closures made one after the other. -/
theorem newClosures (m : Machine) (fs : List Closure) :
    m.Evolves { m with heap := { m.heap with closures := m.heap.closures ++ fs.toArray } } := by
  induction fs generalizing m with
  | nil => simpa only [Array.append_empty] using Evolves.refl m
  | cons f fs ih =>
    have h := (of_change (.newClosure f)).trans (ih { m with heap := (m.heap.newClosure f).2 })
    have hpush : m.heap.closures.push f ++ fs.toArray = m.heap.closures ++ (f :: fs).toArray :=
      Array.ext' (by simp)
    simpa only [Heap.newClosure, hpush] using h

end Evolves

end Machine

/-! ### Steps -/

namespace Exec

variable {α β : Type} {act : Exec α}

/-- The machine that a step leaves, however it ends. -/
def after (act : Exec α) (m : Machine) : Machine :=
  match act m with
  | .ok _ m' => m'
  | .error _ m' => m'

/-- The step does nothing but changes, also when it fails. -/
def Evolves (act : Exec α) : Prop := ∀ m : Machine, m.Evolves (act.after m)

namespace Evolves

theorem leads (h : act.Evolves) {m m' : Machine} {a : α} (ha : act m = .ok a m') :
    m.Evolves m' := by
  have hafter := h m
  rwa [Exec.after, ha] at hafter

theorem pure (a : α) : (Pure.pure a : Exec α).Evolves := fun m => .refl m

theorem throw (stop : Stop) : (MonadExcept.throw stop : Exec α).Evolves := fun m => .refl m

theorem bind {f : α → Exec β} (h : act.Evolves) (hf : ∀ a, (f a).Evolves) :
    (act >>= f).Evolves := by
  intro m
  have hm := h m
  rcases hact : act m with ⟨a, m'⟩ | ⟨stop, m'⟩
  · have hf' := hf a m'
    simp only [after, Bind.bind, EStateM.bind, hact] at hm hf' ⊢
    exact hm.trans hf'
  · simp only [after, Bind.bind, EStateM.bind, hact] at hm ⊢
    exact hm

theorem withFrame (h : act.Evolves) (e : FrameId) : (Exec.withFrame e act).Evolves := by
  intro m
  have hm := h { m with frame := e }
  rcases hact : act { m with frame := e } with ⟨a, m'⟩ | ⟨stop, m'⟩
  · simp only [after, hact, withFrame_eq_ok_iff.2 ⟨m', hact, rfl⟩] at hm ⊢
    exact hm.back
  · simp only [after, hact, withFrame_eq_error_iff.2 ⟨m', hact, rfl⟩] at hm ⊢
    exact hm.back

theorem of_change (h : ∀ m : Machine, m.Change (act.after m)) : act.Evolves :=
  fun m => .of_change (h m)

theorem fail (blamed : Token) (cause : RuntimeError.Cause) :
    (Exec.fail blamed cause : Exec α).Evolves := .throw _

theorem ask (question : Machine → Except Fault α) : (Exec.ask question).Evolves := by
  intro m
  simp only [after, Exec.ask]
  cases question m <;> exact .refl m

theorem inspect (question : Heap → α) : (Exec.inspect question).Evolves := fun m => .refl m

theorem currentFrame : Exec.currentFrame.Evolves := fun m => .refl m

theorem distance? (id : NodeId) : (Exec.distance? id).Evolves := fun m => .refl m

theorem print (line : String) : (Exec.print line).Evolves := by
  intro m
  by_cases hroom : m.sink.hasRoom = true
  · simp only [after, Exec.print, hroom, if_true]
    exact .of_change (.print line)
  · simp only [after, Exec.print, hroom]
    exact .refl m

theorem define (name : String) (v : Value) : (Exec.define name v).Evolves :=
  .of_change fun m => .bind m.frame name v

theorem getFrom (e : FrameId) (name : Token) : (Exec.getFrom e name).Evolves := by
  refine (inspect _).bind fun found => ?_
  cases found with
  | some v => exact .pure v
  | none => exact .fail name _

theorem assignFrom (e : FrameId) (name : Token) (v : Value) :
    (Exec.assignFrom e name v).Evolves := by
  intro m
  simp only [after, Exec.assignFrom]
  cases m.heap.holder? e name.lexeme with
  | some p => exact .of_change (.bind p name.lexeme v)
  | none => exact .refl m

theorem assignAt (d : Nat) (name : String) (v : Value) : (Exec.assignAt d name v).Evolves := by
  intro m
  simp only [after, Exec.assignAt]
  cases m.heap.ancestor m.frame d with
  | ok p => exact .of_change (.bind p name v)
  | error fault => exact .refl m

theorem read (id : NodeId) (name : Token) : (Exec.read id name).Evolves := by
  refine (distance? id).bind fun d => ?_
  cases d with
  | some d => exact .ask _
  | none => exact .getFrom _ name

theorem assign (id : NodeId) (name : Token) (v : Value) : (Exec.assign id name v).Evolves := by
  refine (distance? id).bind fun d => ?_
  cases d with
  | some d => exact .assignAt d _ v
  | none => exact .assignFrom _ name v

theorem newFrame (enclosing : FrameId) (b : Bindings Value) : (Exec.newFrame enclosing b).Evolves :=
  .of_change fun _ => .newFrame enclosing b

theorem newClosure (f : Closure) : (Exec.newClosure f).Evolves :=
  .of_change fun _ => .newClosure f

theorem newInstance (c : ClassId) : (modifyHeap fun h => h.newInstance c).Evolves :=
  .of_change fun _ => .newInstance c

theorem bindThis (f : Closure) (o : InstanceId) : (Exec.bindThis f o).Evolves :=
  (newFrame f.frame _).bind fun _ => .pure _

/-- A method that is bound and kept as a value of its own. -/
theorem boundMethod (f : Closure) (o : InstanceId) :
    (Exec.bindThis f o >>= Exec.newClosure).Evolves :=
  (bindThis f o).bind fun g => .newClosure g

theorem getProperty (o : InstanceId) (name : Token) : (Exec.getProperty o name).Evolves := by
  refine (inspect _).bind fun field => ?_
  cases field with
  | some v => exact .pure v
  | none =>
    refine (inspect _).bind fun method => ?_
    cases method with
    | some f => exact boundMethod f o
    | none => exact .fail name _

theorem setProperty (o : InstanceId) (name : Token) (v : Value) :
    (Exec.setProperty o name v).Evolves :=
  .of_change fun _ => .setField o name.lexeme v

theorem getSuper (id : NodeId) (keyword method : Token) :
    (Exec.getSuper id keyword method).Evolves := by
  refine (distance? id).bind fun d => ?_
  rcases d with _ | d
  · exact .fail keyword _
  refine (ask _).bind fun parent => ?_
  rcases d with _ | inner
  · exact .throw _
  refine (ask _).bind fun receiver => ?_
  split
  · next c o =>
    refine (inspect _).bind fun found => ?_
    cases found with
    | some f => exact boundMethod f o
    | none => exact .fail method _
  · exact .fail keyword _

theorem now : Exec.now.Evolves := .of_change fun _ => .readClock

theorem callNative (paren : Token) (native : Native) (arguments : List Value) :
    (Exec.callNative paren native arguments).Evolves := by
  refine now.bind fun time => (inspect _).bind fun answer => ?_
  cases answer with
  | ok answer => exact .pure _
  | error message => exact .fail paren _

/-- The methods are made first. -/
theorem newClass (name : String) (superclass : Option ClassId) (methods : List FunDecl)
    (e : FrameId) : (Exec.newClass name superclass methods e).Evolves := by
  intro m
  simp only [after, newClass_eq]
  exact (Machine.Evolves.newClosures m (methods.map fun f => ⟨f, e, f.isInitializer⟩)).trans
    (.of_change (.newClass _))

theorem ofResult (operator : Token) (result : Except RuntimeError.Cause Value) :
    (Exec.ofResult operator result).Evolves := by
  cases result with
  | ok v => exact .pure v
  | error cause => exact .fail operator cause

end Evolves

end Exec

/-! ### Runs -/

theorem evolves_repeatWhile {condition : Exec Value} {body : Exec Flow} (hc : condition.Evolves)
    (hb : body.Evolves) (rounds : Nat) : (repeatWhile condition body rounds).Evolves := by
  induction rounds with
  | zero => exact .throw _
  | succ rounds ih =>
    refine hc.bind fun v => ?_
    split
    · refine hb.bind fun flow => ?_
      cases flow with
      | normal => exact ih
      | «break» => exact .pure _
      | «return» v => exact .pure _
    · exact .pure _

/-- What has this much fuel does nothing but changes. -/
structure Evolving (n : Nat) : Prop where
  eval (e : Expr) : (e.eval n).Evolves
  call (v : Value) (paren : Token) (arguments : List Value) : (v.call n paren arguments).Evolves
  run (f : Closure) (arguments : List Value) : (f.call n arguments).Evolves
  exec (s : Stmt) : (s.exec n).Evolves

namespace Evolving

variable {n : Nat}

theorem evalAll (h : Evolving n) (es : List Expr) : (es.mapM (Expr.eval n)).Evolves := by
  induction es with
  | nil => exact .pure _
  | cons e es ih =>
    rw [List.mapM_cons]
    exact (h.eval e).bind fun v => ih.bind fun vs => .pure _

theorem execAll (h : Evolving n) (ss : List Stmt) : (runAll (Stmt.exec n) ss).Evolves := by
  induction ss with
  | nil => exact .pure _
  | cons s ss ih =>
    refine (h.exec s).bind fun flow => ?_
    cases flow with
    | normal => exact ih
    | _ => exact .pure _

theorem superclassOf (h : Evolving n) (name : Token) (superclass : Option Expr) :
    (Lox.superclassOf (Expr.eval n) name superclass).Evolves := by
  cases superclass with
  | none => exact .pure _
  | some e =>
    refine (h.eval e).bind fun v => ?_
    cases v with
    | «class» c => exact .pure _
    | _ => exact .fail _ _

theorem evalSucc (h : Evolving n) (e : Expr) : (e.eval (n + 1)).Evolves := by
  cases e with
  | literal value => exact .pure _
  | grouping inner => exact h.eval inner
  | unary operator right => exact (h.eval right).bind fun v => .ofResult operator _
  | binary left operator right =>
    exact (h.eval left).bind fun v => (h.eval right).bind fun w => .ofResult operator _
  | logical left operator right =>
    refine (h.eval left).bind fun v => ?_
    split
    · exact .pure v
    · exact h.eval right
  | «variable» id name => exact .read id name
  | assign id name value =>
    exact (h.eval value).bind fun v => (Exec.Evolves.assign id name v).bind fun _ => .pure v
  | call callee paren arguments =>
    refine (h.eval callee).bind fun f => (h.evalAll arguments).bind fun vs =>
      (Exec.Evolves.inspect _).bind fun arity => ?_
    cases arity with
    | none => exact .fail paren _
    | some arity =>
      dsimp only
      split
      · exact h.call f paren vs
      · exact .fail paren _
  | get object name =>
    refine (h.eval object).bind fun v => ?_
    cases v with
    | «instance» o => exact .getProperty o name
    | _ => exact .fail name _
  | set object name value =>
    refine (h.eval object).bind fun v => ?_
    cases v with
    | «instance» o =>
      exact (h.eval value).bind fun v => (Exec.Evolves.setProperty o name v).bind fun _ => .pure v
    | _ => exact .fail name _
  | this id keyword => exact .read id keyword
  | super id keyword method => exact .getSuper id keyword method

theorem callSucc (h : Evolving n) (v : Value) (paren : Token) (arguments : List Value) :
    (v.call (n + 1) paren arguments).Evolves := by
  cases v with
  | native id =>
    exact (Exec.Evolves.inspect _).bind fun native => .callNative paren native arguments
  | function f => exact (Exec.Evolves.inspect _).bind fun f => h.run f arguments
  | «class» c =>
    refine (Exec.Evolves.newInstance c).bind fun o => (Exec.Evolves.inspect _).bind fun found => ?_
    cases found with
    | none => exact .pure _
    | some f =>
      exact (Exec.Evolves.bindThis f o).bind fun g => (h.run g arguments).bind fun _ => .pure _
  | _ => exact .fail paren _

theorem runSucc (h : Evolving n) (f : Closure) (arguments : List Value) :
    (f.call (n + 1) arguments).Evolves := by
  refine (Exec.Evolves.newFrame f.frame _).bind fun e =>
    ((h.execAll f.decl.body).withFrame e).bind fun flow => ?_
  split
  · exact .ask _
  · exact .pure _

theorem execSucc (h : Evolving n) (s : Stmt) : (s.exec (n + 1)).Evolves := by
  cases s with
  | expression value => exact (h.eval value).bind fun _ => .pure _
  | print value =>
    exact (h.eval value).bind fun v => (Exec.Evolves.inspect _).bind fun line =>
      (Exec.Evolves.print line).bind fun _ => .pure _
  | var name initializer =>
    cases initializer with
    | none => exact (Exec.Evolves.define _ _).bind fun _ => .pure _
    | some value =>
      exact (h.eval value).bind fun v => (Exec.Evolves.define _ v).bind fun _ => .pure _
  | block body =>
    exact Exec.Evolves.currentFrame.bind fun here => (Exec.Evolves.newFrame here _).bind fun e =>
      (h.execAll body).withFrame e
  | «if» condition thenBranch elseBranch =>
    refine (h.eval condition).bind fun v => ?_
    split
    · exact h.exec thenBranch
    · cases elseBranch with
      | none => exact .pure _
      | some elseBranch => exact h.exec elseBranch
  | «while» condition body => exact evolves_repeatWhile (h.eval condition) (h.exec body) n
  | «break» keyword => exact .pure _
  | function decl =>
    exact Exec.Evolves.currentFrame.bind fun here => (Exec.Evolves.newClosure _).bind fun f =>
      (Exec.Evolves.define _ f).bind fun _ => .pure _
  | «return» keyword value =>
    cases value with
    | none => exact .pure _
    | some value => exact (h.eval value).bind fun v => .pure _
  | «class» name superclass methods =>
    refine (h.superclassOf name superclass).bind fun parent =>
      (Exec.Evolves.define _ _).bind fun _ => Exec.Evolves.currentFrame.bind fun here => ?_
    have around : (methodFrame here parent).Evolves := by
      cases parent with
      | none => exact .pure here
      | some c => exact .newFrame here _
    exact around.bind fun e => (Exec.Evolves.newClass _ _ methods e).bind fun c =>
      (Exec.Evolves.assignFrom here name c).bind fun _ => .pure _

end Evolving

theorem evolving (n : Nat) : Evolving n := by
  induction n with
  | zero =>
    exact
      { eval := fun e => e.eval_zero ▸ .throw _
        call := fun v paren arguments => v.call_zero paren arguments ▸ .throw _
        run := fun f arguments => f.call_zero arguments ▸ .throw _
        exec := fun s => s.exec_zero ▸ .throw _ }
  | succ n ih =>
    exact
      { eval := ih.evalSucc
        call := ih.callSucc
        run := ih.runSucc
        exec := ih.execSucc }

theorem evolves_interpret (fuel : Nat) (program : List Stmt) :
    (interpret fuel program).Evolves := by
  induction program with
  | nil => exact .pure _
  | cons s program ih =>
    exact (((evolving fuel).exec s).bind fun _ => .pure _).bind fun _ => ih

/-! ### Sessions -/

namespace Session

theorem machine_perform {α : Type} (s : Session) (act : Exec α) :
    (s.perform act).2.machine = act.after s.machine := by
  unfold perform Exec.after
  rcases act s.machine with _ | _ <;> rfl

/-- However a step ends, and however deep it stopped, the machine is again in the frame that the
step began in. So whatever ended the inputs before, a session executes an input in the global frame,
from its first statement to its last. -/
theorem Reached.frame_restored {s : Session} {held : List Value} (h : Reached s held) :
    (∀ (fuel : Nat) (e : Expr) (m : Machine), ((e.eval fuel).after m).frame = m.frame) ∧
    (∀ (fuel : Nat) (stmt : Stmt) (m : Machine), ((stmt.exec fuel).after m).frame = m.frame) ∧
    (∀ (fuel : Nat) (source : String) (program : List Stmt),
      (Source.program? source s.nextId).1 = .ok program → (Scope.resolve program).errors = #[] →
      let first := s.machine.noteAll (Scope.resolve program).distances
      s.run fuel source =
          perform ⟨first, (Source.program? source s.nextId).2⟩ (interpret fuel program) ∧
        ∀ before rest, program = before ++ rest →
          ((interpret fuel before).after first).frame = Machine.globals) ∧
    ∀ (fuel : Nat) (source : String) (e : Expr),
      (Source.expression? source s.nextId).1 = .ok e → (Scope.resolveExpression e).errors = #[] →
      let first := s.machine.noteAll (Scope.resolveExpression e).distances
      s.evaluate fuel source =
          perform ⟨first, (Source.expression? source s.nextId).2⟩ (e.eval fuel) ∧
        first.frame = Machine.globals := by
  obtain ⟨t, ht⟩ := h.carries
  refine ⟨fun fuel e m => ((evolving fuel).eval e m).frame_eq,
    fun fuel stmt m => ((evolving fuel).exec stmt m).frame_eq,
    fun fuel source program hp hr => ⟨?_, fun before rest _ => ?_⟩,
    fun fuel source e hp hr => ⟨?_, ht.frame⟩⟩
  · rw [run_of_program hp, resolved_of_silent hr]
  · exact (evolves_interpret fuel before _).frame_eq.trans ht.frame
  · rw [evaluate_of_expression hp, resolved_of_silent hr]

/-- An input that stops in a block of a function that it calls, and the next one. -/
theorem frame_restored_call :
    let s := (start (fun _ => 0) none).run 20 "fun f() \x7b \x7b print missing; \x7d \x7d f();"
    s.1 = .error (.stopped (.error ⟨.undefinedVariable "missing", 1⟩)) ∧ Reached s.2 [] ∧
      ∃ program, (Source.program? "f = nil;" s.2.nextId).1 = .ok program ∧
        (Scope.resolve program).errors = #[] ∧
        s.2.run 20 "f = nil;" =
          perform ⟨s.2.machine.noteAll (Scope.resolve program).distances,
            (Source.program? "f = nil;" s.2.nextId).2⟩ (interpret 20 program) ∧
        (s.2.machine.noteAll (Scope.resolve program).distances).frame = Machine.globals := by
  have hnext : ((start (fun _ => 0) none).run 20
      "fun f() \x7b \x7b print missing; \x7d \x7d f();").2.nextId = 2 := by cbv
  have hstop : ((start (fun _ => 0) none).run 20
      "fun f() \x7b \x7b print missing; \x7d \x7d f();").1 =
      .error (.stopped (.error ⟨.undefinedVariable "missing", 1⟩)) := by cbv
  intro s
  have hreached : Reached s.2 [] := .run (.start _ _) _ _
  have hp : (Source.program? "f = nil;" s.2.nextId).1 =
      .ok [.expression (.assign ⟨3⟩ ⟨.identifier, "f", 1⟩ (.literal .nil))] := by
    rw [show s.2.nextId = 2 from hnext]
    cbv
  have hr : (Scope.resolve [.expression (.assign ⟨3⟩ ⟨.identifier, "f", 1⟩
      (.literal .nil))]).errors = #[] := by decide
  obtain ⟨hrun, hstatements⟩ := hreached.frame_restored.2.2.1 20 "f = nil;" _ hp hr
  exact ⟨hstop, hreached, _, hp, hr, hrun, hstatements [] _ rfl⟩

end Session

end Lox

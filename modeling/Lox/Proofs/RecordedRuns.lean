import Lox.Proofs.Evolution
import Lox.Proofs.Recorded

/-!
# What a recorded run is made of

A recorded run is put together from steps that have nothing to do with the sink, notes, prints, and
runs in another frame. Whatever is shown of these and of one step after another holds of every
recorded run (`Records`). The first such thing is that the machine takes the same steps as ever.
-/

namespace Lox

/-- The same end in another state. -/
def onState {σ τ α : Type} (f : σ → τ) : EStateM.Result Stop σ α → EStateM.Result Stop τ α
  | .ok a s => .ok a (f s)
  | .error stop s => .error stop (f s)

/-- The state at an end, whichever it is. -/
def endState {σ α : Type} : EStateM.Result Stop σ α → σ
  | .ok _ s => s
  | .error _ s => s

theorem endState_onState {σ τ α : Type} (f : σ → τ) (result : EStateM.Result Stop σ α) :
    endState (onState f result) = f (endState result) := by
  cases result <;> rfl

theorem onState_congr {σ τ α : Type} {f g : σ → τ} {result : EStateM.Result Stop σ α}
    (h : f (endState result) = g (endState result)) : onState f result = onState g result := by
  cases result with
  | ok a s => exact congrArg (EStateM.Result.ok a) h
  | error stop s => exact congrArg (EStateM.Result.error stop) h

/-! ### Steps that leave the sink alone -/

def Machine.withSink (m : Machine) (sink : Sink) : Machine := { m with sink }

namespace Exec

variable {α β : Type} {act : Exec α}

/-- The step does the same whatever the sink is, and leaves it as it is. -/
def Silent (act : Exec α) : Prop :=
  ∀ (m : Machine) (sink : Sink), act (m.withSink sink) = onState (·.withSink sink) (act m)

theorem Silent.sink_eq (h : act.Silent) (m : Machine) : (endState (act m)).sink = m.sink := by
  have hm : act m = onState (·.withSink m.sink) (act m) := h m m.sink
  rw [hm, endState_onState]
  rfl

namespace Silent

theorem pure (a : α) : (Pure.pure a : Exec α).Silent := fun _ _ => rfl

theorem throw (stop : Stop) : (MonadExcept.throw stop : Exec α).Silent := fun _ _ => rfl

theorem bind {f : α → Exec β} (h : act.Silent) (hf : ∀ a, (f a).Silent) : (act >>= f).Silent := by
  intro m sink
  simp only [Bind.bind, EStateM.bind, h m sink]
  rcases act m with ⟨a, m'⟩ | ⟨stop, m'⟩
  · exact hf a m' sink
  · rfl

theorem fail (blamed : Token) (cause : RuntimeError.Cause) :
    (Exec.fail blamed cause : Exec α).Silent := .throw _

theorem ask {question : Machine → Except Fault α}
    (h : ∀ (m : Machine) (sink : Sink), question (m.withSink sink) = question m) :
    (Exec.ask question).Silent := by
  intro m sink
  simp only [Exec.ask, h]
  cases question m <;> rfl

theorem inspect (question : Heap → α) : (Exec.inspect question).Silent := fun _ _ => rfl

theorem currentFrame : Exec.currentFrame.Silent := fun _ _ => rfl

theorem distance? (id : NodeId) : (Exec.distance? id).Silent := fun _ _ => rfl

theorem modifyHeap (f : Heap → α × Heap) : (Exec.modifyHeap f).Silent := fun _ _ => rfl

theorem define (name : String) (v : Value) : (Exec.define name v).Silent := fun _ _ => rfl

theorem getAt (d : Nat) (name : String) : (Exec.getAt d name).Silent := .ask fun _ _ => rfl

theorem getFrom (e : FrameId) (name : Token) : (Exec.getFrom e name).Silent := by
  refine (inspect _).bind fun found => ?_
  cases found with
  | some v => exact .pure v
  | none => exact .fail name _

theorem assignFrom (e : FrameId) (name : Token) (v : Value) :
    (Exec.assignFrom e name v).Silent := by
  intro m sink
  simp only [Exec.assignFrom, Machine.withSink]
  cases m.heap.holder? e name.lexeme <;> rfl

theorem assignAt (d : Nat) (name : String) (v : Value) : (Exec.assignAt d name v).Silent := by
  intro m sink
  simp only [Exec.assignAt, Machine.withSink]
  cases m.heap.ancestor m.frame d <;> rfl

theorem read (id : NodeId) (name : Token) : (Exec.read id name).Silent := by
  refine (distance? id).bind fun d => ?_
  cases d with
  | some d => exact .getAt d _
  | none => exact .getFrom _ name

theorem assign (id : NodeId) (name : Token) (v : Value) : (Exec.assign id name v).Silent := by
  refine (distance? id).bind fun d => ?_
  cases d with
  | some d => exact .assignAt d _ v
  | none => exact .assignFrom _ name v

theorem newFrame (enclosing : FrameId) (b : Bindings Value) : (Exec.newFrame enclosing b).Silent :=
  .modifyHeap _

theorem newClosure (f : Closure) : (Exec.newClosure f).Silent := .modifyHeap _

theorem bindThis (f : Closure) (o : InstanceId) : (Exec.bindThis f o).Silent :=
  (newFrame f.frame _).bind fun _ => .pure _

/-- A method that is bound and kept as a value of its own. -/
theorem boundMethod (f : Closure) (o : InstanceId) :
    (Exec.bindThis f o >>= Exec.newClosure).Silent :=
  (bindThis f o).bind newClosure

theorem getProperty (o : InstanceId) (name : Token) : (Exec.getProperty o name).Silent := by
  refine (inspect _).bind fun field => ?_
  cases field with
  | some v => exact .pure v
  | none =>
    refine (inspect _).bind fun method => ?_
    cases method with
    | some f => exact boundMethod f o
    | none => exact .fail name _

theorem setProperty (o : InstanceId) (name : Token) (v : Value) :
    (Exec.setProperty o name v).Silent := .modifyHeap _

theorem getSuper (id : NodeId) (keyword method : Token) :
    (Exec.getSuper id keyword method).Silent := by
  refine (distance? id).bind fun d => ?_
  rcases d with _ | d
  · exact .fail keyword _
  refine (getAt _ _).bind fun parent => ?_
  rcases d with _ | inner
  · exact .throw _
  refine (getAt _ _).bind fun receiver => ?_
  split
  · next c o =>
    refine (inspect _).bind fun found => ?_
    cases found with
    | some f => exact boundMethod f o
    | none => exact .fail method _
  · exact .fail keyword _

theorem now : Exec.now.Silent := fun _ _ => rfl

theorem callNative (paren : Token) (native : Native) (arguments : List Value) :
    (Exec.callNative paren native arguments).Silent := by
  refine now.bind fun time => (inspect _).bind fun answer => ?_
  cases answer with
  | ok answer => exact .pure _
  | error message => exact .fail paren _

theorem newClass (name : String) (superclass : Option ClassId) (methods : List FunDecl)
    (e : FrameId) : (Exec.newClass name superclass methods e).Silent := .modifyHeap _

theorem ofResult (operator : Token) (result : Except RuntimeError.Cause Value) :
    (Exec.ofResult operator result).Silent := by
  cases result with
  | ok v => exact .pure v
  | error cause => exact .fail operator cause

theorem methodFrame (here : FrameId) (parent : Option ClassId) :
    (Lox.methodFrame here parent).Silent := by
  cases parent with
  | none => exact .pure here
  | some c => exact .newFrame here _

end Silent

end Exec

namespace Recorded

/-! ### Recorded steps -/

theorem lift_eq {α : Type} (act : Exec α) (t : State) :
    lift act t = onState (fun m => { t with machine := m }) (act t.machine) := by
  unfold lift
  rcases act t.machine with _ | _ <;> rfl

/-- The recorded step is made like the plain one, from steps that leave the sink alone, notes and
prints. -/
inductive Records : {α : Type} → Run α → Exec α → Prop
  | lift {α : Type} {act : Exec α} (h : act.Silent) : Records (lift act) act
  | note (event : Event) (h : event.line? = none) : Records (note event) (Pure.pure ())
  | print (line : String) : Records (print line) (Exec.print line)
  | bind {α β : Type} {r : Run α} {act : Exec α} {f : α → Run β} {g : α → Exec β}
      (h : Records r act) (hf : ∀ a, Records (f a) (g a)) : Records (r >>= f) (act >>= g)
  | withFrame {α : Type} {r : Run α} {act : Exec α} (e : FrameId) (h : Records r act) :
      Records (withFrame e r) (Exec.withFrame e act)

namespace Records

variable {α β : Type} {r : Run α} {act : Exec α}

theorem pure (a : α) : Records (Pure.pure a) (Pure.pure a) := .lift (.pure a)

theorem throw (stop : Stop) : Records (MonadExcept.throw stop : Run α) (MonadExcept.throw stop) :=
  .lift (.throw stop)

theorem fail (blamed : Token) (cause : RuntimeError.Cause) :
    Records (Recorded.lift (Exec.fail blamed cause : Exec α)) (Exec.fail blamed cause) :=
  .lift (.fail blamed cause)

theorem inspect (question : Heap → α) :
    Records (Recorded.lift (Exec.inspect question)) (Exec.inspect question) :=
  .lift (.inspect question)

/-- A note in front of a step. -/
theorem noting {event : Event} (he : event.line? = none) (h : Records r act) :
    Records (do Recorded.note event; r) act :=
  (Records.note event he).bind fun _ => h

theorem mapM {ι : Type} {f : ι → Run α} {g : ι → Exec α} (h : ∀ i, Records (f i) (g i))
    (is : List ι) : Records (is.mapM f) (is.mapM g) := by
  induction is with
  | nil => exact .pure _
  | cons i is ih =>
    rw [List.mapM_cons, List.mapM_cons]
    exact (h i).bind fun a => ih.bind fun as => .pure _

theorem runAll {f : Stmt → Run Flow} {g : Stmt → Exec Flow} (h : ∀ s, Records (f s) (g s))
    (ss : List Stmt) : Records (Recorded.runAll f ss) (Lox.runAll g ss) := by
  induction ss with
  | nil => exact .pure _
  | cons s ss ih =>
    refine (h s).bind fun flow => ?_
    cases flow with
    | normal => exact ih
    | _ => exact .pure _

theorem repeatWhile {condition : Run Value} {condition' : Exec Value} {body : Run Flow}
    {body' : Exec Flow} (hc : Records condition condition') (hb : Records body body')
    (rounds : Nat) :
    Records (Recorded.repeatWhile condition body rounds)
      (Lox.repeatWhile condition' body' rounds) := by
  induction rounds with
  | zero => exact .throw _
  | succ rounds ih =>
    refine hc.bind fun v => ?_
    split
    · refine hb.bind fun flow => ?_
      cases flow with
      | normal => exact ih
      | «break» => exact .pure _
      | «return» v => exact .pure _
    · exact .pure _

theorem superclassOf {f : Expr → Run Value} {g : Expr → Exec Value}
    (h : ∀ e, Records (f e) (g e)) (name : Token) (superclass : Option Expr) :
    Records (Recorded.superclassOf f name superclass) (Lox.superclassOf g name superclass) := by
  cases superclass with
  | none => exact .pure _
  | some e =>
    refine (h e).bind fun v => ?_
    cases v with
    | «class» c => exact .pure _
    | _ => exact .fail _ _

end Records

/-! ### Trees -/

/-- What has this much fuel is recorded as it runs. -/
structure Recording (n : Nat) : Prop where
  eval (e : Expr) : Records (eval n e) (e.eval n)
  call (v : Value) (paren : Token) (arguments : List Value) :
    Records (call n v paren arguments) (v.call n paren arguments)
  run (f : Closure) (arguments : List Value) :
    Records (callClosure n f arguments) (f.call n arguments)
  exec (s : Stmt) : Records (exec n s) (s.exec n)

namespace Recording

variable {n : Nat}

theorem evalSucc (h : Recording n) (e : Expr) :
    Records (Recorded.eval (n + 1) e) (e.eval (n + 1)) := by
  refine .noting rfl ?_
  cases e with
  | literal value => exact .pure _
  | grouping inner => exact h.eval inner
  | unary operator right => exact (h.eval right).bind fun v => .lift (.ofResult operator _)
  | binary left operator right =>
    exact (h.eval left).bind fun v => (h.eval right).bind fun w => .lift (.ofResult operator _)
  | logical left operator right =>
    refine (h.eval left).bind fun v => ?_
    split
    · exact .pure v
    · exact h.eval right
  | «variable» id name => exact .lift (.read id name)
  | assign id name value =>
    exact (h.eval value).bind fun v => (Records.lift (.assign id name v)).bind fun _ => .pure v
  | call callee paren arguments =>
    refine (h.eval callee).bind fun f => (Records.mapM h.eval arguments).bind fun vs =>
      (Records.inspect _).bind fun arity => ?_
    cases arity with
    | none => exact .fail paren _
    | some arity =>
      dsimp only
      split
      · exact h.call f paren vs
      · exact .fail paren _
  | get object name =>
    refine (h.eval object).bind fun v => ?_
    cases v with
    | «instance» o => exact .lift (.getProperty o name)
    | _ => exact .fail name _
  | set object name value =>
    refine (h.eval object).bind fun v => ?_
    cases v with
    | «instance» o =>
      exact (h.eval value).bind fun v =>
        (Records.lift (.setProperty o name v)).bind fun _ => .pure v
    | _ => exact .fail name _
  | this id keyword => exact .lift (.read id keyword)
  | super id keyword method => exact .lift (.getSuper id keyword method)

theorem callSucc (h : Recording n) (v : Value) (paren : Token) (arguments : List Value) :
    Records (Recorded.call (n + 1) v paren arguments) (v.call (n + 1) paren arguments) := by
  cases v with
  | native id =>
    exact (Records.inspect _).bind fun native => .lift (.callNative paren native arguments)
  | function f => exact (Records.inspect _).bind fun f => h.run f arguments
  | «class» c =>
    refine (Records.lift (.modifyHeap _)).bind fun o => (Records.inspect _).bind fun found => ?_
    cases found with
    | none => exact .pure _
    | some f =>
      exact (Records.lift (.bindThis f o)).bind fun g => (h.run g arguments).bind fun _ => .pure _
  | _ => exact .fail paren _

theorem runSucc (h : Recording n) (f : Closure) (arguments : List Value) :
    Records (callClosure (n + 1) f arguments) (f.call (n + 1) arguments) := by
  refine (Records.lift (.newFrame f.frame _)).bind fun e =>
    ((Records.runAll h.exec f.decl.body).withFrame e).bind fun flow => ?_
  split
  · exact .lift (.ask fun _ _ => rfl)
  · exact .pure _

theorem execSucc (h : Recording n) (s : Stmt) :
    Records (Recorded.exec (n + 1) s) (s.exec (n + 1)) := by
  refine .noting rfl ?_
  cases s with
  | expression value => exact (h.eval value).bind fun _ => .pure _
  | print value =>
    exact (h.eval value).bind fun v => (Records.inspect _).bind fun line =>
      (Records.print line).bind fun _ => .pure _
  | var name initializer =>
    cases initializer with
    | none => exact (Records.lift (.define _ _)).bind fun _ => .pure _
    | some value =>
      exact (h.eval value).bind fun v => (Records.lift (.define _ v)).bind fun _ => .pure _
  | block body =>
    exact (Records.lift .currentFrame).bind fun here =>
      (Records.lift (.newFrame here _)).bind fun e => (Records.runAll h.exec body).withFrame e
  | «if» condition thenBranch elseBranch =>
    refine (h.eval condition).bind fun v => ?_
    split
    · exact h.exec thenBranch
    · cases elseBranch with
      | none => exact .pure _
      | some elseBranch => exact h.exec elseBranch
  | «while» condition body => exact .repeatWhile (h.eval condition) (h.exec body) n
  | «break» keyword => exact .pure _
  | function decl =>
    exact (Records.lift .currentFrame).bind fun here => (Records.lift (.newClosure _)).bind fun f =>
      (Records.lift (.define _ f)).bind fun _ => .pure _
  | «return» keyword value =>
    cases value with
    | none => exact .pure _
    | some value => exact (h.eval value).bind fun v => .pure _
  | «class» name superclass methods =>
    exact (Records.superclassOf h.eval name superclass).bind fun parent =>
      (Records.lift (.define _ _)).bind fun _ => (Records.lift .currentFrame).bind fun here =>
      (Records.lift (.methodFrame here parent)).bind fun e =>
      (Records.lift (.newClass _ _ methods e)).bind fun c =>
      (Records.lift (.assignFrom here name c)).bind fun _ => .pure _

end Recording

theorem recording (n : Nat) : Recording n := by
  induction n with
  | zero =>
    exact
      { eval := fun _ => .throw _
        call := fun _ _ _ => .throw _
        run := fun _ _ => .throw _
        exec := fun _ => .throw _ }
  | succ n ih =>
    exact
      { eval := ih.evalSucc
        call := ih.callSucc
        run := ih.runSucc
        exec := ih.execSucc }

theorem records_interpret (fuel : Nat) (program : List Stmt) :
    Records (interpret fuel program) (Lox.interpret fuel program) := by
  induction program with
  | nil => exact .pure _
  | cons s program ih =>
    exact (((recording fuel).exec s).bind fun _ => .pure _).bind fun _ => ih

/-! ### Without the record -/

/-- The machine takes the steps of the plain run. -/
theorem Records.erase {α : Type} {r : Run α} {act : Exec α} (h : Records r act) (t : State) :
    onState State.machine (r t) = act t.machine := by
  induction h generalizing t with
  | @lift _ act h =>
    rw [lift_eq]
    rcases act t.machine with _ | _ <;> rfl
  | note => rfl
  | print line =>
    simp only [Recorded.print, lift_eq, State.noting]
    rcases Exec.print line t.machine with _ | _ <;> rfl
  | @bind _ _ r act f g h hf ih ihf =>
    have ht := ih t
    simp only [Bind.bind, EStateM.bind]
    rcases hr : r t with ⟨a, u⟩ | ⟨stop, u⟩
    · rw [hr] at ht
      rw [← ht]
      exact ihf a u
    · rw [hr] at ht
      rw [← ht]
      rfl
  | @withFrame _ r act e h ih =>
    have ht := ih { t with machine := { t.machine with frame := e } }
    simp only [Recorded.withFrame, Exec.withFrame]
    rw [← ht]
    rcases r _ with _ | _ <;> rfl

theorem erase_perform {r : Run Unit} {act : Exec Unit} (h : Records r act) (s : Session) :
    (perform s r).erase = s.perform act := by
  have hs := h.erase ⟨s.machine, []⟩
  simp only [perform, Session.perform]
  rw [← hs]
  rcases r _ with _ | _ <;> rfl

/-- The answer of a session is the same with a record. -/
theorem erase_run (fuel : Nat) (source : String) (s : Session) :
    (run fuel source s).erase = s.run fuel source := by
  simp only [run, Session.run]
  rcases (Source.program? source s.nextId).1 with errors | program
  · rfl
  · simp only [resolved, Session.resolved]
    rcases (Scope.resolve program).errors.toList with _ | _
    · exact erase_perform (records_interpret fuel program) _
    · rfl

end Recorded

end Lox

import Lox.Proofs.Shapes
import Lox.Proofs.SyntaxErrors

/-!
# Operators that the machine knows

Every tree that is parsed, from any list of tokens, has operators that belong to their nodes, names
for superclasses, no declaration as a branch or a body, no list that is too long and no end marker.
Functions keep the bodies that they were parsed with. So no run comes to an operator that it does not
know, in whichever input the code was read.
-/

namespace Lox

/-! ### Regular nodes -/

/-- The kinds of the operators that evaluate both sides. -/
def Kind.binaryOperators : List Kind :=
  [.punct .bangEqual, .punct .equalEqual, .punct .greater, .punct .greaterEqual, .punct .less,
    .punct .lessEqual, .punct .minus, .punct .plus, .punct .star, .punct .slash]

namespace Node

/-- The tokens that a node keeps, without those of its parts. -/
def tokens : Node → List Token
  | .expr (.unary operator _) => [operator]
  | .expr (.binary _ operator _) => [operator]
  | .expr (.logical _ operator _) => [operator]
  | .expr (.variable _ name) => [name]
  | .expr (.assign _ name _) => [name]
  | .expr (.call _ paren _) => [paren]
  | .expr (.get _ name) => [name]
  | .expr (.set _ name _) => [name]
  | .expr (.this _ keyword) => [keyword]
  | .expr (.super _ keyword method) => [keyword, method]
  | .stmt (.var name _) => [name]
  | .stmt (.break keyword) => [keyword]
  | .stmt (.return keyword _) => [keyword]
  | .stmt (.class name _ _) => [name]
  | .decl f => f.name :: f.params
  | _ => []

/-- Operators of the right kind, variables for superclasses, statements that declare nothing for
branches and loop bodies, and lists that are not too long. -/
def Shaped : Node → Prop
  | .expr (.unary operator _) => operator.kind = .punct .bang ∨ operator.kind = .punct .minus
  | .expr (.binary _ operator _) => operator.kind ∈ Kind.binaryOperators
  | .expr (.logical _ operator _) => operator.kind = .keyword .and ∨ operator.kind = .keyword .or
  | .expr (.call _ _ arguments) => arguments.length ≤ 255
  | .stmt (.class _ superclass _) => ∀ e ∈ superclass, ∃ id name, e = .variable id name
  | .stmt (.if _ thenBranch elseBranch) =>
    thenBranch.declared? = none ∧ ∀ s ∈ elseBranch, s.declared? = none
  | .stmt (.while _ body) => body.declared? = none
  | .decl f => f.params.length ≤ 255
  | _ => True

structure Regular (node : Node) : Prop where
  shaped : node.Shaped
  tokens : ∀ t ∈ node.tokens, t.kind ≠ .eof

/-- The tokens of a node that is as the grammar has it are good. -/
theorem Fits.tokens {good : Token → Prop} {node : Node} (h : node.Fits good) :
    ∀ t ∈ node.tokens, good t := by
  cases node with
  | expr e =>
    cases e with
    | unary operator right => simpa [Node.tokens] using h.2
    | binary left operator right => simpa [Node.tokens] using h.2
    | logical left operator right => simpa [Node.tokens] using h.2
    | «variable» id name => simpa [Node.tokens] using h.2
    | assign id name value => simpa [Node.tokens] using h.2
    | call callee paren arguments => simpa [Node.tokens] using h.1.2
    | get object name => simpa [Node.tokens] using h.2
    | set object name value => simpa [Node.tokens] using h.2
    | this id keyword => simpa [Node.tokens] using h.2
    | super id keyword method => simpa [Node.tokens] using ⟨h.1.2, h.2.2⟩
    | _ => simp [Node.tokens]
  | stmt s =>
    cases s with
    | var name initializer => simpa [Node.tokens] using h.2
    | «break» keyword => simpa [Node.tokens] using h.2
    | «return» keyword value => simpa [Node.tokens] using h.2
    | «class» name superclass methods => simpa [Node.tokens] using h.1.2
    | _ => simp [Node.tokens]
  | decl f => exact List.forall_mem_cons.2 ⟨h.1.2, fun p hp => (h.2.1 p hp).2⟩

theorem binaryOperators_of_joins {level : Parser.Level} {kind : Kind}
    (hl : ¬ Grammar.IsLogical level) (h : Grammar.Joins level kind) :
    kind ∈ Kind.binaryOperators := by
  cases h with
  | or => exact absurd (.inl rfl) hl
  | and => exact absurd (.inr rfl) hl
  | _ => simp [Kind.binaryOperators]

theorem bang_or_minus_of_negates {kind : Kind} (h : Grammar.Negates kind) :
    kind = .punct .bang ∨ kind = .punct .minus := by
  cases h with
  | bang => exact .inl rfl
  | minus => exact .inr rfl

theorem and_or_or_of_joins {level : Parser.Level} {kind : Kind} (hl : Grammar.IsLogical level)
    (h : Grammar.Joins level kind) : kind = .keyword .and ∨ kind = .keyword .or := by
  cases h with
  | or => exact .inr rfl
  | and => exact .inl rfl
  | _ => simp [Grammar.IsLogical] at hl

theorem Fits.shaped {good : Token → Prop} {node : Node} (h : node.Fits good) : node.Shaped := by
  cases node with
  | expr e =>
    cases e with
    | unary operator right => exact bang_or_minus_of_negates h.1
    | binary left operator right =>
      obtain ⟨⟨level, hl, hj⟩, -⟩ := h
      exact binaryOperators_of_joins hl hj
    | logical left operator right =>
      obtain ⟨⟨level, hl, hj⟩, -⟩ := h
      exact and_or_or_of_joins hl hj
    | call callee paren arguments => exact h.2
    | _ => trivial
  | stmt s =>
    cases s with
    | «if» condition thenBranch elseBranch => exact h
    | «while» condition body => exact h
    | «class» name superclass methods => exact h.2
    | _ => trivial
  | decl f => exact h.2.2

theorem Fits.regular {node : Node} (h : node.Fits (·.kind ≠ .eof)) : node.Regular :=
  ⟨h.shaped, h.tokens⟩

end Node

/-! ### Parsed trees -/

/-- What stands behind the first end marker makes no difference. -/
theorem TokenStream.ofList_ofList (tokens : List Token) :
    ofList ((ofList tokens).ahead ++ [(ofList tokens).eof]) = ofList tokens :=
  Parser.ofList_append (kinds_ofList tokens).1 (kinds_ofList tokens).2

namespace Parser

variable {tokens : List Token} {first : Nat}

theorem program_regular {stmts : List Stmt} (h : (program tokens first).1 = .ok stmts) :
    ∀ s ∈ stmts, (Node.stmt s).All Node.Regular := by
  obtain ⟨hahead, heof⟩ := TokenStream.kinds_ofList tokens
  have hp : program ((TokenStream.ofList tokens).ahead ++ [(TokenStream.ofList tokens).eof]) first =
      (.ok stmts, (program tokens first).2) := by
    rw [← h]
    simp only [program, TokenStream.ofList_ofList]
  exact fun s hs part hc => (fits_program hahead heof hahead hp s hs part hc).regular

theorem expressionOnly_regular {e : Expr} (h : (expressionOnly tokens first).1 = .ok e) :
    (Node.expr e).All Node.Regular := by
  obtain ⟨hahead, heof⟩ := TokenStream.kinds_ofList tokens
  have he : expressionOnly ((TokenStream.ofList tokens).ahead ++ [(TokenStream.ofList tokens).eof])
      first = (.ok e, (expressionOnly tokens first).2) := by
    rw [← h]
    simp only [expressionOnly, TokenStream.ofList_ofList]
  have hg := (expressionOnly_eq_ok_iff hahead heof first e _).1 he
  exact fun part hc => (hg.fits hahead part hc).regular

end Parser

/-! ### Steps -/

/-- The function and everything in it is regular. -/
def FunDecl.Regular (f : FunDecl) : Prop := (Node.decl f).All Node.Regular

/-- Every function that the machine keeps is regular. -/
def Machine.Regular (m : Machine) : Prop := ∀ f ∈ m.heap.closures, f.decl.Regular

/-- The run came to an operator that the machine does not know. -/
def Stop.isUnknownOperator : Stop → Bool
  | .error ⟨.invalidUnary, _⟩ => true
  | .error ⟨.invalidBinary, _⟩ => true
  | _ => false

theorem FunDecl.regular_empty : FunDecl.Regular ⟨⟨.identifier, "", 0⟩, [], []⟩ :=
  Node.all_iff.2 ⟨⟨Nat.zero_le _, by simp [Node.tokens]⟩, by simp [Node.parts]⟩

theorem Machine.Regular.closure {m : Machine} (h : m.Regular) (f : ClosureId) :
    (m.heap.closure f).decl.Regular := by
  unfold Heap.closure
  rw [Array.getD_eq_getD_getElem?]
  rcases hf : m.heap.closures[f.index]? with _ | g
  · exact FunDecl.regular_empty
  · exact h g (Array.mem_of_getElem? hf)

theorem Machine.Regular.method {m : Machine} (h : m.Regular) {c : ClassId} {name : String}
    {f : Closure} (hf : m.heap.method? c name = some f) : f.decl.Regular := by
  obtain ⟨id, -, rfl⟩ := Option.map_eq_some_iff.1 hf
  exact h.closure id

namespace Exec

variable {α β : Type} {act : Exec α} {post : α → Prop}

/-- A step from a machine with regular functions: they stay regular, every operator is known, and a
result is as the condition has it. -/
def Ensures (act : Exec α) (post : α → Prop) : Prop := ∀ m : Machine, m.Regular →
  match act m with
  | .ok a m' => m'.Regular ∧ post a
  | .error stop m' => m'.Regular ∧ stop.isUnknownOperator = false

/-- The same whatever the result is. -/
def Safe (act : Exec α) : Prop := act.Ensures fun _ => True

namespace Ensures

theorem pure {a : α} (h : post a) : (Pure.pure a : Exec α).Ensures post := fun _ hm => ⟨hm, h⟩

theorem throw {stop : Stop} (h : stop.isUnknownOperator = false) :
    (MonadExcept.throw stop : Exec α).Ensures post := fun _ hm => ⟨hm, h⟩

theorem bind {f : α → Exec β} {post' : β → Prop} (h : act.Ensures post)
    (hf : ∀ a, post a → (f a).Ensures post') : (act >>= f).Ensures post' := by
  intro m hm
  have hact := h m hm
  simp only [Bind.bind, EStateM.bind]
  rcases hr : act m with ⟨a, m'⟩ | ⟨stop, m'⟩
  · rw [hr] at hact
    exact hf a hact.2 m' hact.1
  · rw [hr] at hact
    exact hact

theorem withFrame (h : act.Ensures post) (e : FrameId) : (Exec.withFrame e act).Ensures post := by
  intro m hm
  have hact := h { m with frame := e } hm
  rcases hr : act { m with frame := e } with ⟨a, m'⟩ | ⟨stop, m'⟩
  · rw [hr] at hact
    rw [withFrame_eq_ok_iff.2 ⟨m', hr, rfl⟩]
    exact hact
  · rw [hr] at hact
    rw [withFrame_eq_error_iff.2 ⟨m', hr, rfl⟩]
    exact hact

theorem fail (blamed : Token) {cause : RuntimeError.Cause}
    (h : (Stop.error ⟨cause, blamed.line⟩).isUnknownOperator = false) :
    (Exec.fail blamed cause : Exec α).Ensures post := .throw h

theorem inspect {question : Heap → α} (h : ∀ m : Machine, m.Regular → post (question m.heap)) :
    (Exec.inspect question).Ensures post := fun m hm => ⟨hm, h m hm⟩

end Ensures

namespace Safe

theorem pure (a : α) : (Pure.pure a : Exec α).Safe := Ensures.pure trivial

theorem bind {f : α → Exec β} {post : β → Prop} (h : act.Safe) (hf : ∀ a, (f a).Ensures post) :
    (act >>= f).Ensures post := Ensures.bind h fun a _ => hf a

theorem ask (question : Machine → Except Fault α) : (Exec.ask question).Safe := by
  intro m hm
  simp only [Exec.ask]
  cases question m with
  | ok a => exact ⟨hm, trivial⟩
  | error fault => exact ⟨hm, rfl⟩

theorem inspect (question : Heap → α) : (Exec.inspect question).Safe :=
  Ensures.inspect fun _ _ => trivial

theorem currentFrame : Exec.currentFrame.Safe := fun _ hm => ⟨hm, trivial⟩

theorem distance? (id : NodeId) : (Exec.distance? id).Safe := fun _ hm => ⟨hm, trivial⟩

/-- Only the closures matter of what is stored. -/
theorem modifyHeap {f : Heap → α × Heap} (h : ∀ heap, (f heap).2.closures = heap.closures) :
    (Exec.modifyHeap f).Safe := fun m hm => ⟨by
      simpa only [Machine.Regular, h m.heap] using hm, trivial⟩

theorem print (line : String) : (Exec.print line).Safe := by
  intro m hm
  simp only [Exec.print]
  split
  · next h =>
    split at h
    · cases h
      exact ⟨hm, trivial⟩
    · cases h
  · next h =>
    split at h
    · cases h
    · cases h
      exact ⟨hm, rfl⟩

theorem define (name : String) (v : Value) : (Exec.define name v).Safe :=
  fun _ hm => ⟨hm, trivial⟩

theorem getFrom (e : FrameId) (name : Token) : (Exec.getFrom e name).Safe := by
  refine (inspect _).bind fun found => ?_
  cases found with
  | some v => exact pure v
  | none => exact .fail name rfl

theorem assignFrom (e : FrameId) (name : Token) (v : Value) :
    (Exec.assignFrom e name v).Safe := by
  intro m hm
  simp only [Exec.assignFrom]
  cases m.heap.holder? e name.lexeme with
  | some p => exact ⟨hm, trivial⟩
  | none => exact ⟨hm, rfl⟩

theorem assignAt (d : Nat) (name : String) (v : Value) : (Exec.assignAt d name v).Safe := by
  intro m hm
  simp only [Exec.assignAt]
  cases m.heap.ancestor m.frame d with
  | ok p => exact ⟨hm, trivial⟩
  | error fault => exact ⟨hm, rfl⟩

theorem read (id : NodeId) (name : Token) : (Exec.read id name).Safe := by
  refine (distance? id).bind fun d => ?_
  cases d with
  | some d => exact ask _
  | none => exact getFrom _ name

theorem assign (id : NodeId) (name : Token) (v : Value) : (Exec.assign id name v).Safe := by
  refine (distance? id).bind fun d => ?_
  cases d with
  | some d => exact assignAt d _ v
  | none => exact assignFrom _ name v

theorem newFrame (enclosing : FrameId) (b : Bindings Value) : (Exec.newFrame enclosing b).Safe :=
  modifyHeap fun _ => rfl

theorem newInstance (c : ClassId) : (Exec.modifyHeap fun h => h.newInstance c).Safe :=
  modifyHeap fun _ => rfl

theorem setProperty (o : InstanceId) (name : Token) (v : Value) :
    (Exec.setProperty o name v).Safe := modifyHeap fun _ => rfl

/-- A regular function may be kept. -/
theorem newClosure {f : Closure} (hf : f.decl.Regular) : (Exec.newClosure f).Safe := by
  refine fun m hm => ⟨fun g hg => ?_, trivial⟩
  rcases Array.mem_push.1 hg with hg | rfl
  · exact hm g hg
  · exact hf

theorem bindThis {f : Closure} (hf : f.decl.Regular) (o : InstanceId) :
    (Exec.bindThis f o).Ensures fun g => g.decl.Regular :=
  (newFrame f.frame _).bind fun _ => .pure hf

theorem boundMethod {f : Closure} (hf : f.decl.Regular) (o : InstanceId) :
    (Exec.bindThis f o >>= Exec.newClosure).Safe :=
  (bindThis hf o).bind fun _ hg => newClosure hg

/-- A method that is looked up in the store. -/
theorem method (c : Heap → ClassId) (name : String) :
    (Exec.inspect fun h => h.method? (c h) name).Ensures
      fun found => ∀ f, found = some f → f.decl.Regular :=
  .inspect fun _ hm _ hf => hm.method hf

theorem getProperty (o : InstanceId) (name : Token) : (Exec.getProperty o name).Safe := by
  refine (inspect _).bind fun field => ?_
  cases field with
  | some v => exact pure v
  | none =>
    refine (method _ _).bind fun found hfound => ?_
    cases found with
    | some f => exact boundMethod (hfound f rfl) o
    | none => exact .fail name rfl

theorem getSuper (id : NodeId) (keyword method : Token) :
    (Exec.getSuper id keyword method).Safe := by
  refine (distance? id).bind fun d => ?_
  rcases d with _ | d
  · exact .fail keyword rfl
  refine (ask _).bind fun parent => ?_
  rcases d with _ | inner
  · exact .throw rfl
  refine (ask _).bind fun receiver => ?_
  split
  · next c o =>
    refine (Safe.method _ _).bind fun found hfound => ?_
    cases found with
    | some f => exact boundMethod (hfound f rfl) o
    | none => exact .fail method rfl
  · exact .fail keyword rfl

theorem callNative (paren : Token) (native : Native) (arguments : List Value) :
    (Exec.callNative paren native arguments).Safe := by
  have now : Exec.now.Safe := fun _ hm => ⟨hm, trivial⟩
  refine now.bind fun time => (inspect _).bind fun answer => ?_
  cases answer with
  | ok answer => exact pure _
  | error message => exact .fail paren rfl

theorem newClass (name : String) (superclass : Option ClassId) {methods : List FunDecl}
    (hmethods : ∀ f ∈ methods, f.Regular) (e : FrameId) :
    (Exec.newClass name superclass methods e).Safe := by
  intro m hm
  rw [newClass_eq]
  refine ⟨fun g hg => ?_, trivial⟩
  rcases Array.mem_append.1 hg with hg | hg
  · exact hm g hg
  · obtain ⟨f, hf, rfl⟩ : ∃ f ∈ methods, (⟨f, e, f.isInitializer⟩ : Closure) = g := by
      simpa [methodClosures] using hg
    exact hmethods f hf

theorem methodFrame (here : FrameId) (parent : Option ClassId) :
    (Lox.methodFrame here parent).Safe := by
  cases parent with
  | none => exact pure here
  | some c => exact newFrame here _

theorem ofResult (operator : Token) {result : Except RuntimeError.Cause Value}
    (h : ∀ cause, result = .error cause → cause ≠ .invalidUnary ∧ cause ≠ .invalidBinary) :
    (Exec.ofResult operator result).Safe := by
  cases result with
  | ok v => exact pure v
  | error cause =>
    obtain ⟨hu, hb⟩ := h cause rfl
    refine .fail operator ?_
    cases cause with
    | invalidUnary => exact absurd rfl hu
    | invalidBinary => exact absurd rfl hb
    | _ => rfl

end Safe

end Exec

/-! ### Operators -/

theorem unaryResult_known {kind : Kind} (h : kind = .punct .bang ∨ kind = .punct .minus) (v : Value)
    (cause : RuntimeError.Cause) (hr : unaryResult kind v = .error cause) :
    cause ≠ .invalidUnary ∧ cause ≠ .invalidBinary := by
  rcases h with rfl | rfl
  · cases hr
  · cases v with
    | number x => cases hr
    | _ =>
      obtain rfl := Except.error.inj hr
      exact ⟨nofun, nofun⟩

theorem binaryResult_known {kind : Kind} (h : kind ∈ Kind.binaryOperators) (v w : Value)
    (cause : RuntimeError.Cause) (hr : binaryResult kind v w = .error cause) :
    cause ≠ .invalidUnary ∧ cause ≠ .invalidBinary := by
  have arithmetic (f : Float → Float → Float) (hr : arithmetic f v w = .error cause) :
      cause ≠ .invalidUnary ∧ cause ≠ .invalidBinary := by
    unfold Lox.arithmetic at hr
    split at hr <;> cases hr
    exact ⟨nofun, nofun⟩
  have comparison (f : Float → Float → Bool) (hr : comparison f v w = .error cause) :
      cause ≠ .invalidUnary ∧ cause ≠ .invalidBinary := by
    unfold Lox.comparison at hr
    split at hr <;> cases hr
    exact ⟨nofun, nofun⟩
  have sum (hr : sum v w = .error cause) : cause ≠ .invalidUnary ∧ cause ≠ .invalidBinary := by
    unfold Lox.sum at hr
    split at hr <;> cases hr
    exact ⟨nofun, nofun⟩
  simp only [Kind.binaryOperators, List.mem_cons, List.not_mem_nil, or_false] at h
  rcases h with rfl | rfl | rfl | rfl | rfl | rfl | rfl | rfl | rfl | rfl
  · cases hr
  · cases hr
  · exact comparison _ hr
  · exact comparison _ hr
  · exact comparison _ hr
  · exact comparison _ hr
  · exact arithmetic _ hr
  · exact sum hr
  · exact arithmetic _ hr
  · exact arithmetic _ hr

/-! ### Runs -/

theorem safe_repeatWhile {condition : Exec Value} {body : Exec Flow} (hc : condition.Safe)
    (hb : body.Safe) (rounds : Nat) : (repeatWhile condition body rounds).Safe := by
  induction rounds with
  | zero => exact .throw rfl
  | succ rounds ih =>
    refine hc.bind fun v => ?_
    split
    · refine hb.bind fun flow => ?_
      cases flow with
      | normal => exact ih
      | «break» => exact .pure trivial
      | «return» v => exact .pure trivial
    · exact .pure trivial

/-- What has this much fuel, and is regular, is safe to run. -/
structure RunsSafely (n : Nat) : Prop where
  eval {e : Expr} (he : (Node.expr e).All Node.Regular) : (e.eval n).Safe
  call (v : Value) (paren : Token) (arguments : List Value) : (v.call n paren arguments).Safe
  run {f : Closure} (hf : f.decl.Regular) (arguments : List Value) : (f.call n arguments).Safe
  exec {s : Stmt} (hs : (Node.stmt s).All Node.Regular) : (s.exec n).Safe

namespace RunsSafely

open Exec

variable {n : Nat}

theorem evalAll (h : RunsSafely n) {es : List Expr}
    (hes : ∀ e ∈ es, (Node.expr e).All Node.Regular) : (es.mapM (Expr.eval n)).Safe := by
  induction es with
  | nil => exact .pure _
  | cons e es ih =>
    obtain ⟨he, hes⟩ := List.forall_mem_cons.1 hes
    rw [List.mapM_cons]
    exact (h.eval he).bind fun v => (ih hes).bind fun vs => .pure trivial

theorem execAll (h : RunsSafely n) {ss : List Stmt}
    (hss : ∀ s ∈ ss, (Node.stmt s).All Node.Regular) : (runAll (Stmt.exec n) ss).Safe := by
  induction ss with
  | nil => exact .pure _
  | cons s ss ih =>
    obtain ⟨hs, hss⟩ := List.forall_mem_cons.1 hss
    refine (h.exec hs).bind fun flow => ?_
    cases flow with
    | normal => exact ih hss
    | _ => exact .pure trivial

theorem superclassOf (h : RunsSafely n) (name : Token) {superclass : Option Expr}
    (hs : ∀ e ∈ superclass, (Node.expr e).All Node.Regular) :
    (Lox.superclassOf (Expr.eval n) name superclass).Safe := by
  cases superclass with
  | none => exact .pure _
  | some e =>
    refine (h.eval (hs e rfl)).bind fun v => ?_
    cases v with
    | «class» c => exact .pure trivial
    | _ => exact .fail _ rfl

theorem evalSucc (h : RunsSafely n) {e : Expr} (he : (Node.expr e).All Node.Regular) :
    (e.eval (n + 1)).Safe := by
  have part {p : Expr} (hp : p ∈ e.parts) : (p.eval n).Safe :=
    h.eval (he.child (by simpa [Node.parts] using hp))
  cases e with
  | literal value => exact .pure _
  | grouping inner => exact part (by simp [Expr.parts])
  | unary operator right =>
    exact (part (by simp [Expr.parts])).bind fun v =>
      Safe.ofResult operator (unaryResult_known he.self.shaped v)
  | binary left operator right =>
    exact (part (by simp [Expr.parts])).bind fun v => (part (by simp [Expr.parts])).bind fun w =>
      Safe.ofResult operator (binaryResult_known he.self.shaped v w)
  | logical left operator right =>
    refine (part (p := left) (by simp [Expr.parts])).bind fun v => ?_
    split
    · exact .pure trivial
    · exact part (by simp [Expr.parts])
  | «variable» id name => exact .read id name
  | assign id name value =>
    exact (part (by simp [Expr.parts])).bind fun v => (Safe.assign id name v).bind fun _ =>
      .pure trivial
  | call callee paren arguments =>
    refine (part (p := callee) (by simp [Expr.parts])).bind fun f => ?_
    have hes : ∀ e ∈ arguments, (Node.expr e).All Node.Regular := fun e hmem =>
      he.child (by simp [Node.parts, Expr.parts, hmem])
    refine (h.evalAll hes).bind fun vs => (Safe.inspect _).bind fun arity => ?_
    cases arity with
    | none => exact .fail paren rfl
    | some arity =>
      dsimp only
      split
      · exact h.call f paren vs
      · exact .fail paren rfl
  | get object name =>
    refine (part (p := object) (by simp [Expr.parts])).bind fun v => ?_
    cases v with
    | «instance» o => exact Safe.getProperty o name
    | _ => exact .fail name rfl
  | set object name value =>
    refine (part (p := object) (by simp [Expr.parts])).bind fun v => ?_
    cases v with
    | «instance» o =>
      exact (part (p := value) (by simp [Expr.parts])).bind fun v =>
        (Safe.setProperty o name v).bind fun _ => .pure trivial
    | _ => exact .fail name rfl
  | this id keyword => exact .read id keyword
  | super id keyword method => exact .getSuper id keyword method

theorem callSucc (h : RunsSafely n) (v : Value) (paren : Token) (arguments : List Value) :
    (v.call (n + 1) paren arguments).Safe := by
  cases v with
  | native id => exact (Safe.inspect _).bind fun native => Safe.callNative paren native arguments
  | function f =>
    have found : (Exec.inspect (·.closure f)).Ensures fun g => g.decl.Regular :=
      .inspect fun _ hm => hm.closure f
    exact found.bind fun g hg => h.run hg arguments
  | «class» c =>
    refine (Safe.newInstance c).bind fun o =>
      (Safe.method (fun _ => c) initializerName).bind fun found hfound => ?_
    cases found with
    | none => exact .pure trivial
    | some f =>
      exact (Safe.bindThis (hfound f rfl) o).bind fun g hg => (h.run hg arguments).bind fun _ =>
        .pure trivial
  | _ => exact .fail paren rfl

theorem runSucc (h : RunsSafely n) {f : Closure} (hf : f.decl.Regular) (arguments : List Value) :
    (f.call (n + 1) arguments).Safe := by
  have hbody : ∀ s ∈ f.decl.body, (Node.stmt s).All Node.Regular := fun s hs =>
    hf.child (by simp [Node.parts, hs])
  refine (Safe.newFrame f.frame _).bind fun e =>
    Safe.bind (Ensures.withFrame (h.execAll hbody) e) fun flow => ?_
  split
  · exact Safe.ask _
  · exact .pure trivial

theorem execSucc (h : RunsSafely n) {s : Stmt} (hs : (Node.stmt s).All Node.Regular) :
    (s.exec (n + 1)).Safe := by
  have value {e : Expr} (hp : Node.expr e ∈ (Node.stmt s).parts.map Prod.snd) : (e.eval n).Safe :=
    h.eval (hs.child hp)
  have branch {s' : Stmt} (hp : Node.stmt s' ∈ (Node.stmt s).parts.map Prod.snd) :
      (s'.exec n).Safe := h.exec (hs.child hp)
  cases s with
  | expression e =>
    exact (value (by simp [Node.parts, Stmt.parts])).bind fun _ => .pure trivial
  | print e =>
    exact (value (by simp [Node.parts, Stmt.parts])).bind fun v => (Safe.inspect _).bind fun line =>
      (Safe.print line).bind fun _ => .pure trivial
  | var name initializer =>
    cases initializer with
    | none => exact (Safe.define _ _).bind fun _ => .pure trivial
    | some e =>
      exact (value (by simp [Node.parts, Stmt.parts])).bind fun v =>
        (Safe.define _ v).bind fun _ => .pure trivial
  | block body =>
    have hbody : ∀ s ∈ body, (Node.stmt s).All Node.Regular := fun s hmem =>
      hs.child (by simp [Node.parts, Stmt.parts, hmem])
    exact Safe.currentFrame.bind fun here => (Safe.newFrame here _).bind fun e =>
      Ensures.withFrame (h.execAll hbody) e
  | «if» condition thenBranch elseBranch =>
    refine (value (e := condition) (by simp [Node.parts, Stmt.parts])).bind fun v => ?_
    split
    · exact branch (by simp [Node.parts, Stmt.parts])
    · cases elseBranch with
      | none => exact .pure trivial
      | some elseBranch => exact branch (by simp [Node.parts, Stmt.parts])
  | «while» condition body =>
    exact safe_repeatWhile (value (by simp [Node.parts, Stmt.parts]))
      (branch (by simp [Node.parts, Stmt.parts])) n
  | «break» keyword => exact .pure _
  | function decl =>
    have hdecl : decl.Regular := hs.child
    exact Safe.currentFrame.bind fun here => (Safe.newClosure hdecl).bind fun f =>
      (Safe.define _ f).bind fun _ => .pure trivial
  | «return» keyword result =>
    cases result with
    | none => exact .pure _
    | some e => exact (value (by simp [Node.parts, Stmt.parts])).bind fun v => .pure trivial
  | «class» name superclass methods =>
    have hsuper : ∀ e ∈ superclass, (Node.expr e).All Node.Regular := fun e he =>
      hs.child (by simpa [Node.parts, Stmt.parts] using he)
    have hmethods : ∀ f ∈ methods, f.Regular := fun f hf =>
      hs.child (by simp [Node.parts, Stmt.parts, hf])
    exact (h.superclassOf name hsuper).bind fun parent =>
      (Safe.define _ _).bind fun _ => Safe.currentFrame.bind fun here =>
      (Safe.methodFrame here parent).bind fun e => (Safe.newClass _ _ hmethods e).bind fun c =>
      (Safe.assignFrom here name c).bind fun _ => .pure trivial

end RunsSafely

theorem runsSafely (n : Nat) : RunsSafely n := by
  induction n with
  | zero =>
    exact
      { eval := fun _ => .throw rfl
        call := fun _ _ _ => .throw rfl
        run := fun _ _ => .throw rfl
        exec := fun _ => .throw rfl }
  | succ n ih =>
    exact
      { eval := ih.evalSucc
        call := ih.callSucc
        run := ih.runSucc
        exec := ih.execSucc }

theorem safe_interpret (fuel : Nat) {program : List Stmt}
    (hp : ∀ s ∈ program, (Node.stmt s).All Node.Regular) : (interpret fuel program).Safe := by
  induction program with
  | nil => exact .pure _
  | cons s program ih =>
    obtain ⟨hs, hp⟩ := List.forall_mem_cons.1 hp
    exact Exec.Safe.bind (((runsSafely fuel).exec hs).bind fun _ => .pure trivial) fun _ => ih hp

/-! ### Sources -/

namespace Source

variable {source : String} {first : Nat}

theorem program?_regular {program : List Stmt} (h : (program? source first).1 = .ok program) :
    ∀ s ∈ program, (Node.stmt s).All Node.Regular := by
  have hd := (program?_eq_ok_iff.1 (Prod.ext h rfl)).2
  exact fun s hs part hc => (hd.fits (TokenStream.kinds_ofList _).1 s hs part hc).regular

theorem expression?_regular {e : Expr} (h : (expression? source first).1 = .ok e) :
    (Node.expr e).All Node.Regular := by
  have he := (expression_of_ok (Prod.ext h rfl)).2
  exact fun part hc => (he.fits (TokenStream.kinds_ofList _).1 part hc).regular

end Source

/-! ### Sessions -/

namespace Session

variable {s : Session} {held : List Value} {α : Type} {act : Exec α}

theorem regular_perform (hs : s.machine.Regular) (h : act.Safe) :
    (s.perform act).2.machine.Regular ∧ ∀ stop, (s.perform act).1 = .error (.stopped stop) →
      stop.isUnknownOperator = false := by
  have hact := h s.machine hs
  unfold perform
  rcases hr : act s.machine with ⟨a, m⟩ | ⟨stop, m⟩
  · rw [hr] at hact
    exact ⟨hact.1, nofun⟩
  · rw [hr] at hact
    refine ⟨hact.1, ?_⟩
    rintro _ ⟨⟩
    exact hact.2

theorem regular_resolved (hs : s.machine.Regular) (walk : Scope.Walk) (h : act.Safe) :
    (s.resolved walk act).2.machine.Regular ∧
      ∀ stop, (s.resolved walk act).1 = .error (.stopped stop) →
        stop.isUnknownOperator = false := by
  unfold resolved
  dsimp only
  split
  · exact regular_perform (s := { s with machine := s.machine.noteAll walk.distances }) hs h
  · exact ⟨hs, nofun⟩

theorem regular_run (hs : s.machine.Regular) (fuel : Nat) (source : String) :
    (s.run fuel source).2.machine.Regular ∧
      ∀ stop, (s.run fuel source).1 = .error (.stopped stop) →
        stop.isUnknownOperator = false := by
  rcases hp : (Source.program? source s.nextId).1 with errors | program
  · rw [run_of_errors hp]
    exact ⟨hs, nofun⟩
  · rw [run_of_program hp]
    exact regular_resolved (s := ⟨s.machine, (Source.program? source s.nextId).2⟩) hs _
      (safe_interpret fuel (Source.program?_regular hp))

theorem regular_evaluate (hs : s.machine.Regular) (fuel : Nat) (source : String) :
    (s.evaluate fuel source).2.machine.Regular ∧
      ∀ stop, (s.evaluate fuel source).1 = .error (.stopped stop) →
        stop.isUnknownOperator = false := by
  rcases hp : (Source.expression? source s.nextId).1 with failure | e
  · have hstatic := Source.expression?_static hp
    rw [evaluate_of_failure hp]
    refine ⟨hs, ?_⟩
    rintro stop ⟨⟩
    cases hstatic
  · rw [evaluate_of_expression hp]
    exact regular_resolved (s := ⟨s.machine, (Source.expression? source s.nextId).2⟩) hs _
      ((runsSafely fuel).eval (Source.expression?_regular hp))

/-- What the host defines is no function of the language. -/
theorem Reached.regular (h : Reached s held) : s.machine.Regular := by
  induction h with
  | start clock limit => exact fun f hf => absurd hf (Array.not_mem_empty f)
  | run _ fuel source ih => exact (regular_run ih fuel source).1
  | evaluate _ fuel source ih => exact (regular_evaluate ih fuel source).1
  | define _ name _ ih => exact ih
  | defineNative _ name native ih => exact ih

end Session

/-! ### Main result -/

theorem RuntimeError.Cause.native_of_message {cause : RuntimeError.Cause}
    (hu : cause ≠ .invalidUnary) (hb : cause ≠ .invalidBinary)
    (h : cause.message = "Invalid unary operator" ∨ cause.message = "Invalid binary operator") :
    ∃ text, cause = .native text := by
  have hi : cause.message.toList.head? = some 'I' := by
    rcases h with h | h <;> rw [h] <;> decide
  have starts {s : String} {c : Char} (hs : s.toList.head? = some c) (hc : c ≠ 'I') (t : String)
      (ht : cause.message = s ++ t) : False := by
    rw [ht, String.toList_append, List.head?_append, hs, Option.some_or] at hi
    exact hc (Option.some.inj hi)
  cases cause with
  | native text => exact ⟨text, rfl⟩
  | invalidUnary => exact absurd rfl hu
  | invalidBinary => exact absurd rfl hb
  | undefinedVariable name =>
    exact (starts (s := "Undefined variable '") (c := 'U') (by decide) (by decide) (name ++ "'.")
      (String.append_assoc ..)).elim
  | undefinedProperty name =>
    exact (starts (s := "Undefined property ") (c := 'U') (by decide) (by decide) name rfl).elim
  | wrongArity expected given =>
    refine (starts (s := "Expected ") (c := 'E') (by decide) (by decide)
      (toString expected ++ (" arguments but got " ++ (toString given ++ "."))) ?_).elim
    show "Expected " ++ toString expected ++ " arguments but got " ++ toString given ++ "." = _
    simp only [String.append_assoc]
  | superNotBound => rcases h with h | h <;> exact absurd h (by decide)
  | _ => exact absurd hi (by decide)

/-- Every tree that is parsed from tokens, as a program or as a lone expression, is regular at every
depth. So whatever a session has run before, no source makes it complain of an operator, unless a
native of the host uses the same words. -/
theorem parsed_regular_and_operators_known :
    (∀ (tokens : List Token) (first : Nat) (program : List Stmt),
      (Parser.program tokens first).1 = .ok program →
        ∀ s ∈ program, (Node.stmt s).All Node.Regular) ∧
    (∀ (tokens : List Token) (first : Nat) (e : Expr),
      (Parser.expressionOnly tokens first).1 = .ok e → (Node.expr e).All Node.Regular) ∧
    ∀ (s : Session) (held : List Value), Session.Reached s held →
      ∀ (fuel : Nat) (source : String) (e : RuntimeError),
        (s.run fuel source).1 = .error (.stopped (.error e)) ∨
            (s.evaluate fuel source).1 = .error (.stopped (.error e)) →
          e.cause ≠ .invalidUnary ∧ e.cause ≠ .invalidBinary ∧
            (e.cause.message = "Invalid unary operator" ∨
                e.cause.message = "Invalid binary operator" →
              ∃ text, e.cause = .native text) := by
  refine ⟨fun _ _ _ => Parser.program_regular, fun _ _ _ => Parser.expressionOnly_regular,
    fun s held hs fuel source e he => ?_⟩
  have hknown : (Stop.error e).isUnknownOperator = false := by
    rcases he with he | he
    · exact (Session.regular_run hs.regular fuel source).2 _ he
    · exact (Session.regular_evaluate hs.regular fuel source).2 _ he
  obtain ⟨cause, line⟩ := e
  have hu : cause ≠ .invalidUnary := by rintro rfl; cases hknown
  have hb : cause ≠ .invalidBinary := by rintro rfl; cases hknown
  exact ⟨hu, hb, RuntimeError.Cause.native_of_message hu hb⟩

/-- A minus in front of what is no number: the operator is known, and its operand is to blame. -/
theorem parsed_regular_and_operators_known_minus :
    let minus : Token := ⟨.punct .minus, "-", 1⟩
    let tokens := [minus, ⟨.keyword .nil, "nil", 1⟩, ⟨.punct .semicolon, ";", 1⟩]
    let negation := Stmt.expression (.unary minus (.literal .nil))
    let s := Session.start (fun _ => 0) none
    (Parser.program tokens 0).1 = .ok [negation] ∧ (Node.stmt negation).All Node.Regular ∧
      (Parser.expressionOnly (tokens.take 2) 0).1 = .ok (.unary minus (.literal .nil)) ∧
      (Node.expr (.unary minus (.literal .nil))).All Node.Regular ∧
      Session.Reached s [] ∧
      (s.run 9 "-nil;").1 = .error (.stopped (.error ⟨.operandNotNumber, 1⟩)) ∧
      RuntimeError.Cause.operandNotNumber ≠ .invalidUnary := by
  intro minus tokens negation s
  have hp : (Parser.program tokens 0).1 = .ok [negation] := by cbv
  have he : (Parser.expressionOnly (tokens.take 2) 0).1 = .ok (.unary minus (.literal .nil)) := by
    cbv
  have hrun : (s.run 9 "-nil;").1 = .error (.stopped (.error ⟨.operandNotNumber, 1⟩)) := by cbv
  have hs : Session.Reached s [] := .start _ _
  obtain ⟨hprogram, hexpression, hsession⟩ := parsed_regular_and_operators_known
  exact ⟨hp, hprogram _ _ _ hp negation (by simp), he, hexpression _ _ _ he, hs, hrun,
    (hsession s [] hs 9 "-nil;" _ (.inl hrun)).1⟩

end Lox

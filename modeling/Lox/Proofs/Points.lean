import Lox.Proofs.Sessions

/-!
# Points of a run

What runs while a session answers an input, piece by piece: a point is a piece of code about to run
in a machine, and from each point a run enters the next ones, inside of that piece. An input starts
from code that the resolver accepted, so its first point has twins, and one step after the other
every point has: the code is scoped where it stands, and what is called can be called.
-/

namespace Lox

open Exec

/-! ### Points -/

/-- Code that is about to run: an expression, some arguments, a call of a value or of a closure, a
statement, some statements of a block, the rounds of a loop, or some statements at the top. -/
inductive Code
  | eval (e : Expr)
  | arguments (es : List Expr)
  | call (callee : Value) (paren : Token) (arguments : List Value)
  | callFunction (f : Closure) (arguments : List Value)
  | exec (s : Stmt)
  | block (ss : List Stmt)
  | rounds (condition : Expr) (body : Stmt)
  | program (ss : List Stmt)

/-- Code, the fuel it has and the machine it is about to run in. -/
structure Point where
  fuel : Nat
  code : Code
  machine : Machine

/-- What an expression evaluates before anything else. -/
def Expr.first? : Expr → Option Expr
  | .grouping inner => some inner
  | .unary _ right => some right
  | .binary left _ _ => some left
  | .logical left _ _ => some left
  | .assign _ _ value => some value
  | .call callee _ _ => some callee
  | .get object _ => some object
  | .set object _ _ => some object
  | _ => none

/-- The expression that a statement begins with. -/
def Stmt.first? : Stmt → Option Expr
  | .expression value => some value
  | .print value => some value
  | .var _ initializer => initializer
  | .if condition _ _ => some condition
  | .return _ value => value
  | .class _ superclass _ => superclass
  | _ => none

/-- The point a run comes to next, inside of what is about to run. -/
inductive Point.Enters : Point → Point → Prop
  | first {n : Nat} {m : Machine} {e part : Expr} :
    e.first? = some part → Enters ⟨n + 1, .eval e, m⟩ ⟨n, .eval part, m⟩
  | right {n : Nat} {m m₁ : Machine} {left right : Expr} {operator : Token} {v : Value} :
    left.eval n m = .ok v m₁ →
    Enters ⟨n + 1, .eval (.binary left operator right), m⟩ ⟨n, .eval right, m₁⟩
  | otherwise {n : Nat} {m m₁ : Machine} {left right : Expr} {operator : Token} {v : Value} :
    left.eval n m = .ok v m₁ → shortCircuits operator.kind v = false →
    Enters ⟨n + 1, .eval (.logical left operator right), m⟩ ⟨n, .eval right, m₁⟩
  | value {n : Nat} {m m₁ : Machine} {object value : Expr} {name : Token} {o : InstanceId} :
    object.eval n m = .ok (.instance o) m₁ →
    Enters ⟨n + 1, .eval (.set object name value), m⟩ ⟨n, .eval value, m₁⟩
  | arguments {n : Nat} {m m₁ : Machine} {callee : Expr} {paren : Token} {es : List Expr}
      {f : Value} :
    callee.eval n m = .ok f m₁ →
    Enters ⟨n + 1, .eval (.call callee paren es), m⟩ ⟨n, .arguments es, m₁⟩
  | argument {n : Nat} {m : Machine} {e : Expr} {es : List Expr} :
    Enters ⟨n, .arguments (e :: es), m⟩ ⟨n, .eval e, m⟩
  | nextArgument {n : Nat} {m m₁ : Machine} {e : Expr} {es : List Expr} {v : Value} :
    e.eval n m = .ok v m₁ → Enters ⟨n, .arguments (e :: es), m⟩ ⟨n, .arguments es, m₁⟩
  | call {n : Nat} {m m₁ m₂ : Machine} {callee : Expr} {paren : Token} {es : List Expr} {f : Value}
      {vs : List Value} :
    callee.eval n m = .ok f m₁ → es.mapM (Expr.eval n) m₁ = .ok vs m₂ →
    m₂.heap.arity? f = some vs.length →
    Enters ⟨n + 1, .eval (.call callee paren es), m⟩ ⟨n, .call f paren vs, m₂⟩
  | function {n : Nat} {m : Machine} {f : ClosureId} {paren : Token} {vs : List Value} :
    Enters ⟨n + 1, .call (.function f) paren vs, m⟩ ⟨n, .callFunction (m.heap.closure f) vs, m⟩
  | initializer {n : Nat} {m m₁ m₂ : Machine} {c : ClassId} {o : InstanceId} {f g : Closure}
      {paren : Token} {vs : List Value} :
    modifyHeap (fun h => h.newInstance c) m = .ok o m₁ →
    m₁.heap.method? c initializerName = some f → bindThis f o m₁ = .ok g m₂ →
    Enters ⟨n + 1, .call (.class c) paren vs, m⟩ ⟨n, .callFunction g vs, m₂⟩
  | body {n : Nat} {m m₁ : Machine} {f : Closure} {vs : List Value} {e : FrameId} :
    newFrame f.frame (parameterBindings f.decl.params vs) m = .ok e m₁ →
    Enters ⟨n + 1, .callFunction f vs, m⟩ ⟨n, .block f.decl.body, { m₁ with frame := e }⟩
  | begins {n : Nat} {m : Machine} {s : Stmt} {part : Expr} :
    s.first? = some part → Enters ⟨n + 1, .exec s, m⟩ ⟨n, .eval part, m⟩
  | block {n : Nat} {m m₁ : Machine} {body : List Stmt} {e : FrameId} :
    newFrame m.frame .empty m = .ok e m₁ →
    Enters ⟨n + 1, .exec (.block body), m⟩ ⟨n, .block body, { m₁ with frame := e }⟩
  | thenBranch {n : Nat} {m m₁ : Machine} {condition : Expr} {s : Stmt} {other : Option Stmt}
      {v : Value} :
    condition.eval n m = .ok v m₁ → v.isTruthy = true →
    Enters ⟨n + 1, .exec (.if condition s other), m⟩ ⟨n, .exec s, m₁⟩
  | elseBranch {n : Nat} {m m₁ : Machine} {condition : Expr} {s other : Stmt} {v : Value} :
    condition.eval n m = .ok v m₁ → v.isTruthy = false →
    Enters ⟨n + 1, .exec (.if condition s (some other)), m⟩ ⟨n, .exec other, m₁⟩
  | loop {n : Nat} {m : Machine} {condition : Expr} {body : Stmt} :
    Enters ⟨n + 1, .exec (.while condition body), m⟩ ⟨n, .rounds condition body, m⟩
  | condition {n : Nat} {m : Machine} {condition : Expr} {body : Stmt} :
    Enters ⟨n, .rounds condition body, m⟩ ⟨n, .eval condition, m⟩
  | round {n : Nat} {m m₁ : Machine} {condition : Expr} {body : Stmt} {v : Value} :
    condition.eval n m = .ok v m₁ → v.isTruthy = true →
    Enters ⟨n, .rounds condition body, m⟩ ⟨n, .exec body, m₁⟩
  | nextRound {n : Nat} {m m₁ m₂ : Machine} {condition : Expr} {body : Stmt} {v : Value} :
    condition.eval n m = .ok v m₁ → v.isTruthy = true → body.exec n m₁ = .ok .normal m₂ →
    Enters ⟨n, .rounds condition body, m⟩ ⟨n, .rounds condition body, m₂⟩
  | statement {n : Nat} {m : Machine} {s : Stmt} {ss : List Stmt} :
    Enters ⟨n, .block (s :: ss), m⟩ ⟨n, .exec s, m⟩
  | nextStatement {n : Nat} {m m₁ : Machine} {s : Stmt} {ss : List Stmt} :
    s.exec n m = .ok .normal m₁ → Enters ⟨n, .block (s :: ss), m⟩ ⟨n, .block ss, m₁⟩
  | atTop {n : Nat} {m : Machine} {s : Stmt} {ss : List Stmt} :
    Enters ⟨n, .program (s :: ss), m⟩ ⟨n, .exec s, m⟩
  | nextAtTop {n : Nat} {m m₁ : Machine} {s : Stmt} {ss : List Stmt} {flow : Flow} :
    s.exec n m = .ok flow m₁ → Enters ⟨n, .program (s :: ss), m⟩ ⟨n, .program ss, m₁⟩

namespace Session

/-- Where an input that is not rejected starts to run. -/
inductive Begins (s : Session) : Point → Prop
  | run (fuel : Nat) {source : String} {program : List Stmt} :
    (Source.program? source s.nextId).1 = .ok program →
    (Scope.resolve program).errors = #[] →
    Begins s ⟨fuel, .program program, s.machine.noteAll (Scope.resolve program).distances⟩
  | evaluate (fuel : Nat) {source : String} {e : Expr} :
    (Source.expression? source s.nextId).1 = .ok e →
    (Scope.resolveExpression e).errors = #[] →
    Begins s ⟨fuel, .eval e, s.machine.noteAll (Scope.resolveExpression e).distances⟩

/-- The points that a session comes to while it answers its next input. -/
inductive Passes (s : Session) : Point → Prop
  | begins {p : Point} : s.Begins p → Passes s p
  | enters {p q : Point} : Passes s p → p.Enters q → Passes s q

end Session

/-! ### What twins tell of a point -/

namespace Lexical

open Twin (Leads)

/-- A step that ends well leaves twins of the machine it ends in. -/
theorem Runs.reaches {grows : Bool} {α β : Type} {t : SoundTwin} {act : Exec α} {other : Run β}
    {post : α → β → SoundTwin → Prop} (h : (twins grows).Runs t act other post) {a : α}
    {m : Machine} (ha : act t.1.machine = .ok a m) :
    ∃ (u : SoundTwin) (b : β), u.1.machine = m ∧ other t.1.lexical = .ok b u.1.lexical ∧
      Leads grows t.1 u.1 ∧ post a b u := by
  have h := h fun _ _ _ => id
  simp only [twins, ha] at h
  split at h
  · next hl hr =>
    obtain ⟨rfl, rfl⟩ := EStateM.Result.ok.inj hl
    obtain ⟨u, rfl, rfl, hu, hp⟩ := h
    exact ⟨u, _, rfl, hr, hu, hp⟩
  · next hl _ => cases hl
  · exact h.elim

/-- The code is scoped where the twins stand, or it calls what can be called, with as many arguments
as it takes. -/
def Twin.Suits (t : Twin) : Code → Prop
  | .eval e => ∃ scopes pending locals,
    Place t scopes pending locals ∧ e.Scoped t.far scopes pending
  | .arguments es => ∃ scopes pending locals,
    Place t scopes pending locals ∧ Expr.ScopedAll t.far scopes pending es
  | .call f _ vs =>
    t.heap.arity? f = some vs.length ∧ t.Holds f ∧ ∀ v ∈ vs, t.Holds v
  | .callFunction f vs =>
    f.decl.arity = vs.length ∧ (∃ locals, t.Callable f locals) ∧ ∀ v ∈ vs, t.Holds v
  | .exec s => ∃ scopes scope, At t scopes scope ∧ s.Scoped t.far scopes
  | .block ss => ∃ scopes scope, At t scopes scope ∧ Stmt.ScopedAll t.far scopes ss
  | .rounds condition body => ∃ scopes scope, At t scopes scope ∧
    condition.Scoped t.far scopes none ∧ body.declared? = none ∧ body.Scoped t.far scopes
  | .program ss => t.machine.frame = Machine.globals ∧ Stmt.ScopedAll t.far [] ss

end Lexical

/-- The machine of the point has twins that suit its code. -/
def Point.Sound (p : Point) : Prop :=
  ∃ t : Lexical.SoundTwin, t.1.machine = p.machine ∧ t.1.Suits p.code

section

variable {far : NodeId → Option Nat → Prop} {scopes : Scopes}

theorem Expr.Scoped.first {pending : Option String} {e part : Expr} (h : e.first? = some part)
    (hs : e.Scoped far scopes pending) : part.Scoped far scopes pending := by
  cases e <;> cases h
  case grouping => exact hs
  case unary => exact hs
  case get => exact hs
  all_goals exact hs.1

end

namespace Lexical

open Twin (Leads)

variable {t : SoundTwin} {n : Nat} {m : Machine} {scopes : Scopes}

theorem Place.evaluated {pending : Option String} {locals : Locals} {e : Expr} {v : Value}
    (hp : Place t.1 scopes pending locals) (hs : e.Scoped t.1.far scopes pending)
    (he : e.eval n t.1.machine = .ok v m) :
    ∃ u : SoundTwin, u.1.machine = m ∧ Leads false t.1 u.1 ∧ u.1.Holds v := by
  obtain ⟨u, -, hm, -, hu, -, hv⟩ := Runs.reaches ((agrees n).eval hp hs) he
  exact ⟨u, hm, hu, hv⟩

theorem At.executed {scope : Scope} {s : Stmt} (ha : At t.1 scopes scope)
    (hs : s.Scoped t.1.far scopes) (he : s.exec n t.1.machine = .ok .normal m) :
    ∃ (u : SoundTwin) (scope' : Scope), u.1.machine = m ∧
      Leads s.declared?.isSome t.1 u.1 ∧ At u.1 (s.declare scopes) scope' := by
  obtain ⟨u, out, hm, -, hu, -, hat⟩ := Runs.reaches ((agrees n).exec ha hs) he
  exact ⟨u, out.2, hm, hu, hat rfl⟩

/-- The expression that a statement begins with may stand behind the name that it declares. -/
theorem At.first {scope : Scope} {s : Stmt} {part : Expr} (ha : At t.1 scopes scope)
    (hs : s.Scoped t.1.far scopes) (hf : s.first? = some part) :
    ∃ u : SoundTwin, u.1.machine = t.1.machine ∧ u.1.Suits (.eval part) := by
  cases s with
  | expression value =>
    cases hf
    exact ⟨t, rfl, _, _, _, ha.place, hs⟩
  | print value =>
    cases hf
    exact ⟨t, rfl, _, _, _, ha.place, hs⟩
  | «if» condition thenBranch elseBranch =>
    cases hf
    exact ⟨t, rfl, _, _, _, ha.place, by cases elseBranch <;> exact hs.1⟩
  | «return» keyword value =>
    cases hf
    exact ⟨t, rfl, _, _, _, ha.place, hs⟩
  | «class» name superclass methods =>
    cases hf
    exact ⟨t, rfl, _, _, _, ha.place, hs.2.2.1⟩
  | var name initializer =>
    cases hf
    obtain ⟨hx, hfresh, hv⟩ := hs
    cases ha with
    | top hg => exact ⟨t, rfl, [], none, [], .settled (hg ▸ .globals), hv⟩
    | inside hw he hs =>
      -- The lexical machine has a cell for the name by now.
      have hl := Twin.pushCell_leads t.1 .nil
      have hi : Introduces (t.1.pushCell .nil) _ _ name.lexeme ⟨t.1.lexical.cells.size⟩ :=
        ⟨(At.inside hw he hs).after (u := ⟨_, t.2.pushCell .nil⟩) hl, hx, hfresh,
          t.2.free_pushCell .nil⟩
      exact ⟨⟨_, t.2.pushCell .nil⟩, rfl, _, _, _,
        Introduces.place (t := ⟨_, t.2.pushCell .nil⟩) hi, hl.far ▸ hv⟩
  | _ => cases hf

end Lexical

namespace Point

open Lexical
open Lexical.Twin (Leads)

variable {n : Nat} {m : Machine} {q : Point}

/-! ### Expressions -/

theorem Sound.enters_eval {e : Expr} (h : Sound ⟨n + 1, .eval e, m⟩)
    (hq : Enters ⟨n + 1, .eval e, m⟩ q) : q.Sound := by
  obtain ⟨t, ht, scopes, pending, locals, hp, hs⟩ := h
  subst ht
  cases hq with
  | first hf => exact ⟨t, rfl, scopes, pending, locals, hp, hs.first hf⟩
  | right hl =>
    obtain ⟨u, rfl, hu, -⟩ := hp.evaluated hs.1 hl
    exact ⟨u, rfl, scopes, pending, locals, hp.after hu, hu.far ▸ hs.2⟩
  | otherwise hl _ =>
    obtain ⟨u, rfl, hu, -⟩ := hp.evaluated hs.1 hl
    exact ⟨u, rfl, scopes, pending, locals, hp.after hu, hu.far ▸ hs.2⟩
  | value ho =>
    obtain ⟨u, rfl, hu, -⟩ := hp.evaluated hs.1 ho
    exact ⟨u, rfl, scopes, pending, locals, hp.after hu, hu.far ▸ hs.2⟩
  | arguments hf =>
    obtain ⟨u, rfl, hu, -⟩ := hp.evaluated hs.1 hf
    exact ⟨u, rfl, scopes, pending, locals, hp.after hu, hu.far ▸ hs.2⟩
  | call hf hvs ha =>
    obtain ⟨u, rfl, hu, hh⟩ := hp.evaluated hs.1 hf
    obtain ⟨w, -, rfl, -, hw, -, hhs⟩ :=
      Runs.reaches ((agrees n).evalAll (hp.after hu) (hu.far ▸ hs.2)) hvs
    exact ⟨w, rfl, ha, hw.holds hh, hhs⟩

theorem Sound.enters_arguments {es : List Expr} (h : Sound ⟨n, .arguments es, m⟩)
    (hq : Enters ⟨n, .arguments es, m⟩ q) : q.Sound := by
  obtain ⟨t, ht, scopes, pending, locals, hp, hs⟩ := h
  subst ht
  cases hq with
  | argument => exact ⟨t, rfl, scopes, pending, locals, hp, hs.1⟩
  | nextArgument he =>
    obtain ⟨u, rfl, hu, -⟩ := hp.evaluated hs.1 he
    exact ⟨u, rfl, scopes, pending, locals, hp.after hu, hu.far ▸ hs.2⟩

/-! ### Calls -/

theorem Sound.enters_call {f : Value} {paren : Token} {vs : List Value}
    (h : Sound ⟨n + 1, .call f paren vs, m⟩) (hq : Enters ⟨n + 1, .call f paren vs, m⟩ q) :
    q.Sound := by
  obtain ⟨t, ht, ha, hf, hvs⟩ := h
  subst ht
  cases hq with
  | function => exact ⟨t, rfl, Option.some.inj ha, ⟨_, (hf _ rfl).2⟩, hvs⟩
  | @initializer _ _ _ _ c o f g _ _ ho hm hg =>
    obtain ⟨u, _, rfl, -, hu, rfl, hfind, hclosure⟩ := Runs.reaches (runs_newInstance c) ho
    obtain ⟨id, hid, rfl⟩ := Option.map_eq_some_iff.1 hm
    have hmethod := u.2.method_of_findMethod? c initializerName hid
    obtain ⟨w, b, rfl, -, hw, hcall, -, hdecl⟩ := Runs.reaches (runs_bindThis hmethod o) hg
    refine ⟨w, rfl, ?_, ⟨_, hcall⟩, fun v hv => hw.holds (hu.holds (hvs v hv))⟩
    have hid : u.1.heap.findMethod? c initializerName = some id := hid
    rw [hfind] at hid
    rw [hdecl, hclosure]
    simpa [Heap.arity?, Heap.classArity, Heap.method?, hid] using ha

theorem Sound.enters_callFunction {f : Closure} {vs : List Value}
    (h : Sound ⟨n + 1, .callFunction f vs, m⟩) (hq : Enters ⟨n + 1, .callFunction f vs, m⟩ q) :
    q.Sound := by
  obtain ⟨t, ht, ha, ⟨locals, scopes, hs, hd, -⟩, hvs⟩ := h
  subst ht
  cases hq with
  | body he =>
    obtain ⟨u, inner, rfl, -, -, -, names, hat, hb⟩ :=
      Runs.reaches (Agrees.runs_activation ha hs hd hvs) he
    exact ⟨⟨_, u.2.enter _⟩, rfl, _, _, hat, hb⟩

/-! ### Statements -/

theorem Sound.enters_exec {s : Stmt} (h : Sound ⟨n + 1, .exec s, m⟩)
    (hq : Enters ⟨n + 1, .exec s, m⟩ q) : q.Sound := by
  obtain ⟨t, ht, scopes, scope, ha, hs⟩ := h
  subst ht
  cases hq with
  | begins hf =>
    obtain ⟨u, hu, hsuits⟩ := ha.first hs hf
    exact ⟨u, hu, hsuits⟩
  | block he =>
    obtain ⟨u, inner, rfl, -, -, -, hat, hb⟩ := Runs.reaches (Agrees.runs_blockFrame ha hs) he
    exact ⟨⟨_, u.2.enter _⟩, rfl, _, _, hat, hb⟩
  | @thenBranch _ _ _ condition thenBranch other _ hc _ =>
    have hcondition : condition.Scoped t.1.far scopes none := by
      cases other <;> exact hs.1
    have hthen : thenBranch.Scoped t.1.far scopes := by
      cases other with
      | none => exact hs.2.2
      | some _ => exact hs.2.1.2
    obtain ⟨u, rfl, hu, -⟩ := ha.place.evaluated hcondition hc
    exact ⟨u, rfl, scopes, scope, ha.after hu, hu.far ▸ hthen⟩
  | elseBranch hc _ =>
    obtain ⟨u, rfl, hu, -⟩ := ha.place.evaluated hs.1 hc
    exact ⟨u, rfl, scopes, scope, ha.after hu, hu.far ▸ hs.2.2.2⟩
  | loop => exact ⟨t, rfl, scopes, scope, ha, hs⟩

theorem Sound.enters_rounds {condition : Expr} {body : Stmt}
    (h : Sound ⟨n, .rounds condition body, m⟩) (hq : Enters ⟨n, .rounds condition body, m⟩ q) :
    q.Sound := by
  obtain ⟨t, ht, scopes, scope, ha, hc, hd, hb⟩ := h
  subst ht
  cases hq with
  | condition => exact ⟨t, rfl, _, _, _, ha.place, hc⟩
  | round hv _ =>
    obtain ⟨u, rfl, hu, -⟩ := ha.place.evaluated hc hv
    exact ⟨u, rfl, scopes, scope, ha.after hu, hu.far ▸ hb⟩
  | nextRound hv _ he =>
    obtain ⟨u, rfl, hu, -⟩ := ha.place.evaluated hc hv
    obtain ⟨w, scope', rfl, hw, -⟩ := (ha.after hu).executed (hu.far ▸ hb) he
    rw [hd] at hw
    have hl := hu.trans hw
    exact ⟨w, rfl, scopes, scope, ha.after hl, hl.far ▸ hc, hd, hl.far ▸ hb⟩

theorem Sound.enters_block {ss : List Stmt} (h : Sound ⟨n, .block ss, m⟩)
    (hq : Enters ⟨n, .block ss, m⟩ q) : q.Sound := by
  obtain ⟨t, ht, scopes, scope, ha, hs⟩ := h
  subst ht
  cases hq with
  | statement => exact ⟨t, rfl, scopes, scope, ha, hs.1⟩
  | nextStatement he =>
    obtain ⟨u, scope', rfl, hu, hat⟩ := ha.executed hs.1 he
    exact ⟨u, rfl, _, scope', hat, hu.far ▸ hs.2⟩

theorem Sound.enters_program {ss : List Stmt} (h : Sound ⟨n, .program ss, m⟩)
    (hq : Enters ⟨n, .program ss, m⟩ q) : q.Sound := by
  obtain ⟨t, ht, hg, hs⟩ := h
  subst ht
  cases hq with
  | atTop => exact ⟨t, rfl, [], .top, .top hg, hs.1⟩
  | @nextAtTop _ _ _ s ss flow he =>
    obtain ⟨u, out, rfl, -, hu, -⟩ := Runs.reaches ((agrees n).exec (.top hg) hs.1) he
    exact ⟨u, rfl, hu.frame.trans hg, hu.far ▸ s.declare_nil ▸ hs.2⟩

/-- By cases on the code: each piece of code leaves twins that suit the next one. -/
theorem Sound.enters {p : Point} (h : p.Sound) (hq : p.Enters q) : q.Sound := by
  obtain ⟨n, code, m⟩ := p
  cases code with
  | eval e => cases n with
    | zero => cases hq
    | succ n => exact h.enters_eval hq
  | arguments es => exact h.enters_arguments hq
  | call f paren vs => cases n with
    | zero => cases hq
    | succ n => exact h.enters_call hq
  | callFunction f vs => cases n with
    | zero => cases hq
    | succ n => exact h.enters_callFunction hq
  | exec s => cases n with
    | zero => cases hq
    | succ n => exact h.enters_exec hq
  | block ss => exact h.enters_block hq
  | rounds condition body => exact h.enters_rounds hq
  | program ss => exact h.enters_program hq

end Point

/-! ### Sessions -/

namespace Session

open Lexical
open Scope.Walk (Finds Notes)

variable {s : Session} {held : List Value} {p : Point}

/-- The twins that a tree of new occurrences starts with, whose walk was silent. -/
theorem Carries.starts {t : Twin} (h : s.Carries held t) {next : Nat} {walk : Scope.Walk}
    {ids : List NodeId} (hn : s.nextId ≤ next) (hids : Within s.nextId next ids)
    (hw : Notes ids .start walk) {found : (NodeId → Option Nat → Prop) → Prop}
    (hf : Finds ids .start walk found) :
    ∃ u : SoundTwin, u.1.machine = s.machine.noteAll walk.distances ∧
      u.1.machine.frame = Machine.globals ∧ found u.1.far := by
  obtain ⟨notes, hnotes, hm⟩ := hw.of_start
  have hc := h.noteAll hn fun p hp => hids.2 _ (hm p hp)
  rw [← hnotes] at hc
  exact ⟨⟨_, hc.sound⟩, hc.machine, hc.machine ▸ hc.frame, h.knows hids hf⟩

theorem Reached.begins_sound (h : Reached s held) (hp : s.Begins p) : p.Sound := by
  obtain ⟨t, ht⟩ := h.carries
  cases hp with
  | @run fuel source program hp he =>
    obtain ⟨hn, hmade⟩ := Source.program?_made source s.nextId
    obtain ⟨hformed, hids⟩ := hmade program hp
    obtain ⟨u, hu, hg, hs⟩ := ht.starts hn hids (Stmt.notesAll program .start)
      (Scope.finds_resolve hformed hids.1 he)
    exact ⟨u, hu, hg, hs⟩
  | @evaluate fuel source e hp he =>
    obtain ⟨hn, hmade⟩ := Source.expression?_made source s.nextId
    obtain ⟨hformed, hids⟩ := hmade e hp
    obtain ⟨u, hu, hg, hs⟩ := ht.starts hn hids (Expr.notes e .start)
      (Scope.finds_resolveExpression hformed hids.1 he)
    exact ⟨u, hu, [], none, [], .settled (hg ▸ .globals), hs⟩

/-- By induction on the way there: whatever a session comes to run has twins that suit it. -/
theorem Reached.passes_sound (h : Reached s held) (hp : s.Passes p) : p.Sound := by
  induction hp with
  | begins hb => exact h.begins_sound hb
  | enters _ hq ih => exact ih.enters hq

end Session

end Lox

import Lox.Machine.Eval
import Lox.Proofs.Objects
import Lox.Proofs.Renaming

/-!
# Renamed runs

A machine whose functions have other node ids and other lines runs as the machine does, with a table
that tells of the new ids what the old one told of theirs. All values are the same, and only the line
of an error is another.
-/

namespace Lox

open Exec

/-! ### Renamed machines -/

def Closure.rename (r : Renaming) (f : Closure) : Closure := { f with decl := f.decl.rename r }

def Heap.rename (r : Renaming) (h : Heap) : Heap :=
  { h with closures := h.closures.map (Closure.rename r) }

/-- The same stop with an error on another line. -/
def Stop.relabel (f : Nat → Nat) : Stop → Stop
  | .error e => .error { e with line := f e.line }
  | stop => stop

namespace Heap

variable (r : Renaming) (h : Heap)

theorem holder?_rename (e : FrameId) (name : String) :
    (h.rename r).holder? e name = h.holder? e name := by
  have hl : ∀ p, (h.rename r).local? p name = h.local? p name := fun _ => rfl
  have he : ∀ p, (h.rename r).enclosing? p = h.enclosing? p := fun _ => rfl
  fun_induction h.holder? e name with
  | case1 e hb => rw [holder?_self (h := h.rename r) hb]
  | case2 e hb hp =>
    rw [holder?, hl, if_neg hb]
    split
    · rfl
    · next q hq => simp [he, hp] at hq
  | case3 e hb p hp _ ih =>
    rw [holder?, hl, if_neg hb]
    split
    · next hq => simp [he, hp] at hq
    · next q hq =>
      obtain rfl : p = q := by simpa [he, hp] using hq
      exact ih

theorem get?_rename (e : FrameId) (name : String) : (h.rename r).get? e name = h.get? e name := by
  simp only [get?, holder?_rename]
  rfl

theorem ancestor?_rename (e : FrameId) (d : Nat) :
    (h.rename r).ancestor? e d = h.ancestor? e d := by
  induction d generalizing e with
  | zero => rfl
  | succ d ih =>
    have he : (h.rename r).enclosing? e = h.enclosing? e := rfl
    simp only [ancestor?, he, ih]

theorem ancestor_rename (e : FrameId) (d : Nat) :
    (h.rename r).ancestor e d = h.ancestor e d := by
  simp only [ancestor, ancestor?_rename]

theorem getAt_rename (e : FrameId) (d : Nat) (name : String) :
    (h.rename r).getAt e d name = h.getAt e d name := by
  simp only [getAt, ancestor_rename]
  rfl

theorem findMethod?_rename (c : ClassId) (name : String) :
    (h.rename r).findMethod? c name = h.findMethod? c name :=
  @findMethod?_congr h (h.rename r) rfl c name

/-- A number outside the store reads as an empty function on line 0. -/
theorem closure_rename {r : Renaming} (hr : r.line 0 = 0) (f : ClosureId) :
    (h.rename r).closure f = (h.closure f).rename r := by
  by_cases hf : f.index < h.closures.size
  · simp [closure, rename, hf]
  · simp [closure, rename, hf, Closure.rename, FunDecl.rename, Stmt.renameAll, Token.relabel, hr]

theorem method?_rename {r : Renaming} (hr : r.line 0 = 0) (c : ClassId) (name : String) :
    (h.rename r).method? c name = (h.method? c name).map (Closure.rename r) := by
  simp only [method?, findMethod?_rename, Option.map_map]
  congr 1
  funext f
  exact closure_rename h hr f

theorem arity?_rename {r : Renaming} (hr : r.line 0 = 0) (v : Value) :
    (h.rename r).arity? v = h.arity? v := by
  cases v with
  | function f => simp only [arity?, closure_rename h hr, Closure.rename, FunDecl.arity_rename]
  | «class» c =>
    simp only [arity?, classArity, method?_rename h hr]
    cases h.method? c initializerName with
    | none => rfl
    | some f => simp only [Option.map_some, Closure.rename, FunDecl.arity_rename]
  | _ => rfl

theorem display_rename {r : Renaming} (hr : r.line 0 = 0) (v : Value) :
    (h.rename r).display v = h.display v := by
  cases v with
  | function f =>
    simp only [display, closure_rename h hr, Closure.rename, FunDecl.name_rename,
      Token.lexeme_relabel]
  | _ => rfl

theorem rename_newClosure (f : Closure) :
    (h.rename r).newClosure (f.rename r) = ((h.newClosure f).1, (h.newClosure f).2.rename r) := by
  simp [newClosure, rename]

end Heap

/-- Two tables, of which the second tells of an id's new name what the first tells of the id, as far
as ids are known. -/
structure Exchange where
  via : Renaming
  known : NodeId → Prop
  table : Std.HashMap NodeId Nat
  table' : Std.HashMap NodeId Nat
  ground : via.line 0 = 0
  same : ∀ id, known id → table'[via.node id]? = table[id]?

namespace Exchange

/-- All these occurrences are known. -/
def Covers (x : Exchange) (ids : List NodeId) : Prop := ∀ id ∈ ids, x.known id

/-- A machine with the first table, all of whose functions are known. -/
structure Good (x : Exchange) (m : Machine) : Prop where
  table : m.distances = x.table
  covers : ∀ f ∈ m.heap.closures, x.Covers f.decl.ids

/-- The machine after the exchange. -/
def other (x : Exchange) (m : Machine) : Machine :=
  { m with heap := m.heap.rename x.via, distances := x.table' }

/-- A machine beside the same one after the exchange. What has been printed stays. -/
def runs (x : Exchange) : Pairing Machine Machine where
  Pair := { m : Machine // x.Good m }
  left p := p.1
  right p := x.other p.1
  Leads p q := p.1.sink.lines.toList <+: q.1.sink.lines.toList
  refl _ := List.prefix_rfl
  trans := List.IsPrefix.trans
  Stops s s' := s' = s.relabel x.via.line
  Excused _ := False

variable {x : Exchange} {p : x.runs.Pair}

theorem covers_append {xs ys : List NodeId} : x.Covers (xs ++ ys) ↔ x.Covers xs ∧ x.Covers ys :=
  List.forall_mem_append

theorem Good.closure (h : x.Good p.1) (f : ClosureId) : x.Covers (p.1.heap.closure f).decl.ids := by
  by_cases hf : f.index < p.1.heap.closures.size
  · simpa [Heap.closure, hf] using h.covers _ (Array.getElem_mem hf)
  · intro id hi
    simp [Heap.closure, hf, FunDecl.ids, Stmt.idsAll] at hi

/-- The same result. -/
def Same {α : Type} (a b : α) (_ : x.runs.Pair) : Prop := b = a

/-! ### Steps -/

/-- A step that changes neither functions nor table. -/
theorem runs_step {α : Type} {act other : Exec α} {m : Machine} {a : α}
    (hl : act p.1 = .ok a m) (hr : other (x.other p.1) = .ok a (x.other m))
    (hd : m.distances = p.1.distances) (hc : m.heap.closures = p.1.heap.closures)
    (hp : p.1.sink.lines.toList <+: m.sink.lines.toList) : x.runs.Runs p act other Same :=
  .of_ok ⟨m, hd.trans p.2.table, hc ▸ p.2.covers⟩ hl hr hp rfl

theorem runs_fail {α : Type} (blamed : Token) (cause : RuntimeError.Cause) :
    x.runs.Runs p (fail blamed cause : Exec α) (fail (blamed.relabel x.via.line) cause)
      Same :=
  .throw rfl

theorem runs_inspect {α : Type} {question : Heap → α}
    (h : question (p.1.heap.rename x.via) = question p.1.heap) :
    x.runs.Runs p (inspect question) (inspect question) Same := by
  refine .of_ok p (b := question p.1.heap) rfl ?_ List.prefix_rfl rfl
  simp only [runs, inspect, other, h]

theorem runs_currentFrame : x.runs.Runs p currentFrame currentFrame Same :=
  runs_step (a := p.1.frame) (m := p.1) rfl rfl rfl rfl List.prefix_rfl

theorem runs_ask {α : Type} {question : Machine → Except Fault α}
    (h : question (x.other p.1) = question p.1) :
    x.runs.Runs p (ask question) (ask question) Same := by
  rcases hq : question p.1 with fault | a
  · have hl : ask question p.1 = .error (.fault fault) p.1 := by simp only [ask, hq]
    have hr : ask question (x.other p.1) = .error (.fault fault) (x.other p.1) := by
      simp only [ask, h, hq]
    exact .of_error hl hr rfl
  · have hl : ask question p.1 = .ok a p.1 := by simp only [ask, hq]
    have hr : ask question (x.other p.1) = .ok a (x.other p.1) := by simp only [ask, h, hq]
    exact .of_ok p hl hr List.prefix_rfl rfl

theorem runs_print (line : String) : x.runs.Runs p (print line) (print line) Same := by
  by_cases h : p.1.sink.hasRoom = true
  · have hl : print line p.1 = .ok () { p.1 with sink := p.1.sink.push line } := by
      simp [print, h]
    have hr : print line (x.other p.1) =
        .ok () (x.other { p.1 with sink := p.1.sink.push line }) := by
      simp [print, other, h]
    exact runs_step hl hr rfl rfl (by simp [Sink.push])
  · have hl : print line p.1 = .error .sinkFull p.1 := by simp [print, h]
    have hr : print line (x.other p.1) = .error .sinkFull (x.other p.1) := by
      simp [print, other, h]
    exact .of_error hl hr rfl

theorem runs_withFrame {α : Type} {e : FrameId} {act other : Exec α}
    (h : ∀ q : x.runs.Pair, x.runs.Runs q act other Same) :
    x.runs.Runs p (withFrame e act) (withFrame e other) Same := by
  have hin : x.Good { p.1 with frame := e } := ⟨p.2.table, p.2.covers⟩
  have back : ∀ q : x.runs.Pair, x.Good { q.1 with frame := p.1.frame } := fun q =>
    ⟨q.2.table, q.2.covers⟩
  have h := h ⟨_, hin⟩ fun _ _ _ => id
  intro _
  simp only [runs, withFrame] at h ⊢
  have ho : x.other { p.1 with frame := e } = { x.other p.1 with frame := e } := rfl
  rw [ho] at h
  split at h
  · obtain ⟨q, hl, hr, hp, hs⟩ := h
    simp only [*]
    exact ⟨⟨_, back q⟩, by rw [← hl], by rw [← hr]; rfl, hp, hs⟩
  · obtain ⟨rfl, q, hl, hr, hp⟩ := h
    simp only [*]
    exact ⟨trivial, ⟨_, back q⟩, by rw [← hl], by rw [← hr]; rfl, hp⟩
  · exact h.elim

/-! ### Variables -/

theorem runs_define (name : String) (v : Value) :
    x.runs.Runs p (define name v) (define name v) Same :=
  runs_step (a := ()) rfl rfl rfl rfl List.prefix_rfl

theorem runs_getFrom (e : FrameId) (name : Token) :
    x.runs.Runs p (getFrom e name) (getFrom e (name.relabel x.via.line)) Same := by
  refine (runs_inspect (Heap.get?_rename _ _ _ _)).bind ?_
  rintro _ v q - rfl
  cases v with
  | some v => exact .pure rfl
  | none => exact runs_fail name _

theorem runs_assignFrom (e : FrameId) (name : Token) (v : Value) :
    x.runs.Runs p (assignFrom e name v) (assignFrom e (name.relabel x.via.line) v) Same := by
  have hh := p.1.heap.holder?_rename x.via e name.lexeme
  rcases hp : p.1.heap.holder? e name.lexeme with _ | f
  · have hl : assignFrom e name v p.1 =
        .error (.error ⟨.undefinedVariable name.lexeme, name.line⟩) p.1 := by
      simp only [assignFrom, hp]
    have hr : assignFrom e (name.relabel x.via.line) v (x.other p.1) =
        .error (.error ⟨.undefinedVariable name.lexeme, x.via.line name.line⟩) (x.other p.1) := by
      simp only [assignFrom, other, Token.lexeme_relabel, hh, hp]
      rfl
    exact .of_error hl hr rfl
  · have hl : assignFrom e name v p.1 =
        .ok () { p.1 with heap := p.1.heap.define f name.lexeme v } := by
      simp only [assignFrom, hp]
    have hr : assignFrom e (name.relabel x.via.line) v (x.other p.1) =
        .ok () (x.other { p.1 with heap := p.1.heap.define f name.lexeme v }) := by
      simp only [assignFrom, other, Token.lexeme_relabel, hh, hp]
      rfl
    exact runs_step hl hr rfl rfl List.prefix_rfl

theorem runs_assignAt (d : Nat) (name : String) (v : Value) :
    x.runs.Runs p (assignAt d name v) (assignAt d name v) Same := by
  have hh := p.1.heap.ancestor_rename x.via p.1.frame d
  rcases hp : p.1.heap.ancestor p.1.frame d with fault | f
  · have hl : assignAt d name v p.1 = .error (.fault fault) p.1 := by
      simp only [assignAt, hp]
    have hr : assignAt d name v (x.other p.1) = .error (.fault fault) (x.other p.1) := by
      simp only [assignAt, other, hh, hp]
    exact .of_error hl hr rfl
  · have hl : assignAt d name v p.1 = .ok () { p.1 with heap := p.1.heap.define f name v } := by
      simp only [assignAt, hp]
    have hr : assignAt d name v (x.other p.1) =
        .ok () (x.other { p.1 with heap := p.1.heap.define f name v }) := by
      simp only [assignAt, other, hh, hp]
      rfl
    exact runs_step hl hr rfl rfl List.prefix_rfl

theorem runs_getAt (d : Nat) (name : String) :
    x.runs.Runs p (getAt d name) (getAt d name) Same :=
  runs_ask (Heap.getAt_rename _ _ _ _ _)

theorem runs_distance? {id : NodeId} (hid : x.known id) :
    x.runs.Runs p (distance? id) (distance? (x.via.node id)) Same := by
  have hl : distance? id p.1 = .ok x.table[id]? p.1 := by simp only [distance?, p.2.table]
  have hr : distance? (x.via.node id) (x.other p.1) = .ok x.table[id]? (x.other p.1) := by
    simp only [distance?, other, x.same id hid]
  exact .of_ok p hl hr List.prefix_rfl rfl

theorem runs_read {id : NodeId} (hid : x.known id) (name : Token) :
    x.runs.Runs p (read id name) (read (x.via.node id) (name.relabel x.via.line)) Same := by
  refine (runs_distance? hid).bind ?_
  rintro _ d q - rfl
  cases d with
  | some d => exact runs_getAt d _
  | none => exact runs_getFrom _ name

theorem runs_assign {id : NodeId} (hid : x.known id) (name : Token) (v : Value) :
    x.runs.Runs p (assign id name v) (assign (x.via.node id) (name.relabel x.via.line) v) Same := by
  refine (runs_distance? hid).bind ?_
  rintro _ d q - rfl
  cases d with
  | some d => exact runs_assignAt d _ v
  | none => exact runs_assignFrom _ name v

/-! ### Objects -/

/-- The same function with its other ids and lines. -/
def SameClosure (f g : Closure) (_ : x.runs.Pair) : Prop :=
  g = f.rename x.via ∧ x.Covers f.decl.ids

theorem runs_newFrame (e : FrameId) (b : Bindings Value) :
    x.runs.Runs p (newFrame e b) (newFrame e b) Same :=
  runs_step (a := ⟨p.1.heap.frames.size⟩) rfl rfl rfl rfl List.prefix_rfl

theorem runs_newClosure {f : Closure} (hf : x.Covers f.decl.ids) :
    x.runs.Runs p (newClosure f) (newClosure (f.rename x.via)) Same := by
  have hgood : x.Good { p.1 with heap := (p.1.heap.newClosure f).2 } := by
    refine ⟨p.2.table, fun g hg => ?_⟩
    rcases Array.mem_push.1 hg with hg | rfl
    · exact p.2.covers g hg
    · exact hf
  refine .of_ok ⟨_, hgood⟩ (b := .function (p.1.heap.newClosure f).1) rfl ?_ List.prefix_rfl rfl
  simp only [runs, newClosure, modifyHeap, other, Heap.rename_newClosure]

theorem runs_closure (f : ClosureId) :
    x.runs.Runs p (inspect (·.closure f)) (inspect (·.closure f)) SameClosure := by
  refine .of_ok p (a := p.1.heap.closure f) rfl rfl List.prefix_rfl ⟨?_, Good.closure p.2 f⟩
  exact Heap.closure_rename _ x.ground f

/-- No method in both machines, or the same one. -/
def SameMethod (f g : Option Closure) (_ : x.runs.Pair) : Prop :=
  g = f.map (Closure.rename x.via) ∧ ∀ h, f = some h → x.Covers h.decl.ids

theorem runs_method? (c : Heap → ClassId) (name : String)
    (hc : c (p.1.heap.rename x.via) = c p.1.heap) :
    x.runs.Runs p (inspect fun h => h.method? (c h) name) (inspect fun h => h.method? (c h) name)
      SameMethod := by
  refine .of_ok p (a := p.1.heap.method? (c p.1.heap) name) rfl rfl List.prefix_rfl ⟨?_, ?_⟩
  · simp only [runs, other, hc, Heap.method?_rename _ x.ground]
  · intro f hf
    obtain ⟨i, -, rfl⟩ := Option.map_eq_some_iff.1 hf
    exact Good.closure p.2 i

theorem runs_bindThis {f : Closure} (hf : x.Covers f.decl.ids) (o : InstanceId) :
    x.runs.Runs p (bindThis f o) (bindThis (f.rename x.via) o) SameClosure := by
  refine (runs_newFrame _ _).bind ?_
  rintro _ e q - rfl
  exact .pure ⟨rfl, hf⟩

theorem runs_boundMethod {f : Closure} (hf : x.Covers f.decl.ids) (o : InstanceId) :
    x.runs.Runs p (do newClosure (← bindThis f o)) (do newClosure (← bindThis (f.rename x.via) o))
      Same := by
  refine (runs_bindThis hf o).bind ?_
  rintro g _ q - ⟨rfl, hg⟩
  exact runs_newClosure hg

theorem runs_getProperty (o : InstanceId) (name : Token) :
    x.runs.Runs p (getProperty o name) (getProperty o (name.relabel x.via.line)) Same := by
  refine (runs_inspect rfl).bind ?_
  rintro _ v q - rfl
  cases v with
  | some v => exact .pure rfl
  | none =>
    refine (runs_method? _ _ rfl).bind ?_
    rintro f _ q - ⟨rfl, hf⟩
    cases f with
    | some f => exact runs_boundMethod (hf f rfl) o
    | none => exact runs_fail name _

theorem runs_setProperty (o : InstanceId) (name : Token) (v : Value) :
    x.runs.Runs p (setProperty o name v) (setProperty o (name.relabel x.via.line) v) Same :=
  runs_step (a := ()) rfl rfl rfl rfl List.prefix_rfl

theorem runs_getSuper {id : NodeId} (hid : x.known id) (keyword method : Token) :
    x.runs.Runs p (getSuper id keyword method)
      (getSuper (x.via.node id) (keyword.relabel x.via.line) (method.relabel x.via.line)) Same := by
  refine (runs_distance? hid).bind ?_
  rintro _ d q - rfl
  cases d with
  | none => exact runs_fail keyword _
  | some d =>
    refine (runs_getAt d _).bind ?_
    rintro _ parent q - rfl
    cases d with
    | zero => exact .throw rfl
    | succ inner =>
      refine (runs_getAt inner _).bind ?_
      rintro _ receiver q - rfl
      cases parent <;> cases receiver
      case «class».«instance» c o =>
        refine (runs_method? (fun _ => c) _ rfl).bind ?_
        rintro f _ q - ⟨rfl, hf⟩
        cases f with
        | some f => exact runs_boundMethod (hf f rfl) o
        | none => exact runs_fail method _
      all_goals exact runs_fail keyword _

theorem runs_now : x.runs.Runs p now now Same :=
  runs_step (a := p.1.clock p.1.readings) rfl rfl rfl rfl List.prefix_rfl

theorem runs_callNative (paren : Token) (native : Native) (arguments : List Value) :
    x.runs.Runs p (callNative paren native arguments)
      (callNative (paren.relabel x.via.line) native arguments) Same := by
  refine runs_now.bind ?_
  rintro _ time q - rfl
  refine (runs_inspect ?_).bind ?_
  · have hd : (q.1.heap.rename x.via).display = q.1.heap.display :=
      funext (Heap.display_rename _ x.ground)
    rw [hd]
  · rintro _ answer u - rfl
    cases answer with
    | ok answer => exact .pure rfl
    | error message => exact runs_fail paren _

theorem runs_newInstance (c : ClassId) :
    x.runs.Runs p (modifyHeap fun h => h.newInstance c) (modifyHeap fun h => h.newInstance c) Same :=
  runs_step (a := ⟨p.1.heap.instances.size⟩) rfl rfl rfl rfl List.prefix_rfl

theorem methodTable_rename (r : Renaming) (n : Nat) (methods : List FunDecl)
    (table : Bindings ClosureId) :
    methodTable n (FunDecl.renameAll r methods) table = methodTable n methods table := by
  induction methods generalizing n table with
  | nil => rfl
  | cons f fs ih =>
    simp only [FunDecl.renameAll, methodTable, FunDecl.name_rename, Token.lexeme_relabel, ih]

theorem methodClosures_rename (r : Renaming) (methods : List FunDecl) (e : FrameId) :
    methodClosures (FunDecl.renameAll r methods) e =
      (methodClosures methods e).map (Closure.rename r) := by
  simp [methodClosures, FunDecl.renameAll_eq_map, Closure.rename]

theorem covers_methodClosures {methods : List FunDecl} (hm : x.Covers (FunDecl.idsAll methods))
    (e : FrameId) : ∀ f ∈ methodClosures methods e, x.Covers f.decl.ids := by
  induction methods with
  | nil => simp [methodClosures]
  | cons f fs ih =>
    obtain ⟨hf, hfs⟩ := covers_append.1 hm
    have ih := ih hfs
    simp only [methodClosures, List.mem_toArray, List.map_cons, List.mem_cons] at ih ⊢
    rintro g (rfl | hg)
    · exact hf
    · exact ih g hg

/-- A class has the same methods under the same numbers. -/
theorem runs_newClass (name : String) (superclass : Option ClassId) (e : FrameId)
    {methods : List FunDecl} (hm : x.Covers (FunDecl.idsAll methods)) :
    x.runs.Runs p (newClass name superclass methods e)
      (newClass name superclass (FunDecl.renameAll x.via methods) e) Same := by
  have hgood : x.Good { p.1 with heap := { p.1.heap with
      closures := p.1.heap.closures ++ methodClosures methods e
      classes := p.1.heap.classes.push
        ⟨name, superclass, methodTable p.1.heap.closures.size methods .empty⟩ } } := by
    refine ⟨p.2.table, fun f hf => ?_⟩
    rcases Array.mem_append.1 hf with hf | hf
    · exact p.2.covers f hf
    · exact covers_methodClosures hm e f hf
  refine .of_ok ⟨_, hgood⟩ (newClass_eq _ _ _ _ _) ?_ List.prefix_rfl rfl
  rw [newClass_eq, methodTable_rename, methodClosures_rename]
  simp [runs, other, Heap.rename]

/-! ### Trees -/

theorem parameterBindings_relabel (f : Nat → Nat) (params : List Token) (arguments : List Value) :
    parameterBindings (params.map (Token.relabel f)) arguments =
      parameterBindings params arguments := by
  simp [parameterBindings, List.zip_map_left, List.foldl_map]

theorem runs_ofResult (operator : Token) (result : Except RuntimeError.Cause Value) :
    x.runs.Runs p (ofResult operator result) (ofResult (operator.relabel x.via.line) result)
      Same := by
  cases result with
  | ok v => exact .pure rfl
  | error cause => exact runs_fail operator cause

/-- What runs with this much fuel runs in the same way after the exchange. -/
structure Agrees (x : Exchange) (n : Nat) : Prop where
  eval {p : x.runs.Pair} (e : Expr) : x.Covers e.ids →
    x.runs.Runs p (e.eval n) ((e.rename x.via).eval n) Same
  call {p : x.runs.Pair} (v : Value) (paren : Token) (arguments : List Value) :
    x.runs.Runs p (v.call n paren arguments) (v.call n (paren.relabel x.via.line) arguments) Same
  run {p : x.runs.Pair} (f : Closure) (arguments : List Value) : x.Covers f.decl.ids →
    x.runs.Runs p (f.call n arguments) ((f.rename x.via).call n arguments) Same
  exec {p : x.runs.Pair} (s : Stmt) : x.Covers s.ids →
    x.runs.Runs p (s.exec n) ((s.rename x.via).exec n) Same

namespace Agrees

variable {n : Nat}

theorem evalAll (h : x.Agrees n) : ∀ (es : List Expr) {p : x.runs.Pair},
    x.Covers (Expr.idsAll es) →
    x.runs.Runs p (es.mapM (Expr.eval n)) ((Expr.renameAll x.via es).mapM (Expr.eval n)) Same
  | [], p, _ => by
    simp only [Expr.renameAll, List.mapM_nil]
    exact .pure rfl
  | e :: es, p, hc => by
    obtain ⟨he, hes⟩ := covers_append.1 hc
    simp only [Expr.renameAll, List.mapM_cons]
    refine (h.eval e he).bind ?_
    rintro _ v q - rfl
    refine (evalAll h es hes).bind ?_
    rintro _ vs q - rfl
    exact .pure rfl

theorem evalCall (h : x.Agrees n) (callee : Expr) (paren : Token) (arguments : List Expr)
    (hc : x.Covers (Expr.call callee paren arguments).ids) :
    x.runs.Runs p ((Expr.call callee paren arguments).eval (n + 1))
      (((Expr.call callee paren arguments).rename x.via).eval (n + 1)) Same := by
  obtain ⟨hf, ha⟩ := covers_append.1 hc
  simp only [Expr.rename, Expr.eval]
  refine (h.eval callee hf).bind ?_
  rintro _ f q - rfl
  refine (h.evalAll arguments ha).bind ?_
  rintro _ vs q - rfl
  refine (runs_inspect (Heap.arity?_rename _ x.ground f)).bind ?_
  rintro _ arity q - rfl
  cases arity with
  | none => exact runs_fail paren _
  | some arity =>
    dsimp only
    split
    · exact h.call f paren vs
    · exact runs_fail paren _

theorem evalSucc (h : x.Agrees n) (e : Expr) (hc : x.Covers e.ids) :
    x.runs.Runs p (e.eval (n + 1)) ((e.rename x.via).eval (n + 1)) Same := by
  cases e with
  | literal value => exact .pure rfl
  | grouping inner =>
    simp only [Expr.rename, Expr.eval]
    exact h.eval inner hc
  | unary operator right =>
    simp only [Expr.rename, Expr.eval]
    refine (h.eval right hc).bind ?_
    rintro _ v q - rfl
    exact runs_ofResult operator _
  | binary left operator right =>
    obtain ⟨hl, hr⟩ := covers_append.1 hc
    simp only [Expr.rename, Expr.eval]
    refine (h.eval left hl).bind ?_
    rintro _ v q - rfl
    refine (h.eval right hr).bind ?_
    rintro _ w q - rfl
    exact runs_ofResult operator _
  | logical left operator right =>
    obtain ⟨hl, hr⟩ := covers_append.1 hc
    simp only [Expr.rename, Expr.eval]
    refine (h.eval left hl).bind ?_
    rintro _ v q - rfl
    rw [Token.kind_relabel]
    split
    · exact .pure rfl
    · exact h.eval right hr
  | «variable» id name =>
    simp only [Expr.rename, Expr.eval]
    exact runs_read (hc id List.mem_cons_self) name
  | assign id name value =>
    obtain ⟨hv, hi⟩ := covers_append.1 hc
    simp only [Expr.rename, Expr.eval]
    refine (h.eval value hv).bind ?_
    rintro _ v q - rfl
    refine (runs_assign (hi id List.mem_cons_self) name v).bind ?_
    rintro _ _ q - rfl
    exact .pure rfl
  | call callee paren arguments => exact h.evalCall callee paren arguments hc
  | get object name =>
    simp only [Expr.rename, Expr.eval]
    refine (h.eval object hc).bind ?_
    rintro _ v q - rfl
    cases v with
    | «instance» o => exact runs_getProperty o name
    | _ => exact runs_fail name _
  | set object name value =>
    obtain ⟨ho, hv⟩ := covers_append.1 hc
    simp only [Expr.rename, Expr.eval]
    refine (h.eval object ho).bind ?_
    rintro _ v q - rfl
    cases v with
    | «instance» o =>
      refine (h.eval value hv).bind ?_
      rintro _ v q - rfl
      refine (runs_setProperty o name v).bind ?_
      rintro _ _ q - rfl
      exact .pure rfl
    | _ => exact runs_fail name _
  | this id keyword =>
    simp only [Expr.rename, Expr.eval]
    exact runs_read (hc id List.mem_cons_self) keyword
  | super id keyword method =>
    simp only [Expr.rename, Expr.eval]
    exact runs_getSuper (hc id List.mem_cons_self) keyword method

theorem callSucc (h : x.Agrees n) (v : Value) (paren : Token) (arguments : List Value) :
    x.runs.Runs p (v.call (n + 1) paren arguments)
      (v.call (n + 1) (paren.relabel x.via.line) arguments) Same := by
  simp only [Value.call]
  cases v with
  | native id =>
    refine (runs_inspect rfl).bind ?_
    rintro _ native q - rfl
    exact runs_callNative paren native arguments
  | function f =>
    refine (runs_closure f).bind ?_
    rintro f _ q - ⟨rfl, hf⟩
    exact h.run f arguments hf
  | «class» c =>
    refine (runs_newInstance c).bind ?_
    rintro _ o q - rfl
    refine (runs_method? (fun _ => c) _ rfl).bind ?_
    rintro f _ q - ⟨rfl, hf⟩
    cases f with
    | none => exact .pure rfl
    | some f =>
      refine (runs_bindThis (hf f rfl) o).bind ?_
      rintro g _ q - ⟨rfl, hg⟩
      refine (h.run g arguments hg).bind ?_
      rintro _ _ q - rfl
      exact .pure rfl
  | _ => exact runs_fail paren _

theorem execAll (h : x.Agrees n) : ∀ (ss : List Stmt) {p : x.runs.Pair},
    x.Covers (Stmt.idsAll ss) →
    x.runs.Runs p (runAll (Stmt.exec n) ss) (runAll (Stmt.exec n) (Stmt.renameAll x.via ss)) Same
  | [], p, _ => .pure rfl
  | s :: ss, p, hc => by
    obtain ⟨hs, hss⟩ := covers_append.1 hc
    refine (h.exec s hs).bind ?_
    rintro _ flow q - rfl
    cases flow with
    | normal => exact execAll h ss hss
    | _ => exact .pure rfl

theorem runSucc (h : x.Agrees n) (f : Closure) (arguments : List Value)
    (hf : x.Covers f.decl.ids) :
    x.runs.Runs p (f.call (n + 1) arguments) ((f.rename x.via).call (n + 1) arguments) Same := by
  have hbody : x.Covers (Stmt.idsAll f.decl.body) := by
    obtain ⟨⟨_, _, _⟩, _, _⟩ := f
    exact hf
  simp only [Closure.call, Closure.rename, FunDecl.params_rename, FunDecl.body_rename,
    parameterBindings_relabel]
  refine (runs_newFrame _ _).bind ?_
  rintro _ e q - rfl
  refine (runs_withFrame fun q => h.execAll _ hbody).bind ?_
  rintro _ flow q - rfl
  by_cases hi : f.isInitializer = true
  · have hask : (x.other q.1).heap.getAt f.frame 0 "this" = q.1.heap.getAt f.frame 0 "this" :=
      Heap.getAt_rename _ _ _ _ _
    simp only [hi, if_true]
    exact @runs_ask x q _ (fun m => m.heap.getAt f.frame 0 "this") hask
  · simp only [hi]
    exact .pure rfl

theorem repeatWhile {condition condition' : Exec Value} {body body' : Exec Flow}
    (hc : ∀ p : x.runs.Pair, x.runs.Runs p condition condition' Same)
    (hb : ∀ p : x.runs.Pair, x.runs.Runs p body body' Same) (fuel : Nat) {p : x.runs.Pair} :
    x.runs.Runs p (Lox.repeatWhile condition body fuel) (Lox.repeatWhile condition' body' fuel)
      Same := by
  induction fuel generalizing p with
  | zero => exact .throw rfl
  | succ fuel ih =>
    simp only [Lox.repeatWhile]
    refine (hc p).bind ?_
    rintro _ v q - rfl
    split
    · refine (hb q).bind ?_
      rintro _ flow q - rfl
      cases flow with
      | normal => exact ih
      | _ => exact .pure rfl
    · exact .pure rfl

theorem superclassOf (h : x.Agrees n) (name : Token) (superclass : Option Expr)
    (hc : x.Covers (Expr.idsOption superclass)) :
    x.runs.Runs p (Lox.superclassOf (Expr.eval n) name superclass)
      (Lox.superclassOf (Expr.eval n) (name.relabel x.via.line)
        (superclass.map (Expr.rename x.via))) Same := by
  cases superclass with
  | none => exact .pure rfl
  | some e =>
    refine (h.eval e hc).bind ?_
    rintro _ v q - rfl
    cases v with
    | «class» c => exact .pure rfl
    | _ => cases e <;> exact runs_fail _ _

theorem execClass (h : x.Agrees n) (name : Token) (superclass : Option Expr)
    (methods : List FunDecl) (hc : x.Covers (Stmt.class name superclass methods).ids) :
    x.runs.Runs p ((Stmt.class name superclass methods).exec (n + 1))
      (((Stmt.class name superclass methods).rename x.via).exec (n + 1)) Same := by
  obtain ⟨hs, hm⟩ := covers_append.1 hc
  simp only [Stmt.rename, Stmt.exec]
  refine (h.superclassOf name superclass hs).bind ?_
  rintro _ parent q - rfl
  refine (runs_define _ _).bind ?_
  rintro _ _ q - rfl
  refine runs_currentFrame.bind ?_
  rintro _ here q - rfl
  have around : x.runs.Runs q (methodFrame here parent) (methodFrame here parent) Same := by
    cases parent with
    | none => exact .pure rfl
    | some c => exact runs_newFrame _ _
  refine around.bind ?_
  rintro _ e q - rfl
  refine (runs_newClass _ _ e hm).bind ?_
  rintro _ c q - rfl
  refine (runs_assignFrom here name c).bind ?_
  rintro _ _ q - rfl
  exact .pure rfl

theorem execSucc (h : x.Agrees n) (s : Stmt) (hc : x.Covers s.ids) :
    x.runs.Runs p (s.exec (n + 1)) ((s.rename x.via).exec (n + 1)) Same := by
  cases s with
  | expression value =>
    simp only [Stmt.rename, Stmt.exec]
    refine (h.eval value hc).bind ?_
    rintro _ v q - rfl
    exact .pure rfl
  | print value =>
    simp only [Stmt.rename, Stmt.exec]
    refine (h.eval value hc).bind ?_
    rintro _ v q - rfl
    refine (runs_inspect (Heap.display_rename _ x.ground v)).bind ?_
    rintro _ line q - rfl
    refine (runs_print line).bind ?_
    rintro _ _ q - rfl
    exact .pure rfl
  | var name initializer =>
    cases initializer with
    | none =>
      simp only [Stmt.rename, Option.map_none, Stmt.exec]
      refine (runs_define _ _).bind ?_
      rintro _ _ q - rfl
      exact .pure rfl
    | some value =>
      simp only [Stmt.rename, Option.map_some, Stmt.exec]
      refine (h.eval value hc).bind ?_
      rintro _ v q - rfl
      refine (runs_define _ _).bind ?_
      rintro _ _ q - rfl
      exact .pure rfl
  | block body =>
    simp only [Stmt.rename, Stmt.exec]
    refine runs_currentFrame.bind ?_
    rintro _ here q - rfl
    refine (runs_newFrame _ _).bind ?_
    rintro _ e q - rfl
    exact runs_withFrame fun q => h.execAll body hc
  | «if» condition thenBranch elseBranch =>
    cases elseBranch with
    | none =>
      obtain ⟨hcond, ht⟩ := covers_append.1 hc
      simp only [Stmt.rename, Stmt.exec]
      refine (h.eval condition hcond).bind ?_
      rintro _ v q - rfl
      split
      · exact h.exec thenBranch ht
      · exact .pure rfl
    | some elseBranch =>
      obtain ⟨hcond, hb⟩ := covers_append.1 hc
      obtain ⟨ht, he⟩ := covers_append.1 hb
      simp only [Stmt.rename, Stmt.exec]
      refine (h.eval condition hcond).bind ?_
      rintro _ v q - rfl
      split
      · exact h.exec thenBranch ht
      · exact h.exec elseBranch he
  | «while» condition body =>
    obtain ⟨hcond, hb⟩ := covers_append.1 hc
    simp only [Stmt.rename, Stmt.exec]
    exact repeatWhile (fun p => h.eval condition hcond) (fun p => h.exec body hb) n
  | «break» keyword => exact .pure rfl
  | function decl =>
    simp only [Stmt.rename, Stmt.exec]
    refine runs_currentFrame.bind ?_
    rintro _ here q - rfl
    refine (runs_newClosure (f := ⟨decl, here, false⟩) hc).bind ?_
    rintro _ f q - rfl
    rw [FunDecl.name_rename]
    refine (runs_define _ _).bind ?_
    rintro _ _ q - rfl
    exact .pure rfl
  | «return» keyword value =>
    cases value with
    | none => exact .pure rfl
    | some value =>
      simp only [Stmt.rename, Option.map_some, Stmt.exec]
      refine (h.eval value hc).bind ?_
      rintro _ v q - rfl
      exact .pure rfl
  | «class» name superclass methods => exact h.execClass name superclass methods hc

end Agrees

theorem agrees (x : Exchange) (n : Nat) : x.Agrees n := by
  induction n with
  | zero =>
    exact
      { eval := fun _ _ => .throw rfl
        call := fun _ _ _ => .throw rfl
        run := fun _ _ _ => .throw rfl
        exec := fun _ _ => .throw rfl }
  | succ n ih =>
    exact
      { eval := ih.evalSucc
        call := ih.callSucc
        run := ih.runSucc
        exec := ih.execSucc }

theorem runs_interpret (fuel : Nat) : ∀ (program : List Stmt) {p : x.runs.Pair},
    x.Covers (Stmt.idsAll program) →
    x.runs.Runs p (interpret fuel program) (interpret fuel (Stmt.renameAll x.via program)) Same
  | [], p, _ => .pure rfl
  | s :: ss, p, hc => by
    obtain ⟨hs, hss⟩ := covers_append.1 hc
    have hstmt : x.runs.Runs p (do let _ ← s.exec fuel) (do let _ ← (s.rename x.via).exec fuel)
        Same := by
      refine ((x.agrees fuel).exec s hs).bind ?_
      rintro _ flow q - rfl
      exact .pure rfl
    show x.runs.Runs p ((do let _ ← s.exec fuel) >>= fun _ => interpret fuel ss)
      ((do let _ ← (s.rename x.via).exec fuel) >>= fun _ =>
        interpret fuel (Stmt.renameAll x.via ss)) Same
    refine hstmt.bind ?_
    rintro _ _ q - rfl
    exact runs_interpret fuel ss hss

end Exchange

end Lox

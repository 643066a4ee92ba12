import Lox.Proofs.Walks

/-!
# Legal trees

The static rules by recursion on the tree, with what surrounds a place passed down: the innermost
function and class, whether a loop counts and whether declarations are global. A walk over a formed
tree reports nothing exactly when the tree is legal and the names it declares in the scope around it
are new there.
-/

namespace Lox

open Scope

/-! ### The rules -/

/-- What surrounds a place in a program. -/
structure Surroundings where
  function : FunctionContext
  «class» : ClassContext
  inLoop : Bool
  isGlobal : Bool

mutual

/-- `pending` is the variable whose initializer this is. -/
def Expr.Legal (c : ClassContext) (pending : Option String) : Expr → Prop
  | .literal _ => True
  | .grouping inner => inner.Legal c pending
  | .unary _ right => right.Legal c pending
  | .binary left _ right => left.Legal c pending ∧ right.Legal c pending
  | .logical left _ right => left.Legal c pending ∧ right.Legal c pending
  | .variable _ name => pending ≠ some name.lexeme
  | .assign _ _ value => value.Legal c pending
  | .call callee _ arguments => callee.Legal c pending ∧ Expr.LegalAll c pending arguments
  | .get object _ => object.Legal c pending
  | .set object _ value => value.Legal c pending ∧ object.Legal c pending
  | .this _ _ => c ≠ .none
  | .super _ _ _ => c = .subclass

def Expr.LegalAll (c : ClassContext) (pending : Option String) : List Expr → Prop
  | [] => True
  | e :: es => e.Legal c pending ∧ Expr.LegalAll c pending es

end

def Expr.LegalOption (c : ClassContext) (pending : Option String) : Option Expr → Prop
  | none => True
  | some e => e.Legal c pending

/-- A superclass that is not the class itself. -/
def Expr.LegalSuperclass (name : Token) : Option Expr → Prop
  | some (.variable _ parent) => parent.lexeme ≠ name.lexeme
  | _ => True

/-- Around the methods of a class. -/
def Surroundings.inside (c : Surroundings) (superclass : Option Expr) : Surroundings :=
  { c with «class» := if superclass.isSome then .subclass else .class, isGlobal := false }

mutual

def Stmt.Legal (c : Surroundings) : Stmt → Prop
  | .expression value => value.Legal c.class none
  | .print value => value.Legal c.class none
  | .var name initializer =>
    Expr.LegalOption c.class (if c.isGlobal then none else some name.lexeme) initializer
  | .block body =>
    (Stmt.names body).Nodup ∧ Stmt.LegalAll { c with isGlobal := false } body
  | .if condition thenBranch none => condition.Legal c.class none ∧ thenBranch.Legal c
  | .if condition thenBranch (some elseBranch) =>
    condition.Legal c.class none ∧ thenBranch.Legal c ∧ elseBranch.Legal c
  | .while condition body => condition.Legal c.class none ∧ body.Legal { c with inLoop := true }
  | .break _ => c.inLoop = true
  | .function decl => decl.Legal c .function
  | .return _ value =>
    c.function ≠ .none ∧ ¬(value.isSome = true ∧ c.function = .initializer) ∧
      Expr.LegalOption c.class none value
  | .class name superclass methods =>
    Expr.LegalSuperclass name superclass ∧ FunDecl.LegalAll (c.inside superclass) methods

def Stmt.LegalAll (c : Surroundings) : List Stmt → Prop
  | [] => True
  | s :: ss => s.Legal c ∧ Stmt.LegalAll c ss

def FunDecl.Legal (c : Surroundings) (context : FunctionContext) : FunDecl → Prop
  | ⟨_, params, body⟩ =>
    (params.map (·.lexeme) ++ Stmt.names body).Nodup ∧
      Stmt.LegalAll ⟨context, c.class, false, false⟩ body

def FunDecl.LegalAll (c : Surroundings) : List FunDecl → Prop
  | [] => True
  | f :: fs => f.Legal c f.methodContext ∧ FunDecl.LegalAll c fs

end

/-! ### Silent walks -/

namespace Scope.Walk

/-- The second walk has come further than the first, with whatever errors. -/
def Grows (w v : Walk) : Prop := ∃ more, v.errors = w.errors ++ more

/-- Nothing was reported on the way. -/
def Silent (w v : Walk) : Prop := v.errors = w.errors

variable {u v w : Walk}

theorem Grows.refl (w : Walk) : Grows w w := ⟨#[], by simp⟩

theorem Grows.trans (h : Grows u v) (k : Grows v w) : Grows u w := by
  obtain ⟨a, ha⟩ := h
  obtain ⟨b, hb⟩ := k
  exact ⟨a ++ b, by rw [hb, ha, Array.append_assoc]⟩

theorem silent_trans (h : Grows u v) (k : Grows v w) : Silent u w ↔ Silent u v ∧ Silent v w := by
  obtain ⟨a, ha⟩ := h
  obtain ⟨b, hb⟩ := k
  simp only [Silent, ha, hb]
  constructor
  · intro h
    have hs := congrArg Array.size h
    simp only [Array.size_append] at hs
    obtain rfl : a = #[] := Array.eq_empty_of_size_eq_zero (by omega)
    obtain rfl : b = #[] := Array.eq_empty_of_size_eq_zero (by omega)
    simp
  · rintro ⟨h, k⟩
    rw [k, h]

theorem grows_of_after {f : Walk → Walk} (hf : ∀ w p, f (w.after p) = (f w).after p) (w : Walk) :
    Grows w (f w) := by
  refine ⟨(f w.place).errors, ?_⟩
  have := hf w.place w
  rw [place_after] at this
  rw [this]
  rfl

theorem grows_report (w : Walk) (t : Token) (c : Cause) : Grows w (w.report t c) :=
  ⟨#[⟨t, c⟩], rfl⟩

theorem not_silent_report (w : Walk) (t : Token) (c : Cause) : ¬ Silent w (w.report t c) := by
  simp [Silent, report]

theorem silent_reportIf (w : Walk) (broken : Bool) (t : Token) (c : Cause) :
    Silent w (w.reportIf broken t c) ↔ broken = false := by
  cases broken
  · simp [reportIf, Silent]
  · simpa [reportIf] using not_silent_report w t c

@[simp] theorem errors_note (w : Walk) (id : NodeId) (name : String) :
    (w.note id name).errors = w.errors := by
  unfold note
  split <;> rfl

@[simp] theorem errors_define (w : Walk) (name : String) : (w.define name).errors = w.errors := by
  obtain ⟨scopes, _, _, _, _, _⟩ := w
  cases scopes <;> rfl

/-- The innermost scope has none of the names, and no two of them are the same; global names may be
declared again. -/
def Takes (w : Walk) (names : List String) : Prop :=
  w.scopes ≠ [] → names.Nodup ∧ ∀ x ∈ names, w.innermost? x = none

/-- No variable is waiting for its initializer. -/
def Ready (w : Walk) : Prop := ∀ x, w.innermost? x ≠ some false

theorem innermost?_of_place (h : v.place = w.place) : v.innermost? = w.innermost? := by
  funext x
  simp only [innermost?, scopes_of_place h]

theorem takes_of_place (h : v.place = w.place) (xs : List String) : v.Takes xs ↔ w.Takes xs := by
  simp only [Takes, scopes_of_place h, innermost?_of_place h]

theorem innermost?_define (w : Walk) (hw : w.scopes ≠ []) (x y : String) :
    (w.define x).innermost? y = if x = y then some true else w.innermost? y := by
  obtain ⟨scopes, _, _, _, _, _⟩ := w
  cases scopes with
  | nil => exact absurd rfl hw
  | cons scope outer => exact Bindings.find?_insert scope x y true

theorem define_of_global (w : Walk) (hw : w.scopes = []) (x : String) : w.define x = w := by
  obtain ⟨scopes, _, _, _, _, _⟩ := w
  subst hw
  rfl

theorem scopes_define_ne_nil (w : Walk) (x : String) :
    (w.define x).scopes ≠ [] ↔ w.scopes ≠ [] := by
  obtain ⟨scopes, _, _, _, _, _⟩ := w
  cases scopes <;> simp [define, mark]

theorem Ready.define {w : Walk} (h : w.Ready) (x : String) : (w.define x).Ready := by
  by_cases hw : w.scopes = []
  · rw [define_of_global w hw]
    exact h
  · intro y
    rw [innermost?_define w hw]
    split
    · simp
    · exact h y

theorem takes_nil (w : Walk) : w.Takes [] := fun _ => ⟨List.nodup_nil, by simp⟩

theorem takes_branch {s : Stmt} (h : s.declared? = none) (w : Walk) : w.Takes (Stmt.names [s]) := by
  rw [Stmt.names_branch h]
  exact takes_nil w

theorem takes_cons (w : Walk) (x : String) (xs : List String) :
    w.Takes (x :: xs) ↔ w.Takes [x] ∧ (w.define x).Takes xs := by
  by_cases hw : w.scopes = []
  · simp [Takes, hw, define_of_global w hw]
  · simp only [Takes, scopes_define_ne_nil, ne_eq, hw, not_false_eq_true, true_implies,
      innermost?_define w hw, List.nodup_cons, List.mem_cons, forall_eq_or_imp]
    constructor
    · rintro ⟨⟨hx, hn⟩, hf, hs⟩
      refine ⟨by simpa using hf, hn, fun y hy => ?_⟩
      rw [if_neg (by rintro rfl; exact hx hy)]
      exact hs y hy
    · rintro ⟨⟨-, hf, -⟩, hn, hs⟩
      have hne : ∀ y ∈ xs, x ≠ y := fun y hy h => by simpa [h] using hs y hy
      refine ⟨⟨fun hx => hne x hx rfl, hn⟩, hf, fun y hy => ?_⟩
      simpa [hne y hy] using hs y hy

theorem takes_append (w : Walk) (xs ys : List String) :
    w.Takes (xs ++ ys) ↔ w.Takes xs ∧ (w.defineAll xs).Takes ys := by
  induction xs generalizing w with
  | nil => exact ⟨fun h => ⟨takes_nil w, h⟩, fun h => h.2⟩
  | cons x xs ih =>
    rw [List.cons_append, takes_cons, ih, takes_cons w x xs, and_assoc]
    rfl

/-- In a scope that has just been opened the names need only differ from each other. -/
theorem takes_openScope (w : Walk) (xs : List String) : w.openScope.Takes xs ↔ xs.Nodup := by
  constructor
  · exact fun h => (h (by simp [openScope])).1
  · exact fun h _ => ⟨h, fun _ _ => rfl⟩

theorem silent_introduce (w : Walk) (name : Token) :
    Silent w (w.introduce name) ↔ w.Takes [name.lexeme] := by
  obtain ⟨scopes, _, _, _, _, _⟩ := w
  cases scopes with
  | nil => simp [introduce, declare, innermost?, define, mark, Silent, Takes]
  | cons scope outer =>
    simp only [introduce, declare, innermost?, Takes, Silent, errors_define]
    by_cases h : (scope.find? name.lexeme).isSome = true
    · have : scope.find? name.lexeme ≠ none := fun hn => by simp [hn] at h
      simp [h, report, this]
    · have : scope.find? name.lexeme = none := by simpa using h
      simp [mark, this]

theorem grows_introduce (w : Walk) (name : Token) : Grows w (w.introduce name) :=
  grows_of_after (f := fun w => w.introduce name) (fun w p => introduce_after w p name) w

theorem silent_foldl_introduce (w : Walk) (names : List Token) :
    Silent w (names.foldl introduce w) ↔ w.Takes (names.map (·.lexeme)) := by
  induction names generalizing w with
  | nil => exact ⟨fun _ => takes_nil w, fun _ => rfl⟩
  | cons name names ih =>
    have hg := grows_of_after (f := fun w => names.foldl introduce w)
      (fun w p => foldl_introduce_after w p names) (w.introduce name)
    rw [List.foldl_cons, silent_trans (grows_introduce w name) hg, ih, silent_introduce,
      List.map_cons, takes_cons w name.lexeme (names.map (·.lexeme)),
      takes_of_place (place_introduce_eq_define w name)]

/-- In a class of this kind, inside the initializer of a local variable or of none. -/
structure Awaits (w : Walk) (c : ClassContext) (pending : Option String) : Prop where
  «class» : w.classContext = c
  pending : ∀ x, w.innermost? x = some false ↔ pending = some x

theorem Awaits.of_place {c : ClassContext} {pending : Option String} (h : v.place = w.place)
    (hw : w.Awaits c pending) : v.Awaits c pending :=
  ⟨(classContext_of_place h).trans hw.class, innermost?_of_place h ▸ hw.pending⟩

theorem Ready.awaits (h : w.Ready) : w.Awaits w.classContext none :=
  ⟨rfl, fun x => ⟨fun hx => absurd hx (h x), by simp⟩⟩

/-- The walk has reached a place that is so surrounded. -/
structure Reaches (w : Walk) (c : Surroundings) : Prop where
  function : w.functionContext = c.function
  «class» : w.classContext = c.class
  loop : c.inLoop = true ↔ w.loopDepth ≠ 0
  global : c.isGlobal = true ↔ w.scopes = []
  ready : w.Ready

theorem Reaches.of_place {c : Surroundings} (h : v.place = w.place) (hw : w.Reaches c) :
    v.Reaches c := by
  have hf : v.place.functionContext = w.place.functionContext := congrArg Walk.functionContext h
  have hl : v.place.loopDepth = w.place.loopDepth := congrArg Walk.loopDepth h
  have hl : v.loopDepth = w.loopDepth := hl
  refine ⟨hf.trans hw.function, (classContext_of_place h).trans hw.class, hl ▸ hw.loop,
    scopes_of_place h ▸ hw.global, ?_⟩
  rw [Ready, innermost?_of_place h]
  exact hw.ready

theorem Reaches.awaits {c : Surroundings} (h : w.Reaches c) : w.Awaits c.class none :=
  h.class ▸ h.ready.awaits

theorem Reaches.define {c : Surroundings} (h : w.Reaches c) (x : String) :
    (w.define x).Reaches c := by
  refine ⟨?_, ?_, ?_, ?_, h.ready.define x⟩
  · rw [← h.function]
    obtain ⟨scopes, _, _, _, _, _⟩ := w
    cases scopes <;> rfl
  · rw [← h.class]
    obtain ⟨scopes, _, _, _, _, _⟩ := w
    cases scopes <;> rfl
  · rw [h.loop]
    obtain ⟨scopes, _, _, _, _, _⟩ := w
    cases scopes <;> rfl
  · rw [h.global, ← not_iff_not]
    exact (scopes_define_ne_nil w x).symm

theorem Reaches.defineAll {c : Surroundings} (h : w.Reaches c) (xs : List String) :
    (w.defineAll xs).Reaches c := by
  induction xs generalizing w with
  | nil => exact h
  | cons x xs ih => exact ih (h.define x)

theorem Reaches.openScope {c : Surroundings} (h : w.Reaches c) :
    w.openScope.Reaches { c with isGlobal := false } :=
  ⟨h.function, h.class, h.loop, by simp [Walk.openScope], by simp [Ready, innermost?, Walk.openScope, Bindings.find?_empty]⟩

theorem Reaches.enterLoop {c : Surroundings} (h : w.Reaches c) :
    Reaches { w with loopDepth := w.loopDepth + 1 } { c with inLoop := true } :=
  ⟨h.function, h.class, by simp, h.global, h.ready⟩

/-- The body of a function is in none of the loops around the function. -/
theorem Reaches.enterFunction {c : Surroundings} (h : w.Reaches c) (context : FunctionContext) :
    Reaches { w with functionContext := context, loopDepth := 0 }
      ⟨context, c.class, false, c.isGlobal⟩ :=
  ⟨rfl, h.class, by simp, h.global, h.ready⟩

end Scope.Walk

theorem Expr.grows_resolve (e : Expr) (w : Walk) : w.Grows (e.resolve w) :=
  Walk.grows_of_after (fun w p => Expr.resolve_after p e w) w

theorem Expr.grows_resolveAll (es : List Expr) (w : Walk) : w.Grows (Expr.resolveAll es w) :=
  Walk.grows_of_after (fun w p => Expr.resolveAll_after p es w) w

theorem Expr.grows_resolveOption (e : Option Expr) (w : Walk) :
    w.Grows (Expr.resolveOption e w) :=
  Walk.grows_of_after (fun w p => Expr.resolveOption_after p e w) w

theorem Expr.grows_resolveSuperclass (name : Token) (e : Option Expr) (w : Walk) :
    w.Grows (Expr.resolveSuperclass name e w) :=
  Walk.grows_of_after (fun w p => Expr.resolveSuperclass_after p name e w) w

theorem Stmt.grows_resolve (s : Stmt) (w : Walk) : w.Grows (s.resolve w) :=
  Walk.grows_of_after (fun w p => Stmt.resolve_after p s w) w

theorem Stmt.grows_resolveAll (ss : List Stmt) (w : Walk) : w.Grows (Stmt.resolveAll ss w) :=
  Walk.grows_of_after (fun w p => Stmt.resolveAll_after p ss w) w

theorem FunDecl.grows_resolve (context : FunctionContext) (f : FunDecl) (w : Walk) :
    w.Grows (f.resolve context w) :=
  Walk.grows_of_after (fun w p => FunDecl.resolve_after p context f w) w

theorem FunDecl.grows_resolveAll (fs : List FunDecl) (w : Walk) :
    w.Grows (FunDecl.resolveAll fs w) :=
  Walk.grows_of_after (fun w p => FunDecl.resolveAll_after p fs w) w

/-! ### Expressions -/

mutual

theorem Expr.silent_iff {c : ClassContext} {pending : Option String} :
    ∀ (e : Expr) {w : Walk}, w.Awaits c pending → (w.Silent (e.resolve w) ↔ e.Legal c pending)
  | .literal _, _, _ => ⟨fun _ => trivial, fun _ => rfl⟩
  | .grouping inner, _, h => Expr.silent_iff inner h
  | .unary _ right, _, h => Expr.silent_iff right h
  | .binary left _ right, w, h => by
    have hl := h.of_place (Expr.place_resolve left w)
    rw [Expr.resolve, Walk.silent_trans (grows_resolve left w) (grows_resolve right _),
      Expr.silent_iff left h, Expr.silent_iff right hl, Expr.Legal]
  | .logical left _ right, w, h => by
    have hl := h.of_place (Expr.place_resolve left w)
    rw [Expr.resolve, Walk.silent_trans (grows_resolve left w) (grows_resolve right _),
      Expr.silent_iff left h, Expr.silent_iff right hl, Expr.Legal]
  | .variable id name, w, h => by
    simp only [Expr.resolve, Walk.Silent, Walk.errors_note]
    refine (Walk.silent_reportIf w _ name .ownInitializer).trans ?_
    rw [beq_eq_false_iff_ne, Expr.Legal, ne_eq, h.pending]
  | .assign id name value, w, h => by
    simp only [Expr.resolve, Walk.Silent, Walk.errors_note]
    exact Expr.silent_iff value h
  | .call callee _ arguments, w, h => by
    have hc := h.of_place (Expr.place_resolve callee w)
    rw [Expr.resolve, Walk.silent_trans (grows_resolve callee w) (grows_resolveAll arguments _),
      Expr.silent_iff callee h, Expr.silentAll_iff arguments hc, Expr.Legal]
  | .get object _, _, h => Expr.silent_iff object h
  | .set object _ value, w, h => by
    have hv := h.of_place (Expr.place_resolve value w)
    rw [Expr.resolve, Walk.silent_trans (grows_resolve value w) (grows_resolve object _),
      Expr.silent_iff value h, Expr.silent_iff object hv, Expr.Legal]
  | .this id keyword, w, h => by
    simp only [Expr.resolve, Expr.Legal, ← h.class]
    split
    · next hc => simp [hc, Walk.not_silent_report]
    · next hc => simpa [Walk.Silent] using hc
  | .super id keyword _, w, h => by
    simp only [Expr.resolve, Expr.Legal, ← h.class, Walk.Silent, Walk.errors_note]
    split
    · next hc => simp [hc, Walk.report]
    · next hc => simp [hc, Walk.report]
    · next hc => simp [hc]

theorem Expr.silentAll_iff {c : ClassContext} {pending : Option String} :
    ∀ (es : List Expr) {w : Walk}, w.Awaits c pending →
      (w.Silent (Expr.resolveAll es w) ↔ Expr.LegalAll c pending es)
  | [], _, _ => ⟨fun _ => trivial, fun _ => rfl⟩
  | e :: es, w, h => by
    have he := h.of_place (Expr.place_resolve e w)
    rw [Expr.resolveAll, Walk.silent_trans (grows_resolve e w) (grows_resolveAll es _),
      Expr.silent_iff e h, Expr.silentAll_iff es he, Expr.LegalAll]

end

theorem Expr.silentOption_iff {c : ClassContext} {pending : Option String} (e : Option Expr)
    {w : Walk} (h : w.Awaits c pending) :
    w.Silent (Expr.resolveOption e w) ↔ Expr.LegalOption c pending e := by
  cases e with
  | none => exact ⟨fun _ => trivial, fun _ => rfl⟩
  | some e => exact Expr.silent_iff e h

/-! ### Statements -/

variable {good : Token → Prop}

theorem Expr.silentSuperclass_iff (name : Token) {superclass : Option Expr}
    (hs : Expr.NamesSuperclass good superclass) {w : Walk} (hw : w.Ready) :
    w.Silent (Expr.resolveSuperclass name superclass w) ↔ Expr.LegalSuperclass name superclass := by
  cases superclass with
  | none => exact ⟨fun _ => trivial, fun _ => rfl⟩
  | some e =>
    obtain ⟨id, parent, rfl, -⟩ := hs
    have checked : ∀ broken : Bool, w.Silent
        ((Expr.variable id parent).resolve { w.reportIf broken parent .selfInheritance with
          classContext := .subclass }) ↔ broken = false := by
      intro broken
      have hr : (w.reportIf broken parent .selfInheritance).Ready := by
        rw [Walk.Ready, Walk.innermost?_of_place (Walk.place_reportIf w broken parent _)]
        exact hw
      have hg : w.Grows (w.reportIf broken parent .selfInheritance) := by
        cases broken
        · exact .refl w
        · exact Walk.grows_report w parent _
      have hv := Expr.silent_iff (.variable id parent)
        (w := { w.reportIf broken parent .selfInheritance with classContext := .subclass })
        (Walk.Ready.awaits hr)
      refine (Walk.silent_trans (v := { w.reportIf broken parent .selfInheritance with
        classContext := .subclass }) hg (Expr.grows_resolve _ _)).trans ?_
      rw [hv, ← Walk.silent_reportIf w broken parent .selfInheritance]
      exact and_iff_left (by simp [Expr.Legal])
    simp only [Expr.resolveSuperclass, Walk.Silent, Walk.errors_define]
    refine (checked (parent.lexeme == name.lexeme)).trans ?_
    rw [beq_eq_false_iff_ne]
    rfl

theorem Scope.Walk.Reaches.inside {w : Walk} {c : Surroundings} (h : w.Reaches c) (name : Token)
    (superclass : Option Expr) :
    ((Expr.resolveSuperclass name superclass
      (Walk.introduce { w with classContext := .class } name)).openScope.define "this").Reaches
        (c.inside superclass) := by
  have hc : ∀ k : ClassContext, Walk.Reaches { w with classContext := k } { c with «class» := k } :=
    fun k => ⟨h.function, rfl, h.loop, h.global, h.ready⟩
  have hn : ∀ k : ClassContext,
      (Walk.define { w with classContext := k } name.lexeme).Reaches { c with «class» := k } :=
    fun k => (hc k).define name.lexeme
  cases superclass with
  | none =>
    have hp := Walk.place_introduce_eq_define { w with classContext := .class } name
    exact (((hn .class).of_place hp).openScope).define "this"
  | some e =>
    have hp := Expr.place_resolveSuperclass name (some e)
      (Walk.introduce { w with classContext := .class } name)
    refine ((Walk.Reaches.of_place (hp.trans ?_)
      ((hn .subclass).openScope.define "super")).openScope).define "this"
    rw [Walk.place_introduce, Walk.place_define _ "super", Walk.place_openScope, Walk.place_define]
    obtain ⟨scopes, _, _, _, _, _⟩ := w
    cases scopes <;> rfl

theorem Scope.Walk.silent_declare (w : Walk) (name : Token) :
    w.Silent (w.declare name) ↔ w.Takes [name.lexeme] := by
  rw [← silent_introduce, introduce]
  simp only [Silent, errors_define]

theorem Scope.Walk.awaits_declare {w : Walk} {c : Surroundings} (h : w.Reaches c) {name : Token}
    (ht : w.Takes [name.lexeme]) :
    (w.declare name).Awaits c.class (if c.isGlobal then none else some name.lexeme) := by
  by_cases hs : w.scopes = []
  · have hg := h.global.2 hs
    have : w.declare name = w := by
      simp [declare, innermost?, mark, hs]
    rw [this, hg]
    exact h.awaits
  · have hg : c.isGlobal = false := by
      have := mt h.global.1 hs
      simpa using this
    have hn : w.innermost? name.lexeme = none := (ht hs).2 _ (by simp)
    have hd : w.declare name = w.mark name.lexeme false := by
      unfold declare
      rw [hn]
      rfl
    have hr := h.ready
    have hc := h.class
    rw [hd, hg]
    obtain ⟨scopes, _, _, _, _, _⟩ := w
    cases scopes with
    | nil => exact absurd rfl hs
    | cons scope outer =>
      refine ⟨hc, fun x => ?_⟩
      simp only [mark, innermost?, Bindings.find?_insert]
      by_cases hx : name.lexeme = x
      · simp [hx]
      · have hrx : scope.find? x ≠ some false := hr x
        simp [hx, hrx]

mutual

theorem Stmt.silent_iff {c : Surroundings} : ∀ (s : Stmt) {w : Walk}, w.Reaches c → s.Formed good →
    (w.Silent (s.resolve w) ↔ w.Takes (Stmt.names [s]) ∧ s.Legal c)
  | .expression value, w, h, _ => by
    exact (Expr.silent_iff value h.awaits).trans (and_iff_right (Walk.takes_nil w)).symm
  | .print value, w, h, _ => by
    exact (Expr.silent_iff value h.awaits).trans (and_iff_right (Walk.takes_nil w)).symm
  | .var name initializer, w, h, _ => by
    simp only [Stmt.resolve, Walk.Silent, Walk.errors_define]
    refine (Walk.silent_trans (Walk.grows_of_after (f := fun w => w.declare name)
      (fun w p => Walk.declare_after w p name) w)
      (Expr.grows_resolveOption initializer _)).trans ?_
    rw [Walk.silent_declare]
    exact and_congr_right fun ht => Expr.silentOption_iff initializer (Walk.awaits_declare h ht)
  | .block body, w, h, hf => by
    have hb := Stmt.silentAll_iff body h.openScope hf
    rw [Walk.takes_openScope] at hb
    exact hb.trans (and_iff_right (Walk.takes_nil w)).symm
  | .if condition thenBranch none, w, h, hf => by
    have hc := h.of_place (Expr.place_resolve condition w)
    have ht := Stmt.silent_iff thenBranch hc hf.2.2
    rw [and_iff_right (Walk.takes_branch hf.2.1 _)] at ht
    refine (Walk.silent_trans (Expr.grows_resolve condition w)
      (Stmt.grows_resolve thenBranch _)).trans ?_
    rw [Expr.silent_iff condition h.awaits, ht]
    exact (and_iff_right (Walk.takes_nil w)).symm
  | .if condition thenBranch (some elseBranch), w, h, hf => by
    have hc := h.of_place (Expr.place_resolve condition w)
    have ht := Stmt.silent_iff thenBranch hc hf.2.1.2
    rw [and_iff_right (Walk.takes_branch hf.2.1.1 _)] at ht
    have hp := Stmt.place_resolve_branch hf.2.1.1 (condition.resolve w) hf.2.1.2
    have he := Stmt.silent_iff elseBranch (hc.of_place hp) hf.2.2.2
    rw [and_iff_right (Walk.takes_branch hf.2.2.1 _)] at he
    refine (Walk.silent_trans (Expr.grows_resolve condition w) ((Stmt.grows_resolve thenBranch _).trans
      (Stmt.grows_resolve elseBranch _))).trans ?_
    rw [Walk.silent_trans (Stmt.grows_resolve thenBranch _) (Stmt.grows_resolve elseBranch _),
      Expr.silent_iff condition h.awaits, ht, he]
    exact (and_iff_right (Walk.takes_nil w)).symm
  | .while condition body, w, h, hf => by
    have hc := h.of_place (Expr.place_resolve condition w)
    have hb := Stmt.silent_iff body hc.enterLoop hf.2.2
    rw [and_iff_right (Walk.takes_branch hf.2.1 _)] at hb
    refine (Walk.silent_trans (v := { condition.resolve w with
      loopDepth := (condition.resolve w).loopDepth + 1 }) (Expr.grows_resolve condition w)
      (Stmt.grows_resolve body _)).trans ?_
    rw [hb]
    exact (and_congr_left' (Expr.silent_iff condition h.awaits)).trans
      (and_iff_right (Walk.takes_nil w)).symm
  | .break keyword, w, h, _ => by
    refine (Walk.silent_reportIf w _ keyword .breakOutsideLoop).trans ?_
    rw [beq_eq_false_iff_ne, ← h.loop]
    exact (and_iff_right (Walk.takes_nil w)).symm
  | .function decl, w, h, hf => by
    have hi := (h.define decl.name.lexeme).of_place (Walk.place_introduce_eq_define w decl.name)
    refine (Walk.silent_trans (Walk.grows_introduce w decl.name)
      (FunDecl.grows_resolve .function decl _)).trans ?_
    rw [Walk.silent_introduce, FunDecl.silent_iff .function decl hi hf]
    rfl
  | .return keyword value, w, h, _ => by
    have hg : ∀ (w : Walk) (broken : Bool) (cause : Cause),
        w.Grows (w.reportIf broken keyword cause) := by
      intro w broken cause
      cases broken
      · exact .refl w
      · exact Walk.grows_report w keyword cause
    have hp := (Walk.place_reportIf (w.reportIf (w.functionContext == .none) keyword
      .returnOutsideFunction) (value.isSome && w.functionContext == .initializer) keyword
      .returnValueFromInitializer).trans (Walk.place_reportIf w (w.functionContext == .none) keyword _)
    have hv := Expr.silentOption_iff value (h.of_place hp).awaits
    have hf : (w.reportIf (w.functionContext == .none) keyword
        .returnOutsideFunction).functionContext = w.functionContext := by
      cases w.functionContext == .none <;> rfl
    simp only [Stmt.resolve, hf]
    rw [Walk.silent_trans (hg w _ _) ((hg _ _ _).trans (Expr.grows_resolveOption value _)),
      Walk.silent_trans (hg _ _ _) (Expr.grows_resolveOption value _), hv,
      Walk.silent_reportIf, Walk.silent_reportIf, h.function]
    have hi : (value.isSome && c.function == .initializer) = false ↔
        ¬(value.isSome = true ∧ c.function = .initializer) := by simp
    rw [hi, beq_eq_false_iff_ne]
    exact (and_iff_right (Walk.takes_nil w)).symm
  | .class name superclass methods, w, h, hf => by
    have hn : (Walk.introduce { w with classContext := .class } name).Ready := by
      rw [Walk.Ready, Walk.innermost?_of_place (Walk.place_introduce_eq_define _ name)]
      exact Walk.Ready.define (w := { w with classContext := .class }) h.ready name.lexeme
    have hs := Expr.silentSuperclass_iff name hf.2.1 hn
    have hm := FunDecl.silentAll_iff methods (h.inside name superclass) hf.2.2
    have hg := FunDecl.grows_resolveAll methods ((Expr.resolveSuperclass name superclass
      (Walk.introduce { w with classContext := .class } name)).openScope.define "this")
    simp only [Walk.Silent, Walk.Grows, Walk.errors_define] at hm hg
    have he : ((Stmt.class name superclass methods).resolve w).errors =
        (FunDecl.resolveAll methods ((Expr.resolveSuperclass name superclass
          (Walk.introduce { w with classContext := .class } name)).openScope.define "this")).errors := by
      simp only [Stmt.resolve]
      split <;> rfl
    rw [Walk.Silent, he]
    refine (Walk.silent_trans (u := { w with classContext := .class })
      ((Walk.grows_introduce _ name).trans (Expr.grows_resolveSuperclass name superclass _))
      hg).trans ?_
    rw [Walk.silent_trans (Walk.grows_introduce _ name)
      (Expr.grows_resolveSuperclass name superclass _), Walk.silent_introduce, hs, and_assoc]
    exact and_congr_right' (and_congr_right' hm)

theorem Stmt.silentAll_iff {c : Surroundings} : ∀ (ss : List Stmt) {w : Walk}, w.Reaches c →
    Stmt.FormedAll good ss → (w.Silent (Stmt.resolveAll ss w) ↔ w.Takes (Stmt.names ss) ∧
      Stmt.LegalAll c ss)
  | [], w, _, _ => ⟨fun _ => ⟨Walk.takes_nil w, trivial⟩, fun _ => rfl⟩
  | s :: ss, w, h, hf => by
    have hp := (Stmt.place_resolve s w hf.1).trans (Walk.place_defineAll w (Stmt.names [s])).symm
    have hr := (h.defineAll (Stmt.names [s])).of_place hp
    refine (Walk.silent_trans (Stmt.grows_resolve s w) (Stmt.grows_resolveAll ss _)).trans ?_
    rw [Stmt.silent_iff s h hf.1, Stmt.silentAll_iff ss hr hf.2, Stmt.names_cons s ss,
      Walk.takes_append, Walk.takes_of_place hp]
    exact and_and_and_comm

theorem FunDecl.silent_iff {c : Surroundings} (context : FunctionContext) : ∀ (f : FunDecl)
    {w : Walk}, w.Reaches c → f.Formed good → (w.Silent (f.resolve context w) ↔ f.Legal c context)
  | ⟨_, params, body⟩, w, h, hf => by
    have hp := Walk.place_foldl_introduce_eq_defineAll
      (Walk.openScope { w with functionContext := context, loopDepth := 0 }) params
    have hin := (h.enterFunction context).openScope.defineAll (params.map (·.lexeme))
    have hb := Stmt.silentAll_iff body (hin.of_place hp) hf.2.2
    refine (Walk.silent_trans (u := Walk.openScope { w with functionContext := context, loopDepth := 0 })
      (Walk.grows_of_after (f := fun w => params.foldl Walk.introduce w)
        (fun w p => Walk.foldl_introduce_after w p params) _)
      (Stmt.grows_resolveAll body _)).trans ?_
    rw [Walk.silent_foldl_introduce, hb, Walk.takes_of_place hp, ← and_assoc,
      ← Walk.takes_append, Walk.takes_openScope]
    rfl

theorem FunDecl.silentAll_iff {c : Surroundings} : ∀ (fs : List FunDecl) {w : Walk}, w.Reaches c →
    FunDecl.FormedAll good fs → (w.Silent (FunDecl.resolveAll fs w) ↔ FunDecl.LegalAll c fs)
  | [], _, _, _ => ⟨fun _ => trivial, fun _ => rfl⟩
  | f :: fs, w, h, hf => by
    have hr := h.of_place (FunDecl.place_resolve f.methodContext f w)
    rw [FunDecl.resolveAll, Walk.silent_trans (FunDecl.grows_resolve _ f w)
      (FunDecl.grows_resolveAll fs _),
      FunDecl.silent_iff _ f h hf.1, FunDecl.silentAll_iff fs hr hf.2, FunDecl.LegalAll]

end

/-! ### Programs -/

/-- Outside every function, class, loop and scope. -/
def Surroundings.top : Surroundings := ⟨.none, .none, false, true⟩

theorem Scope.Walk.reaches_start : Walk.start.Reaches .top :=
  ⟨rfl, rfl, by simp [Surroundings.top, start], by simp [Surroundings.top, start],
    by simp [Ready, innermost?, start]⟩

theorem Scope.errors_resolve_eq {program : List Stmt} (hf : Stmt.FormedAll good program) :
    (resolve program).errors = #[] ↔ Stmt.LegalAll .top program :=
  (Stmt.silentAll_iff program Walk.reaches_start hf).trans
    (and_iff_right fun h => absurd rfl h)

end Lox

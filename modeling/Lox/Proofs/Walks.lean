import Lox.Proofs.Formed

/-!
# What a walk keeps

What a walk has found before a tree has no part in what it finds there: the errors and distances of
the tree come after those that were there (`after`), and depend on the scopes and contexts alone. A
tree leaves the contexts as they were, and of the scopes it changes only the innermost one, in which
the names that it declares outside of any scope of its own are ready (`place`).
-/

namespace Lox

namespace Scope.Walk

/-- The walk `w` with what `p` found before it. -/
def after (w p : Walk) : Walk :=
  { w with errors := p.errors ++ w.errors, distances := p.distances ++ w.distances }

/-- The scopes and contexts around the place reached, with nothing found. -/
def place (w : Walk) : Walk := { w with errors := #[], distances := #[] }

theorem place_after (w : Walk) : w.place.after w = w := by simp [after, place]

variable (w p : Walk)

@[simp] theorem report_after (t : Token) (c : Cause) :
    (w.after p).report t c = (w.report t c).after p := by
  simp [after, report]

@[simp] theorem reportIf_after (broken : Bool) (t : Token) (c : Cause) :
    (w.after p).reportIf broken t c = (w.reportIf broken t c).after p := by
  cases broken <;> simp [reportIf]

@[simp] theorem innermost?_after (name : String) :
    (w.after p).innermost? name = w.innermost? name := rfl

@[simp] theorem distance?_after (name : String) :
    (w.after p).distance? name = w.distance? name := rfl

@[simp] theorem note_after (id : NodeId) (name : String) :
    (w.after p).note id name = (w.note id name).after p := by
  unfold note
  rw [distance?_after]
  split <;> simp [after]

@[simp] theorem openScope_after : (w.after p).openScope = w.openScope.after p := rfl

@[simp] theorem closeScope_after : (w.after p).closeScope = w.closeScope.after p := rfl

@[simp] theorem mark_after (name : String) (ready : Bool) :
    (w.after p).mark name ready = (w.mark name ready).after p := by
  obtain ⟨scopes, _, _, _, _, _⟩ := w
  cases scopes <;> rfl

@[simp] theorem define_after (name : String) :
    (w.after p).define name = (w.define name).after p :=
  mark_after w p name true

@[simp] theorem declare_after (name : Token) :
    (w.after p).declare name = (w.declare name).after p := by
  unfold declare
  rw [innermost?_after]
  split <;> simp

@[simp] theorem introduce_after (name : Token) :
    (w.after p).introduce name = (w.introduce name).after p := by
  simp [introduce]

@[simp] theorem foldl_introduce_after (names : List Token) :
    names.foldl introduce (w.after p) = (names.foldl introduce w).after p := by
  induction names generalizing w with
  | nil => rfl
  | cons name names ih =>
    rw [List.foldl_cons, introduce_after, ih]
    rfl

@[simp] theorem functionContext_after : (w.after p).functionContext = w.functionContext := rfl

@[simp] theorem classContext_after : (w.after p).classContext = w.classContext := rfl

@[simp] theorem loopDepth_after : (w.after p).loopDepth = w.loopDepth := rfl

end Scope.Walk

open Scope

/-! ### What was found before -/

mutual

theorem Expr.resolve_after (p : Walk) : ∀ (e : Expr) (w : Walk),
    e.resolve (w.after p) = (e.resolve w).after p
  | .literal _, _ => rfl
  | .grouping inner, w => Expr.resolve_after p inner w
  | .unary _ right, w => Expr.resolve_after p right w
  | .binary left _ right, w => by
    simp only [Expr.resolve, Expr.resolve_after p left, Expr.resolve_after p right]
  | .logical left _ right, w => by
    simp only [Expr.resolve, Expr.resolve_after p left, Expr.resolve_after p right]
  | .variable id name, w => by simp [Expr.resolve]
  | .assign id name value, w => by
    simp only [Expr.resolve, Expr.resolve_after p value, Walk.note_after]
  | .call callee _ arguments, w => by
    simp only [Expr.resolve, Expr.resolve_after p callee, Expr.resolveAll_after p arguments]
  | .get object _, w => Expr.resolve_after p object w
  | .set object _ value, w => by
    simp only [Expr.resolve, Expr.resolve_after p object, Expr.resolve_after p value]
  | .this id keyword, w => by
    simp only [Expr.resolve, Walk.classContext_after]
    split <;> simp
  | .super id keyword _, w => by
    simp only [Expr.resolve, Walk.classContext_after]
    split <;> simp

theorem Expr.resolveAll_after (p : Walk) : ∀ (es : List Expr) (w : Walk),
    Expr.resolveAll es (w.after p) = (Expr.resolveAll es w).after p
  | [], _ => rfl
  | e :: es, w => by
    simp only [Expr.resolveAll, Expr.resolve_after p e, Expr.resolveAll_after p es]

end

theorem Expr.resolveOption_after (p : Walk) (e : Option Expr) (w : Walk) :
    Expr.resolveOption e (w.after p) = (Expr.resolveOption e w).after p := by
  cases e with
  | none => rfl
  | some e => exact Expr.resolve_after p e w

theorem Expr.resolveSuperclass_after (p : Walk) (name : Token) (e : Option Expr) (w : Walk) :
    Expr.resolveSuperclass name e (w.after p) = (Expr.resolveSuperclass name e w).after p := by
  cases e with
  | none => rfl
  | some e =>
    have hc : ∀ w : Walk, { w.after p with classContext := .subclass } =
      { w with classContext := .subclass }.after p := fun _ => rfl
    simp only [Expr.resolveSuperclass]
    split <;> simp only [Walk.reportIf_after, hc, Expr.resolve_after, Walk.openScope_after,
      Walk.define_after]

mutual

theorem Stmt.resolve_after (p : Walk) : ∀ (s : Stmt) (w : Walk),
    s.resolve (w.after p) = (s.resolve w).after p
  | .expression value, w => Expr.resolve_after p value w
  | .print value, w => Expr.resolve_after p value w
  | .var name initializer, w => by
    simp only [Stmt.resolve, Walk.declare_after, Expr.resolveOption_after, Walk.define_after]
  | .block body, w => by
    simp only [Stmt.resolve, Walk.openScope_after, Stmt.resolveAll_after p body,
      Walk.closeScope_after]
  | .if condition thenBranch none, w => by
    simp only [Stmt.resolve, Expr.resolve_after, Stmt.resolve_after p thenBranch]
  | .if condition thenBranch (some elseBranch), w => by
    simp only [Stmt.resolve, Expr.resolve_after, Stmt.resolve_after p thenBranch,
      Stmt.resolve_after p elseBranch]
  | .while condition body, w => by
    have hn : ∀ (w : Walk) (n : Nat), { w.after p with loopDepth := n } =
      { w with loopDepth := n }.after p := fun _ _ => rfl
    simp only [Stmt.resolve, Expr.resolve_after, Walk.loopDepth_after, hn,
      Stmt.resolve_after p body]
  | .break keyword, w => by
    simp only [Stmt.resolve, Walk.loopDepth_after, Walk.reportIf_after]
  | .function decl, w => by
    simp only [Stmt.resolve, Walk.introduce_after, FunDecl.resolve_after p _ decl]
  | .return keyword value, w => by
    simp only [Stmt.resolve, Walk.functionContext_after, Walk.reportIf_after,
      Expr.resolveOption_after]
  | .class name superclass methods, w => by
    have hc : ∀ (w : Walk) (c : ClassContext), { w.after p with classContext := c } =
      { w with classContext := c }.after p := fun _ _ => rfl
    simp only [Stmt.resolve, hc, Walk.introduce_after, Expr.resolveSuperclass_after,
      Walk.openScope_after, Walk.define_after, FunDecl.resolveAll_after p methods,
      Walk.closeScope_after, Walk.classContext_after]
    split <;> rfl

theorem Stmt.resolveAll_after (p : Walk) : ∀ (ss : List Stmt) (w : Walk),
    Stmt.resolveAll ss (w.after p) = (Stmt.resolveAll ss w).after p
  | [], _ => rfl
  | s :: ss, w => by
    simp only [Stmt.resolveAll, Stmt.resolve_after p s, Stmt.resolveAll_after p ss]

theorem FunDecl.resolve_after (p : Walk) (context : FunctionContext) :
    ∀ (f : FunDecl) (w : Walk), f.resolve context (w.after p) = (f.resolve context w).after p
  | ⟨_, params, body⟩, w => by
    have hc : ∀ (w : Walk) (f : FunctionContext) (n : Nat),
      { w.after p with functionContext := f, loopDepth := n } =
        { w with functionContext := f, loopDepth := n }.after p := fun _ _ _ => rfl
    simp only [FunDecl.resolve, hc, Walk.openScope_after, Walk.foldl_introduce_after,
      Stmt.resolveAll_after p body, Walk.closeScope_after, Walk.functionContext_after,
      Walk.loopDepth_after]

theorem FunDecl.resolveAll_after (p : Walk) : ∀ (fs : List FunDecl) (w : Walk),
    FunDecl.resolveAll fs (w.after p) = (FunDecl.resolveAll fs w).after p
  | [], _ => rfl
  | f :: fs, w => by
    simp only [FunDecl.resolveAll, FunDecl.resolve_after p _ f, FunDecl.resolveAll_after p fs]

end

/-! ### The place reached -/

namespace Scope.Walk

variable (w : Walk)

theorem classContext_of_place {v w : Walk} (h : v.place = w.place) :
    v.classContext = w.classContext := by
  have hc : v.place.classContext = w.place.classContext := congrArg Walk.classContext h
  exact hc

theorem scopes_of_place {v w : Walk} (h : v.place = w.place) : v.scopes = w.scopes := by
  have hs : v.place.scopes = w.place.scopes := congrArg Walk.scopes h
  exact hs

@[simp] theorem place_report (t : Token) (c : Cause) : (w.report t c).place = w.place := rfl

@[simp] theorem place_reportIf (broken : Bool) (t : Token) (c : Cause) :
    (w.reportIf broken t c).place = w.place := by
  cases broken <;> rfl

@[simp] theorem place_note (id : NodeId) (name : String) : (w.note id name).place = w.place := by
  unfold note
  split <;> rfl

@[simp] theorem place_openScope : w.openScope.place = w.place.openScope := rfl

@[simp] theorem place_closeScope : w.closeScope.place = w.place.closeScope := rfl

@[simp] theorem place_define (name : String) : (w.define name).place = w.place.define name := by
  obtain ⟨scopes, _, _, _, _, _⟩ := w
  cases scopes <;> rfl

/-- A name that is declared twice is defined all the same. -/
@[simp] theorem place_introduce (name : Token) :
    (w.introduce name).place = w.place.define name.lexeme := by
  unfold introduce declare
  split
  · simp
  · obtain ⟨scopes, _, _, _, _, _⟩ := w
    cases scopes with
    | nil => rfl
    | cons scope outer => simp [place, define, mark, Bindings.insert_insert]

theorem place_introduce_eq_define (name : Token) :
    (w.introduce name).place = (w.define name.lexeme).place := by
  rw [place_introduce, place_define]

/-- The names become ready in the innermost scope. -/
def defineAll (names : List String) : Walk := names.foldl define w

@[simp] theorem defineAll_nil : w.defineAll [] = w := rfl

theorem defineAll_append (xs ys : List String) :
    w.defineAll (xs ++ ys) = (w.defineAll xs).defineAll ys :=
  List.foldl_append

@[simp] theorem place_defineAll (names : List String) :
    (w.defineAll names).place = w.place.defineAll names := by
  induction names generalizing w with
  | nil => rfl
  | cons x xs ih => exact (ih (w.define x)).trans (by rw [place_define]; rfl)

theorem place_foldl_introduce (names : List Token) :
    (names.foldl introduce w).place = w.place.defineAll (names.map (·.lexeme)) := by
  induction names generalizing w with
  | nil => rfl
  | cons name names ih => exact (ih (w.introduce name)).trans (by rw [place_introduce]; rfl)

theorem place_foldl_introduce_eq_defineAll (names : List Token) :
    (names.foldl introduce w).place = (w.defineAll (names.map (·.lexeme))).place := by
  rw [place_foldl_introduce, place_defineAll]

/-- A scope that is closed takes its names with it. -/
@[simp] theorem closeScope_defineAll (names : List String) :
    (w.openScope.defineAll names).closeScope = w := by
  suffices ∀ b : Bindings Bool,
      (Walk.defineAll { w with scopes := b :: w.scopes } names).closeScope = w from this .empty
  induction names with
  | nil => exact fun _ => rfl
  | cons x xs ih => exact fun b => ih (b.insert x true)

end Scope.Walk

/-- The names that a statement declares outside of any scope of its own. A branch and the body of a
loop have no scope, so their declarations count as well. -/
def Stmt.exposed : Stmt → List String
  | .expression _ => []
  | .print _ => []
  | .var name _ => [name.lexeme]
  | .block _ => []
  | .if _ thenBranch none => thenBranch.exposed
  | .if _ thenBranch (some elseBranch) => thenBranch.exposed ++ elseBranch.exposed
  | .while _ body => body.exposed
  | .break _ => []
  | .function decl => [decl.name.lexeme]
  | .return _ _ => []
  | .class name _ _ => [name.lexeme]

/-- The names that the statements of a block declare in its scope. -/
def Stmt.names (ss : List Stmt) : List String :=
  (ss.filterMap Stmt.declared?).map (·.lexeme)

theorem Stmt.names_cons_none {s : Stmt} (h : s.declared? = none) (ss : List Stmt) :
    Stmt.names (s :: ss) = Stmt.names ss := by
  simp [Stmt.names, h]

theorem Stmt.names_branch {s : Stmt} (h : s.declared? = none) : Stmt.names [s] = [] :=
  Stmt.names_cons_none h []

theorem Stmt.defineAll_branch {s : Stmt} (h : s.declared? = none) (w : Walk) :
    w.defineAll (Stmt.names [s]) = w := by
  rw [Stmt.names_branch h, Walk.defineAll_nil]

theorem Stmt.names_cons (s : Stmt) (ss : List Stmt) :
    Stmt.names (s :: ss) = Stmt.names [s] ++ Stmt.names ss := by
  rcases h : s.declared? with _ | name <;> simp [Stmt.names, h]

/-- Where branches and loop bodies declare nothing, a statement exposes its own name alone. -/
theorem Stmt.exposed_of_formed {good : Token → Prop} : ∀ s : Stmt, s.Formed good →
    s.exposed = Stmt.names [s]
  | .expression _, _ => rfl
  | .print _, _ => rfl
  | .var _ _, _ => rfl
  | .block _, _ => rfl
  | .if _ thenBranch none, hf =>
    (Stmt.exposed_of_formed thenBranch hf.2.2).trans (Stmt.names_branch hf.2.1)
  | .if _ thenBranch (some elseBranch), hf => by
    rw [Stmt.exposed, Stmt.exposed_of_formed thenBranch hf.2.1.2, Stmt.names_branch hf.2.1.1,
      Stmt.exposed_of_formed elseBranch hf.2.2.2, Stmt.names_branch hf.2.2.1]
    rfl
  | .while _ body, hf => (Stmt.exposed_of_formed body hf.2.2).trans (Stmt.names_branch hf.2.1)
  | .break _, _ => rfl
  | .function _, _ => rfl
  | .return _ _, _ => rfl
  | .class _ _ _, _ => rfl

mutual

theorem Expr.place_resolve : ∀ (e : Expr) (w : Walk), (e.resolve w).place = w.place
  | .literal _, _ => rfl
  | .grouping inner, w => Expr.place_resolve inner w
  | .unary _ right, w => Expr.place_resolve right w
  | .binary left _ right, w => by
    simp only [Expr.resolve, Expr.place_resolve left, Expr.place_resolve right]
  | .logical left _ right, w => by
    simp only [Expr.resolve, Expr.place_resolve left, Expr.place_resolve right]
  | .variable id name, w => by simp [Expr.resolve]
  | .assign id name value, w => by
    simp only [Expr.resolve, Expr.place_resolve value, Walk.place_note]
  | .call callee _ arguments, w => by
    simp only [Expr.resolve, Expr.place_resolve callee, Expr.place_resolveAll arguments]
  | .get object _, w => Expr.place_resolve object w
  | .set object _ value, w => by
    simp only [Expr.resolve, Expr.place_resolve object, Expr.place_resolve value]
  | .this id keyword, w => by
    simp only [Expr.resolve]
    split <;> simp
  | .super id keyword _, w => by
    simp only [Expr.resolve]
    split <;> simp

theorem Expr.place_resolveAll : ∀ (es : List Expr) (w : Walk),
    (Expr.resolveAll es w).place = w.place
  | [], _ => rfl
  | e :: es, w => by
    simp only [Expr.resolveAll, Expr.place_resolve e, Expr.place_resolveAll es]

end

theorem Expr.place_resolveOption (e : Option Expr) (w : Walk) :
    (Expr.resolveOption e w).place = w.place := by
  cases e with
  | none => rfl
  | some e => exact Expr.place_resolve e w

theorem Expr.place_resolveSuperclass (name : Token) (e : Option Expr) (w : Walk) :
    (Expr.resolveSuperclass name e w).place = match e with
      | none => w.place
      | some _ => { w.place with classContext := .subclass }.openScope.define "super" := by
  cases e with
  | none => rfl
  | some e =>
    have hc : ∀ w : Walk, Walk.place { w with classContext := .subclass } =
      { w.place with classContext := .subclass } := fun _ => rfl
    simp only [Expr.resolveSuperclass]
    split <;> simp only [Walk.place_define, Walk.place_openScope, Expr.place_resolve, hc,
      Walk.place_reportIf]

theorem Scope.Walk.place_functionContext (w : Walk) (f : FunctionContext) (n : Nat) :
    Walk.place { w with functionContext := f, loopDepth := n } =
      { w.place with functionContext := f, loopDepth := n } := rfl

theorem Scope.Walk.defineAll_enterLoop (w : Walk) (names : List String) :
    Walk.defineAll { w with loopDepth := w.loopDepth + 1 } names =
      { w.defineAll names with loopDepth := (w.defineAll names).loopDepth + 1 } := by
  induction names generalizing w with
  | nil => rfl
  | cons x xs ih =>
    have hd : Walk.define { w with loopDepth := w.loopDepth + 1 } x =
        { w.define x with loopDepth := (w.define x).loopDepth + 1 } := by
      obtain ⟨scopes, _, _, _, _, _⟩ := w
      cases scopes <;> rfl
    exact (congrArg (Walk.defineAll · xs) hd).trans (ih (w.define x))

theorem Scope.Walk.place_leaveLoop {b c : Walk}
    (h : b.place = Walk.place { c with loopDepth := c.loopDepth + 1 }) :
    Walk.place { b with loopDepth := b.loopDepth - 1 } = c.place := by
  obtain ⟨_, _, _, _, _, _⟩ := b
  obtain ⟨_, _, _, _, _, _⟩ := c
  simp only [place, mk.injEq] at h ⊢
  simp [h]

theorem Scope.Walk.place_leaveClass {b c : Walk} {k : ClassContext}
    (h : b.place = Walk.place { c with classContext := k }) (old : ClassContext) :
    Walk.place { b with classContext := old } = Walk.place { c with classContext := old } := by
  obtain ⟨_, _, _, _, _, _⟩ := b
  obtain ⟨_, _, _, _, _, _⟩ := c
  simp only [place, mk.injEq] at h ⊢
  simp [h]

mutual

/-- What has a scope of its own closes it again; every other name is ready in the end, also one that
was declared twice. -/
theorem Stmt.place_resolve_exposed : ∀ (s : Stmt) (w : Walk),
    (s.resolve w).place = w.place.defineAll s.exposed
  | .expression value, w => Expr.place_resolve value w
  | .print value, w => Expr.place_resolve value w
  | .var name initializer, w => by
    have h := Walk.place_introduce w name
    rw [Walk.introduce, Walk.place_define] at h
    simp only [Stmt.resolve, Walk.place_define, Expr.place_resolveOption, h]
    rfl
  | .block body, w => by
    simp only [Stmt.resolve, Walk.place_closeScope, Stmt.place_resolveAll body,
      Walk.place_openScope, Walk.closeScope_defineAll]
    rfl
  | .if condition thenBranch none, w => by
    simp only [Stmt.resolve, Stmt.place_resolve_exposed thenBranch, Expr.place_resolve,
      Stmt.exposed]
  | .if condition thenBranch (some elseBranch), w => by
    simp only [Stmt.resolve, Stmt.place_resolve_exposed thenBranch,
      Stmt.place_resolve_exposed elseBranch, Expr.place_resolve, Stmt.exposed,
      Walk.defineAll_append]
  | .while condition body, w => by
    have hb := Stmt.place_resolve_exposed body { condition.resolve w with
      loopDepth := (condition.resolve w).loopDepth + 1 }
    rw [← Walk.place_defineAll, Walk.defineAll_enterLoop] at hb
    have hl := (Walk.place_leaveLoop hb).trans (Walk.place_defineAll _ body.exposed)
    rwa [Expr.place_resolve] at hl
  | .break keyword, w => by
    simp only [Stmt.resolve, Walk.place_reportIf]
    rfl
  | .function decl, w => by
    simp only [Stmt.resolve, FunDecl.place_resolve _ decl, Walk.place_introduce]
    rfl
  | .return keyword value, w => by
    simp only [Stmt.resolve, Expr.place_resolveOption, Walk.place_reportIf]
    rfl
  | .class name superclass methods, w => by
    have hn := Walk.place_introduce { w with classContext := .class } name
    have hm : ∀ v : Walk, ((FunDecl.resolveAll methods (v.openScope.define "this")).closeScope).place =
        v.place := fun v => by
      rw [Walk.place_closeScope, FunDecl.place_resolveAll methods, Walk.place_define,
        Walk.place_openScope]
      exact Walk.closeScope_defineAll v.place ["this"]
    have hw : Walk.place { w.define name.lexeme with classContext := w.classContext } =
        w.place.defineAll [name.lexeme] := by
      obtain ⟨scopes, _, _, _, _, _⟩ := w
      cases scopes <;> rfl
    refine Eq.trans ?_ hw
    cases superclass with
    | none =>
      refine Walk.place_leaveClass (k := .class) ((hm _).trans (hn.trans ?_)) w.classContext
      obtain ⟨scopes, _, _, _, _, _⟩ := w
      cases scopes <;> rfl
    | some e =>
      refine Walk.place_leaveClass (k := .subclass) ?_ w.classContext
      simp only [Option.isSome_some, if_true]
      rw [Walk.place_closeScope, hm, Expr.place_resolveSuperclass, hn]
      refine (Walk.closeScope_defineAll _ ["super"]).trans ?_
      obtain ⟨scopes, _, _, _, _, _⟩ := w
      cases scopes <;> rfl

theorem Stmt.place_resolveAll : ∀ (ss : List Stmt) (w : Walk),
    (Stmt.resolveAll ss w).place = w.place.defineAll (ss.flatMap Stmt.exposed)
  | [], _ => rfl
  | s :: ss, w => by
    rw [Stmt.resolveAll, Stmt.place_resolveAll ss, Stmt.place_resolve_exposed s,
      List.flatMap_cons, Walk.defineAll_append]

theorem FunDecl.place_resolve (context : FunctionContext) : ∀ (f : FunDecl) (w : Walk),
    (f.resolve context w).place = w.place
  | ⟨_, params, body⟩, w => by
    simp only [FunDecl.resolve, Walk.place_functionContext, Walk.place_closeScope,
      Stmt.place_resolveAll body, Walk.place_foldl_introduce, Walk.place_openScope,
      ← Walk.defineAll_append, Walk.closeScope_defineAll]
    rfl

theorem FunDecl.place_resolveAll : ∀ (fs : List FunDecl) (w : Walk),
    (FunDecl.resolveAll fs w).place = w.place
  | [], _ => rfl
  | f :: fs, w => by
    rw [FunDecl.resolveAll, FunDecl.place_resolveAll fs, FunDecl.place_resolve _ f]

end

theorem Stmt.place_resolve {good : Token → Prop} (s : Stmt) (w : Walk) (hf : s.Formed good) :
    (s.resolve w).place = w.place.defineAll (Stmt.names [s]) := by
  rw [Stmt.place_resolve_exposed, Stmt.exposed_of_formed s hf]

theorem Stmt.place_resolve_branch {good : Token → Prop} {s : Stmt} (h : s.declared? = none)
    (w : Walk) (hf : s.Formed good) : (s.resolve w).place = w.place := by
  rw [Stmt.place_resolve s w hf, Stmt.defineAll_branch h]

end Lox

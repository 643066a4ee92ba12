import Lox.Proofs.Formed
import Lox.Proofs.Walks

/-!
# Other node ids and other lines

A tree with other node ids, whose tokens stand on other lines. Ids only tell occurrences apart and
lines are only ever shown, so the same names are declared, and a walk finds the same distances under
the new ids and blames the same tokens.
-/

namespace Lox

/-- Other node ids and other lines for those of a tree. -/
structure Renaming where
  node : NodeId → NodeId
  line : Nat → Nat

/-- One renaming after another. -/
def Renaming.comp (q r : Renaming) : Renaming := ⟨q.node ∘ r.node, q.line ∘ r.line⟩

def Token.relabel (f : Nat → Nat) (t : Token) : Token := { t with line := f t.line }

section

variable (r : Renaming)

mutual

def Expr.rename : Expr → Expr
  | .literal value => .literal value
  | .grouping inner => .grouping inner.rename
  | .unary operator right => .unary (operator.relabel r.line) right.rename
  | .binary left operator right => .binary left.rename (operator.relabel r.line) right.rename
  | .logical left operator right => .logical left.rename (operator.relabel r.line) right.rename
  | .variable id name => .variable (r.node id) (name.relabel r.line)
  | .assign id name value => .assign (r.node id) (name.relabel r.line) value.rename
  | .call callee paren arguments =>
    .call callee.rename (paren.relabel r.line) (Expr.renameAll arguments)
  | .get object name => .get object.rename (name.relabel r.line)
  | .set object name value => .set object.rename (name.relabel r.line) value.rename
  | .this id keyword => .this (r.node id) (keyword.relabel r.line)
  | .super id keyword method =>
    .super (r.node id) (keyword.relabel r.line) (method.relabel r.line)

def Expr.renameAll : List Expr → List Expr
  | [] => []
  | e :: es => e.rename :: Expr.renameAll es

end

mutual

def Stmt.rename : Stmt → Stmt
  | .expression value => .expression (value.rename r)
  | .print value => .print (value.rename r)
  | .var name initializer => .var (name.relabel r.line) (initializer.map (Expr.rename r))
  | .block body => .block (Stmt.renameAll body)
  | .if condition thenBranch none => .if (condition.rename r) thenBranch.rename none
  | .if condition thenBranch (some elseBranch) =>
    .if (condition.rename r) thenBranch.rename (some elseBranch.rename)
  | .while condition body => .while (condition.rename r) body.rename
  | .break keyword => .break (keyword.relabel r.line)
  | .function decl => .function decl.rename
  | .return keyword value => .return (keyword.relabel r.line) (value.map (Expr.rename r))
  | .class name superclass methods =>
    .class (name.relabel r.line) (superclass.map (Expr.rename r)) (FunDecl.renameAll methods)

def Stmt.renameAll : List Stmt → List Stmt
  | [] => []
  | s :: ss => s.rename :: Stmt.renameAll ss

def FunDecl.rename : FunDecl → FunDecl
  | ⟨name, params, body⟩ =>
    ⟨name.relabel r.line, params.map (Token.relabel r.line), Stmt.renameAll body⟩

def FunDecl.renameAll : List FunDecl → List FunDecl
  | [] => []
  | d :: ds => d.rename :: FunDecl.renameAll ds

end

end

variable {q r : Renaming}

@[simp] theorem Token.kind_relabel (f : Nat → Nat) (t : Token) : (t.relabel f).kind = t.kind := rfl

@[simp] theorem Token.lexeme_relabel (f : Nat → Nat) (t : Token) : (t.relabel f).lexeme = t.lexeme := rfl

theorem Expr.renameAll_eq_map (es : List Expr) : Expr.renameAll r es = es.map (Expr.rename r) := by
  induction es with
  | nil => rfl
  | cons e es ih => rw [Expr.renameAll, ih, List.map_cons]

theorem FunDecl.renameAll_eq_map (ds : List FunDecl) :
    FunDecl.renameAll r ds = ds.map (FunDecl.rename r) := by
  induction ds with
  | nil => rfl
  | cons d ds ih => rw [FunDecl.renameAll, ih, List.map_cons]

/-! ### One renaming after another -/

theorem Token.relabel_relabel (t : Token) :
    (t.relabel r.line).relabel q.line = t.relabel (q.comp r).line := rfl

theorem Renaming.node_comp (id : NodeId) : (q.comp r).node id = q.node (r.node id) := rfl

mutual

theorem Expr.rename_rename : ∀ e : Expr, (e.rename r).rename q = e.rename (q.comp r)
  | .literal _ => rfl
  | .grouping inner => by simp only [Expr.rename, Expr.rename_rename inner]
  | .unary _ right => by
    simp only [Expr.rename, Expr.rename_rename right, Token.relabel_relabel]
  | .binary left _ right => by
    simp only [Expr.rename, Expr.rename_rename left, Expr.rename_rename right,
      Token.relabel_relabel]
  | .logical left _ right => by
    simp only [Expr.rename, Expr.rename_rename left, Expr.rename_rename right,
      Token.relabel_relabel]
  | .variable _ _ => rfl
  | .assign _ _ value => by
    simp only [Expr.rename, Expr.rename_rename value, Token.relabel_relabel, Renaming.node_comp]
  | .call callee _ arguments => by
    simp only [Expr.rename, Expr.rename_rename callee, Expr.renameAll_renameAll arguments,
      Token.relabel_relabel]
  | .get object _ => by
    simp only [Expr.rename, Expr.rename_rename object, Token.relabel_relabel]
  | .set object _ value => by
    simp only [Expr.rename, Expr.rename_rename object, Expr.rename_rename value,
      Token.relabel_relabel]
  | .this _ _ => rfl
  | .super _ _ _ => rfl

theorem Expr.renameAll_renameAll : ∀ es : List Expr,
    Expr.renameAll q (Expr.renameAll r es) = Expr.renameAll (q.comp r) es
  | [] => rfl
  | e :: es => by
    simp only [Expr.renameAll, Expr.rename_rename e, Expr.renameAll_renameAll es]

end

theorem Expr.map_rename_rename (e : Option Expr) :
    (e.map (Expr.rename r)).map (Expr.rename q) = e.map (Expr.rename (q.comp r)) := by
  cases e with
  | none => rfl
  | some e => exact congrArg some (Expr.rename_rename e)

mutual

theorem Stmt.rename_rename : ∀ s : Stmt, (s.rename r).rename q = s.rename (q.comp r)
  | .expression _ => by simp only [Stmt.rename, Expr.rename_rename]
  | .print _ => by simp only [Stmt.rename, Expr.rename_rename]
  | .var _ _ => by simp only [Stmt.rename, Expr.map_rename_rename, Token.relabel_relabel]
  | .block body => by simp only [Stmt.rename, Stmt.renameAll_renameAll body]
  | .if _ thenBranch none => by
    simp only [Stmt.rename, Expr.rename_rename, Stmt.rename_rename thenBranch]
  | .if _ thenBranch (some elseBranch) => by
    simp only [Stmt.rename, Expr.rename_rename, Stmt.rename_rename thenBranch,
      Stmt.rename_rename elseBranch]
  | .while _ body => by simp only [Stmt.rename, Expr.rename_rename, Stmt.rename_rename body]
  | .break _ => rfl
  | .function decl => by simp only [Stmt.rename, FunDecl.rename_rename decl]
  | .return _ _ => by simp only [Stmt.rename, Expr.map_rename_rename, Token.relabel_relabel]
  | .class _ _ methods => by
    simp only [Stmt.rename, Expr.map_rename_rename, Token.relabel_relabel,
      FunDecl.renameAll_renameAll methods]

theorem Stmt.renameAll_renameAll : ∀ ss : List Stmt,
    Stmt.renameAll q (Stmt.renameAll r ss) = Stmt.renameAll (q.comp r) ss
  | [] => rfl
  | s :: ss => by
    simp only [Stmt.renameAll, Stmt.rename_rename s, Stmt.renameAll_renameAll ss]

theorem FunDecl.rename_rename : ∀ d : FunDecl, (d.rename r).rename q = d.rename (q.comp r)
  | ⟨_, _, body⟩ => by
    simp only [FunDecl.rename, Stmt.renameAll_renameAll body, List.map_map]
    rfl

theorem FunDecl.renameAll_renameAll : ∀ ds : List FunDecl,
    FunDecl.renameAll q (FunDecl.renameAll r ds) = FunDecl.renameAll (q.comp r) ds
  | [] => rfl
  | d :: ds => by
    simp only [FunDecl.renameAll, FunDecl.rename_rename d, FunDecl.renameAll_renameAll ds]

end

/-! ### Trees that stay as they are -/

/-- The renaming changes none of the ids and no line. -/
structure Renaming.Fixes (r : Renaming) (ids : List NodeId) : Prop where
  node : ∀ id ∈ ids, r.node id = id
  line : r.line = id

theorem Renaming.Fixes.head {r : Renaming} {id : NodeId} {ids : List NodeId}
    (h : r.Fixes (id :: ids)) : r.node id = id :=
  h.node id List.mem_cons_self

theorem Renaming.fixes_append {r : Renaming} {xs ys : List NodeId} :
    r.Fixes (xs ++ ys) ↔ r.Fixes xs ∧ r.Fixes ys := by
  constructor
  · intro h
    exact ⟨⟨fun id hi => h.node id (List.mem_append_left _ hi), h.line⟩,
      ⟨fun id hi => h.node id (List.mem_append_right _ hi), h.line⟩⟩
  · rintro ⟨hx, hy⟩
    exact ⟨fun id hi => (List.mem_append.1 hi).elim (hx.node id) (hy.node id), hx.line⟩

theorem Renaming.Fixes.token {r : Renaming} {ids : List NodeId} (h : r.Fixes ids) (t : Token) :
    t.relabel r.line = t := by
  rw [h.line]
  rfl

mutual

theorem Expr.rename_self : ∀ e : Expr, r.Fixes e.ids → e.rename r = e
  | .literal _, _ => rfl
  | .grouping inner, h => by rw [Expr.rename, Expr.rename_self inner h]
  | .unary _ right, h => by rw [Expr.rename, Expr.rename_self right h, h.token]
  | .binary left _ right, h => by
    obtain ⟨hl, hr⟩ := Renaming.fixes_append.1 h
    rw [Expr.rename, Expr.rename_self left hl, Expr.rename_self right hr, hl.token]
  | .logical left _ right, h => by
    obtain ⟨hl, hr⟩ := Renaming.fixes_append.1 h
    rw [Expr.rename, Expr.rename_self left hl, Expr.rename_self right hr, hl.token]
  | .variable _ _, h => by rw [Expr.rename, h.head, h.token]
  | .assign _ _ value, h => by
    obtain ⟨hv, hi⟩ := Renaming.fixes_append.1 h
    rw [Expr.rename, Expr.rename_self value hv, hi.head, hv.token]
  | .call callee _ arguments, h => by
    obtain ⟨hc, ha⟩ := Renaming.fixes_append.1 h
    rw [Expr.rename, Expr.rename_self callee hc, Expr.renameAll_self arguments ha, hc.token]
  | .get object _, h => by rw [Expr.rename, Expr.rename_self object h, h.token]
  | .set object _ value, h => by
    obtain ⟨ho, hv⟩ := Renaming.fixes_append.1 h
    rw [Expr.rename, Expr.rename_self object ho, Expr.rename_self value hv, ho.token]
  | .this _ _, h => by rw [Expr.rename, h.head, h.token]
  | .super _ _ _, h => by rw [Expr.rename, h.head, h.token, h.token]

theorem Expr.renameAll_self : ∀ es : List Expr, r.Fixes (Expr.idsAll es) →
    Expr.renameAll r es = es
  | [], _ => rfl
  | e :: es, h => by
    obtain ⟨he, hes⟩ := Renaming.fixes_append.1 h
    rw [Expr.renameAll, Expr.rename_self e he, Expr.renameAll_self es hes]

end

theorem Expr.map_rename_self (e : Option Expr) (h : r.Fixes (Expr.idsOption e)) :
    e.map (Expr.rename r) = e := by
  cases e with
  | none => rfl
  | some e => exact congrArg some (Expr.rename_self e h)

mutual

theorem Stmt.rename_self : ∀ s : Stmt, r.Fixes s.ids → s.rename r = s
  | .expression value, h => by rw [Stmt.rename, Expr.rename_self value h]
  | .print value, h => by rw [Stmt.rename, Expr.rename_self value h]
  | .var _ initializer, h => by rw [Stmt.rename, Expr.map_rename_self initializer h, h.token]
  | .block body, h => by rw [Stmt.rename, Stmt.renameAll_self body h]
  | .if condition thenBranch none, h => by
    obtain ⟨hc, ht⟩ := Renaming.fixes_append.1 h
    rw [Stmt.rename, Expr.rename_self condition hc, Stmt.rename_self thenBranch ht]
  | .if condition thenBranch (some elseBranch), h => by
    obtain ⟨hc, hb⟩ := Renaming.fixes_append.1 h
    obtain ⟨ht, he⟩ := Renaming.fixes_append.1 hb
    rw [Stmt.rename, Expr.rename_self condition hc, Stmt.rename_self thenBranch ht,
      Stmt.rename_self elseBranch he]
  | .while condition body, h => by
    obtain ⟨hc, hb⟩ := Renaming.fixes_append.1 h
    rw [Stmt.rename, Expr.rename_self condition hc, Stmt.rename_self body hb]
  | .break _, h => by rw [Stmt.rename, h.token]
  | .function decl, h => by rw [Stmt.rename, FunDecl.rename_self decl h]
  | .return _ value, h => by rw [Stmt.rename, Expr.map_rename_self value h, h.token]
  | .class _ superclass methods, h => by
    obtain ⟨hs, hm⟩ := Renaming.fixes_append.1 h
    rw [Stmt.rename, Expr.map_rename_self superclass hs, FunDecl.renameAll_self methods hm, hs.token]

theorem Stmt.renameAll_self : ∀ ss : List Stmt, r.Fixes (Stmt.idsAll ss) →
    Stmt.renameAll r ss = ss
  | [], _ => rfl
  | s :: ss, h => by
    obtain ⟨hs, hss⟩ := Renaming.fixes_append.1 h
    rw [Stmt.renameAll, Stmt.rename_self s hs, Stmt.renameAll_self ss hss]

theorem FunDecl.rename_self : ∀ d : FunDecl, r.Fixes d.ids → d.rename r = d
  | ⟨_, params, body⟩, h => by
    have hp : params.map (Token.relabel r.line) = params := by
      rw [h.line]
      exact List.map_id params
    rw [FunDecl.rename, Stmt.renameAll_self body h, h.token, hp]

theorem FunDecl.renameAll_self : ∀ ds : List FunDecl, r.Fixes (FunDecl.idsAll ds) →
    FunDecl.renameAll r ds = ds
  | [], _ => rfl
  | d :: ds, h => by
    obtain ⟨hd, hds⟩ := Renaming.fixes_append.1 h
    rw [FunDecl.renameAll, FunDecl.rename_self d hd, FunDecl.renameAll_self ds hds]

end

/-! ### Names -/

@[simp] theorem FunDecl.name_rename (d : FunDecl) : (d.rename r).name = d.name.relabel r.line := by
  cases d
  rfl

@[simp] theorem FunDecl.params_rename (d : FunDecl) :
    (d.rename r).params = d.params.map (Token.relabel r.line) := by
  cases d
  rfl

@[simp] theorem FunDecl.body_rename (d : FunDecl) :
    (d.rename r).body = Stmt.renameAll r d.body := by
  cases d
  rfl

@[simp] theorem FunDecl.isInitializer_rename (d : FunDecl) :
    (d.rename r).isInitializer = d.isInitializer := by
  simp [FunDecl.isInitializer]

@[simp] theorem FunDecl.methodContext_rename (d : FunDecl) :
    (d.rename r).methodContext = d.methodContext := by
  simp [FunDecl.methodContext]

@[simp] theorem FunDecl.arity_rename (d : FunDecl) : (d.rename r).arity = d.arity := by
  simp [FunDecl.arity]

/-! ### Walks -/

open Scope

def Scope.Error.rename (r : Renaming) (e : Scope.Error) : Scope.Error :=
  { e with blamed := e.blamed.relabel r.line }

namespace Scope.Walk

/-- The note under the new id. -/
def renameNote (r : Renaming) (note : NodeId × Nat) : NodeId × Nat := (r.node note.1, note.2)

def rename (r : Renaming) (w : Walk) : Walk :=
  { w with
    errors := w.errors.map (Error.rename r)
    distances := w.distances.map (renameNote r) }

variable (w : Walk)

@[simp] theorem report_rename (t : Token) (c : Cause) :
    (w.rename r).report (t.relabel r.line) c = (w.report t c).rename r := by
  simp [rename, report, Error.rename]

@[simp] theorem reportIf_rename (broken : Bool) (t : Token) (c : Cause) :
    (w.rename r).reportIf broken (t.relabel r.line) c = (w.reportIf broken t c).rename r := by
  cases broken <;> simp [reportIf]

@[simp] theorem innermost?_rename (name : String) :
    (w.rename r).innermost? name = w.innermost? name := rfl

@[simp] theorem note_rename (id : NodeId) (name : String) :
    (w.rename r).note (r.node id) name = (w.note id name).rename r := by
  unfold note
  rw [show (w.rename r).distance? name = w.distance? name from rfl]
  split <;> simp [rename, renameNote]

@[simp] theorem openScope_rename : (w.rename r).openScope = w.openScope.rename r := rfl

@[simp] theorem closeScope_rename : (w.rename r).closeScope = w.closeScope.rename r := rfl

@[simp] theorem mark_rename (name : String) (ready : Bool) :
    (w.rename r).mark name ready = (w.mark name ready).rename r := by
  obtain ⟨scopes, _, _, _, _, _⟩ := w
  cases scopes <;> rfl

@[simp] theorem define_rename (name : String) :
    (w.rename r).define name = (w.define name).rename r :=
  mark_rename w name true

@[simp] theorem declare_rename (name : Token) :
    (w.rename r).declare (name.relabel r.line) = (w.declare name).rename r := by
  unfold declare
  rw [innermost?_rename, Token.lexeme_relabel]
  split <;> simp

@[simp] theorem introduce_rename (name : Token) :
    (w.rename r).introduce (name.relabel r.line) = (w.introduce name).rename r := by
  simp [introduce]

@[simp] theorem foldl_introduce_rename (names : List Token) :
    (names.map (Token.relabel r.line)).foldl introduce (w.rename r) =
      (names.foldl introduce w).rename r := by
  induction names generalizing w with
  | nil => rfl
  | cons name names ih =>
    rw [List.map_cons, List.foldl_cons, introduce_rename, ih]
    rfl

@[simp] theorem rename_start : Walk.start.rename r = Walk.start := by
  simp [rename, start]

@[simp] theorem functionContext_rename : (w.rename r).functionContext = w.functionContext := rfl

@[simp] theorem classContext_rename : (w.rename r).classContext = w.classContext := rfl

@[simp] theorem loopDepth_rename : (w.rename r).loopDepth = w.loopDepth := rfl

end Scope.Walk

mutual

theorem Expr.resolve_rename : ∀ (e : Expr) (w : Walk),
    (e.rename r).resolve (w.rename r) = (e.resolve w).rename r
  | .literal _, _ => rfl
  | .grouping inner, w => Expr.resolve_rename inner w
  | .unary _ right, w => Expr.resolve_rename right w
  | .binary left _ right, w => by
    simp only [Expr.rename, Expr.resolve, Expr.resolve_rename left, Expr.resolve_rename right]
  | .logical left _ right, w => by
    simp only [Expr.rename, Expr.resolve, Expr.resolve_rename left, Expr.resolve_rename right]
  | .variable id name, w => by simp [Expr.rename, Expr.resolve]
  | .assign id name value, w => by
    simp only [Expr.rename, Expr.resolve, Expr.resolve_rename value, Token.lexeme_relabel,
      Walk.note_rename]
  | .call callee _ arguments, w => by
    simp only [Expr.rename, Expr.resolve, Expr.resolve_rename callee,
      Expr.resolveAll_rename arguments]
  | .get object _, w => Expr.resolve_rename object w
  | .set object _ value, w => by
    simp only [Expr.rename, Expr.resolve, Expr.resolve_rename object, Expr.resolve_rename value]
  | .this id keyword, w => by
    simp only [Expr.rename, Expr.resolve, Walk.classContext_rename]
    split <;> simp
  | .super id keyword _, w => by
    simp only [Expr.rename, Expr.resolve, Walk.classContext_rename]
    split <;> simp

theorem Expr.resolveAll_rename : ∀ (es : List Expr) (w : Walk),
    Expr.resolveAll (Expr.renameAll r es) (w.rename r) = (Expr.resolveAll es w).rename r
  | [], _ => rfl
  | e :: es, w => by
    simp only [Expr.renameAll, Expr.resolveAll, Expr.resolve_rename e,
      Expr.resolveAll_rename es]

end

theorem Expr.resolveOption_rename (e : Option Expr) (w : Walk) :
    Expr.resolveOption (e.map (Expr.rename r)) (w.rename r) =
      (Expr.resolveOption e w).rename r := by
  cases e with
  | none => rfl
  | some e => exact Expr.resolve_rename e w

theorem Expr.resolveSuperclass_rename (name : Token) (e : Option Expr) (w : Walk) :
    Expr.resolveSuperclass (name.relabel r.line) (e.map (Expr.rename r)) (w.rename r) =
      (Expr.resolveSuperclass name e w).rename r := by
  cases e with
  | none => rfl
  | some e =>
    have inside : ∀ v u : Walk, v = u.rename r →
        ((e.rename r).resolve { v with classContext := .subclass }).openScope.define "super" =
          ((e.resolve { u with classContext := .subclass }).openScope.define "super").rename r := by
      rintro _ u rfl
      rw [← Walk.define_rename, ← Walk.openScope_rename, ← Expr.resolve_rename]
      rfl
    refine inside _ _ ?_
    cases e <;> simp [Expr.rename]

mutual

theorem Stmt.resolve_rename : ∀ (s : Stmt) (w : Walk),
    (s.rename r).resolve (w.rename r) = (s.resolve w).rename r
  | .expression value, w => Expr.resolve_rename value w
  | .print value, w => Expr.resolve_rename value w
  | .var name initializer, w => by
    simp only [Stmt.rename, Stmt.resolve, Walk.declare_rename, Expr.resolveOption_rename,
      Token.lexeme_relabel, Walk.define_rename]
  | .block body, w => by
    simp only [Stmt.rename, Stmt.resolve, Walk.openScope_rename, Stmt.resolveAll_rename body,
      Walk.closeScope_rename]
  | .if condition thenBranch none, w => by
    simp only [Stmt.rename, Stmt.resolve, Expr.resolve_rename, Stmt.resolve_rename thenBranch]
  | .if condition thenBranch (some elseBranch), w => by
    simp only [Stmt.rename, Stmt.resolve, Expr.resolve_rename, Stmt.resolve_rename thenBranch,
      Stmt.resolve_rename elseBranch]
  | .while condition body, w => by
    have hn : ∀ (w : Walk) (n : Nat), { w.rename r with loopDepth := n } =
      Walk.rename r { w with loopDepth := n } := fun _ _ => rfl
    simp only [Stmt.rename, Stmt.resolve, Expr.resolve_rename, Walk.loopDepth_rename, hn,
      Stmt.resolve_rename body]
  | .break keyword, w => by
    simp only [Stmt.rename, Stmt.resolve, Walk.loopDepth_rename, Walk.reportIf_rename]
  | .function decl, w => by
    simp only [Stmt.rename, Stmt.resolve, FunDecl.name_rename, Walk.introduce_rename,
      FunDecl.resolve_rename _ decl]
  | .return keyword value, w => by
    simp only [Stmt.rename, Stmt.resolve, Walk.functionContext_rename, Walk.reportIf_rename,
      Option.isSome_map, Expr.resolveOption_rename]
  | .class name superclass methods, w => by
    have hc : ∀ (w : Walk) (c : ClassContext), { w.rename r with classContext := c } =
      Walk.rename r { w with classContext := c } := fun _ _ => rfl
    simp only [Stmt.rename, Stmt.resolve, hc, Walk.introduce_rename,
      Expr.resolveSuperclass_rename, Walk.openScope_rename, Walk.define_rename,
      FunDecl.resolveAll_rename methods, Walk.closeScope_rename, Walk.classContext_rename,
      Option.isSome_map]
    split <;> rfl

theorem Stmt.resolveAll_rename : ∀ (ss : List Stmt) (w : Walk),
    Stmt.resolveAll (Stmt.renameAll r ss) (w.rename r) = (Stmt.resolveAll ss w).rename r
  | [], _ => rfl
  | s :: ss, w => by
    simp only [Stmt.renameAll, Stmt.resolveAll, Stmt.resolve_rename s,
      Stmt.resolveAll_rename ss]

theorem FunDecl.resolve_rename (context : FunctionContext) : ∀ (d : FunDecl) (w : Walk),
    (d.rename r).resolve context (w.rename r) = (d.resolve context w).rename r
  | ⟨_, params, body⟩, w => by
    have hc : ∀ (w : Walk) (c : FunctionContext) (n : Nat),
      { w.rename r with functionContext := c, loopDepth := n } =
        Walk.rename r { w with functionContext := c, loopDepth := n } := fun _ _ _ => rfl
    simp only [FunDecl.rename, FunDecl.resolve, hc, Walk.openScope_rename,
      Walk.foldl_introduce_rename, Stmt.resolveAll_rename body, Walk.closeScope_rename,
      Walk.functionContext_rename, Walk.loopDepth_rename]

theorem FunDecl.resolveAll_rename : ∀ (ds : List FunDecl) (w : Walk),
    FunDecl.resolveAll (FunDecl.renameAll r ds) (w.rename r) =
      (FunDecl.resolveAll ds w).rename r
  | [], _ => rfl
  | d :: ds, w => by
    simp only [FunDecl.renameAll, FunDecl.resolveAll, FunDecl.methodContext_rename,
      FunDecl.resolve_rename _ d, FunDecl.resolveAll_rename ds]

end

/-- A program leaves the walk at the top level, outside of every scope. -/
theorem Scope.place_resolve (ss : List Stmt) : (resolve ss).place = Walk.start := by
  have hs : ∀ xs, Walk.start.defineAll xs = Walk.start := by
    intro xs
    induction xs with
    | nil => rfl
    | cons x xs ih => exact ih
  exact (Stmt.place_resolveAll ss .start).trans (hs _)

/-- The second program resolves on its own when it follows another one: the errors and distances of
both stand in order. -/
theorem Scope.resolve_append (ss ts : List Stmt) :
    resolve (ss ++ ts) = (resolve ts).after (resolve ss) := by
  have hs : Walk.start.after (resolve ss) = resolve ss := by
    rw [← place_resolve ss]
    exact Walk.place_after _
  calc resolve (ss ++ ts) = Stmt.resolveAll ts (resolve ss) := Stmt.resolveAll_append ss ts .start
    _ = Stmt.resolveAll ts (Walk.start.after (resolve ss)) := by rw [hs]
    _ = (resolve ts).after (resolve ss) := Stmt.resolveAll_after _ ts .start

theorem Scope.resolve_renameAll (r : Renaming) (ss : List Stmt) :
    resolve (Stmt.renameAll r ss) = (resolve ss).rename r := by
  have h := Stmt.resolveAll_rename (r := r) ss .start
  rwa [Walk.rename_start] at h

theorem Scope.resolveExpression_rename (r : Renaming) (e : Expr) :
    resolveExpression (e.rename r) = (resolveExpression e).rename r := by
  have h := Expr.resolve_rename (r := r) e .start
  rwa [Walk.rename_start] at h

end Lox

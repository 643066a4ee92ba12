import Mathlib.Data.List.Duplicate
import Lox.Proofs.ParsedTrees
import Lox.Proofs.Rules

/-!
# Broken rules

A place in a program is a construct together with all that encloses it, and each static rule says of
a place whether the construct there breaks it. What the walk keeps in mutable context is read off the
enclosures here. A program that was parsed passes exactly when no rule is broken anywhere in it.
-/

namespace Lox

open Scope

/-- What may enclose a place and matters to a rule: the body of a loop, a block, the parameters and
body of a function or method, a class, the initializer of a variable. -/
inductive Enclosure
  | loop
  | block
  | function (decl : FunDecl)
  | method (decl : FunDecl)
  | «class» (superclass : Option Expr)
  | initializer (name : Token)

namespace Enclosure

def isLoop : Enclosure → Bool
  | .loop => true
  | _ => false

def isFunction : Enclosure → Bool
  | .function _ => true
  | .method _ => true
  | _ => false

/-- Declarations inside are not global. -/
def isLocal : Enclosure → Bool
  | .block => true
  | .function _ => true
  | .method _ => true
  | .class _ => true
  | _ => false

/-- The superclass, if there is one, of a class. -/
def class? : Enclosure → Option (Option Expr)
  | .class superclass => some superclass
  | _ => none

end Enclosure

inductive Node
  | expr (e : Expr)
  | stmt (s : Stmt)
  | decl (f : FunDecl)

def Expr.parts : Expr → List Expr
  | .literal _ => []
  | .grouping inner => [inner]
  | .unary _ right => [right]
  | .binary left _ right => [left, right]
  | .logical left _ right => [left, right]
  | .variable _ _ => []
  | .assign _ _ value => [value]
  | .call callee _ arguments => callee :: arguments
  | .get object _ => [object]
  | .set object _ value => [value, object]
  | .this _ _ => []
  | .super _ _ _ => []

/-- The parts of a statement, each with what encloses it there, innermost first. -/
def Stmt.parts : Stmt → List (List Enclosure × Node)
  | .expression value => [([], .expr value)]
  | .print value => [([], .expr value)]
  | .var name initializer => initializer.toList.map fun e => ([.initializer name], .expr e)
  | .block body => body.map fun s => ([.block], .stmt s)
  | .if condition thenBranch elseBranch =>
    ([], .expr condition) :: ([], .stmt thenBranch) ::
      elseBranch.toList.map fun s => ([], .stmt s)
  | .while condition body => [([], .expr condition), ([.loop], .stmt body)]
  | .break _ => []
  | .function decl => [([.function decl], .decl decl)]
  | .return _ value => value.toList.map fun e => ([], .expr e)
  | .class _ superclass methods =>
    (superclass.toList.map fun e => ([], .expr e)) ++
      methods.map fun f => ([.method f, .class superclass], .decl f)

def Node.parts : Node → List (List Enclosure × Node)
  | .expr e => e.parts.map fun e => ([], .expr e)
  | .stmt s => s.parts
  | .decl f => f.body.map fun s => ([], .stmt s)

/-- `Node.Has trail node around part`: inside `node`, which the enclosures `trail` surround, stands
`part`, which `around` surround. -/
inductive Node.Has : List Enclosure → Node → List Enclosure → Node → Prop
  | self (trail : List Enclosure) (node : Node) : Has trail node trail node
  | part {trail around : List Enclosure} {node part : Node} {p : List Enclosure × Node}
      (hp : p ∈ node.parts) (h : Has (p.1 ++ trail) p.2 around part) : Has trail node around part

/-- Somewhere in the program the node stands, inside these enclosures, innermost first. -/
def Occurs (program : List Stmt) (trail : List Enclosure) (node : Node) : Prop :=
  ∃ s ∈ program, Node.Has [] (.stmt s) trail node

/-- The construct at this place breaks a rule. -/
inductive Violation : List Enclosure → Node → Prop
  | breakOutsideLoop {trail : List Enclosure} {keyword : Token}
      (h : ∀ e ∈ trail.takeWhile (!·.isFunction), e.isLoop = false) :
      Violation trail (.stmt (.break keyword))
  | returnOutsideFunction {trail : List Enclosure} {keyword : Token} {value : Option Expr}
      (h : ∀ e ∈ trail, e.isFunction = false) : Violation trail (.stmt (.return keyword value))
  | returnValueFromInitializer {trail : List Enclosure} {keyword : Token} {value : Expr}
      {f : FunDecl} (h : trail.find? Enclosure.isFunction = some (.method f))
      (hf : f.name.lexeme = initializerName) :
      Violation trail (.stmt (.return keyword (some value)))
  | thisOutsideClass {trail : List Enclosure} {id : NodeId} {keyword : Token}
      (h : ∀ e ∈ trail, e.class? = none) : Violation trail (.expr (.this id keyword))
  | superOutsideClass {trail : List Enclosure} {id : NodeId} {keyword method : Token}
      (h : ∀ e ∈ trail, e.class? = none) : Violation trail (.expr (.super id keyword method))
  | superWithoutSuperclass {trail : List Enclosure} {id : NodeId} {keyword method : Token}
      (h : trail.findSome? Enclosure.class? = some none) :
      Violation trail (.expr (.super id keyword method))
  | selfInheritance {trail : List Enclosure} {name parent : Token} {id : NodeId}
      {methods : List FunDecl} (h : parent.lexeme = name.lexeme) :
      Violation trail (.stmt (.class name (some (.variable id parent)) methods))
  | declaredTwiceInBlock {trail : List Enclosure} {body : List Stmt} {x : String}
      (h : List.Duplicate x (Stmt.names body)) : Violation trail (.stmt (.block body))
  | declaredTwiceInFunction {trail : List Enclosure} {f : FunDecl} {x : String}
      (h : List.Duplicate x (f.params.map (·.lexeme) ++ Stmt.names f.body)) :
      Violation trail (.decl f)
  | ownInitializer {outer : List Enclosure} {id : NodeId} {name read : Token}
      (h : ∃ e ∈ outer, e.isLocal = true) (hr : read.lexeme = name.lexeme) :
      Violation (.initializer name :: outer) (.expr (.variable id read))

/-- No rule is broken in the node, inside these enclosures. -/
def Node.Clean (trail : List Enclosure) (node : Node) : Prop :=
  ∀ around part, Node.Has trail node around part → ¬ Violation around part

theorem Node.clean_iff (trail : List Enclosure) (node : Node) :
    node.Clean trail ↔ ¬ Violation trail node ∧ ∀ p ∈ node.parts, Node.Clean (p.1 ++ trail) p.2 := by
  constructor
  · intro h
    exact ⟨h _ _ (.self trail node), fun p hp around part hh => h around part (.part hp hh)⟩
  · rintro ⟨h, hs⟩ around part (_ | ⟨hp, hh⟩)
    · exact h
    · exact hs _ hp around part hh

/-! ### Enclosures as surroundings -/

namespace Surroundings

def functionOf (trail : List Enclosure) : FunctionContext :=
  match trail.find? Enclosure.isFunction with
  | some (.function _) => .function
  | some (.method f) => f.methodContext
  | _ => .none

def classOf (trail : List Enclosure) : ClassContext :=
  match trail.findSome? Enclosure.class? with
  | none => .none
  | some none => .class
  | some (some _) => .subclass

/-- What the rules see of the enclosures. -/
def of (trail : List Enclosure) : Surroundings where
  function := functionOf trail
  «class» := classOf trail
  inLoop := (trail.takeWhile (!·.isFunction)).any Enclosure.isLoop
  isGlobal := trail.all (!·.isLocal)

/-- The local variable whose initializer this is. -/
def pendingOf : List Enclosure → Option String
  | .initializer name :: outer => if outer.all (!·.isLocal) then none else some name.lexeme
  | _ => none

theorem of_nil : of [] = top := rfl

theorem of_block (trail : List Enclosure) :
    of (.block :: trail) = { of trail with isGlobal := false } := rfl

theorem of_loop (trail : List Enclosure) : of (.loop :: trail) = { of trail with inLoop := true } :=
  rfl

theorem of_function (f : FunDecl) (trail : List Enclosure) :
    of (.function f :: trail) = ⟨.function, classOf trail, false, false⟩ := rfl

theorem of_method (f : FunDecl) (superclass : Option Expr) (trail : List Enclosure) :
    of (.method f :: .class superclass :: trail) =
      ⟨f.methodContext, ((of trail).inside superclass).class, false, false⟩ := by
  cases superclass <;> rfl

theorem functionOf_ne_none (trail : List Enclosure) :
    functionOf trail ≠ .none ↔ ∃ e ∈ trail, e.isFunction = true := by
  unfold functionOf
  rcases h : trail.find? Enclosure.isFunction with _ | e
  · simpa using h
  · have hm := List.mem_of_find?_eq_some h
    have he : e.isFunction = true := List.find?_some h
    refine iff_of_true ?_ ⟨e, hm, he⟩
    cases e with
    | function f => simp
    | method f =>
      simp only [FunDecl.methodContext]
      split <;> simp
    | loop => cases he
    | block => cases he
    | «class» superclass => cases he
    | initializer name => cases he

theorem functionOf_eq_initializer (trail : List Enclosure) :
    functionOf trail = .initializer ↔ ∃ f, trail.find? Enclosure.isFunction = some (.method f) ∧
      f.name.lexeme = initializerName := by
  unfold functionOf
  rcases h : trail.find? Enclosure.isFunction with _ | e
  · simp
  · cases e with
    | method f => simp [FunDecl.methodContext, FunDecl.isInitializer]
    | function f => simp
    | loop => simp
    | block => simp
    | «class» superclass => simp
    | initializer name => simp

theorem classOf_eq_none (trail : List Enclosure) :
    classOf trail = .none ↔ ∀ e ∈ trail, e.class? = none := by
  unfold classOf
  rw [← List.findSome?_eq_none_iff]
  rcases trail.findSome? Enclosure.class? with _ | _ | _ <;> simp

theorem classOf_eq_class (trail : List Enclosure) :
    classOf trail = .class ↔ trail.findSome? Enclosure.class? = some none := by
  unfold classOf
  rcases trail.findSome? Enclosure.class? with _ | _ | _ <;> simp

theorem pendingOf_eq_some (trail : List Enclosure) (x : String) :
    pendingOf trail = some x ↔ ∃ name outer, trail = .initializer name :: outer ∧
      (∃ e ∈ outer, e.isLocal = true) ∧ x = name.lexeme := by
  unfold pendingOf
  split
  · next name outer =>
    have hl : outer.all (!·.isLocal) = false ↔ ∃ e ∈ outer, e.isLocal = true := by
      simp [List.all_eq_false]
    simp only [Enclosure.initializer.injEq, List.cons.injEq]
    constructor
    · intro h
      split at h
      · cases h
      · next hg => exact ⟨name, outer, ⟨rfl, rfl⟩, hl.1 (by simpa using hg), by simpa using h.symm⟩
    · rintro ⟨_, _, ⟨rfl, rfl⟩, hg, rfl⟩
      rw [if_neg (by simp [hl.2 hg])]
  · next h =>
    refine iff_of_false (by simp) ?_
    rintro ⟨name, outer, rfl, -⟩
    exact h name outer rfl

end Surroundings

/-! ### Expressions -/

open Surroundings

theorem Expr.clean_iff {trail : List Enclosure} {e : Expr} (h : ¬ Violation trail (.expr e)) :
    Node.Clean trail (.expr e) ↔ ∀ p ∈ e.parts, Node.Clean trail (.expr p) := by
  rw [Node.clean_iff, and_iff_right h]
  simp [Node.parts]

theorem Expr.clean_leaf {trail : List Enclosure} {e : Expr} (he : e.parts = []) :
    Node.Clean trail (.expr e) ↔ ¬ Violation trail (.expr e) := by
  rw [Node.clean_iff]
  simp [Node.parts, he]

mutual

theorem Expr.legal_iff_clean (trail : List Enclosure) : ∀ e : Expr,
    e.Legal (classOf trail) (pendingOf trail) ↔ Node.Clean trail (.expr e)
  | .literal value => iff_of_true trivial ((Expr.clean_leaf rfl).2 (by rintro ⟨⟩))
  | .grouping inner => by
    rw [Expr.clean_iff (by rintro ⟨⟩), Expr.Legal, Expr.legal_iff_clean trail inner]
    simp [Expr.parts]
  | .unary _ right => by
    rw [Expr.clean_iff (by rintro ⟨⟩), Expr.Legal, Expr.legal_iff_clean trail right]
    simp [Expr.parts]
  | .binary left _ right => by
    rw [Expr.clean_iff (by rintro ⟨⟩), Expr.Legal, Expr.legal_iff_clean trail left,
      Expr.legal_iff_clean trail right]
    simp [Expr.parts]
  | .logical left _ right => by
    rw [Expr.clean_iff (by rintro ⟨⟩), Expr.Legal, Expr.legal_iff_clean trail left,
      Expr.legal_iff_clean trail right]
    simp [Expr.parts]
  | .variable id read => by
    rw [Expr.clean_leaf rfl, Expr.Legal, ne_eq, not_iff_not, pendingOf_eq_some]
    constructor
    · rintro ⟨name, outer, rfl, h, hr⟩
      exact .ownInitializer h hr
    · intro h
      cases h with
      | ownInitializer h hr => exact ⟨_, _, rfl, h, hr⟩
  | .assign _ _ value => by
    rw [Expr.clean_iff (by rintro ⟨⟩), Expr.Legal, Expr.legal_iff_clean trail value]
    simp [Expr.parts]
  | .call callee _ arguments => by
    rw [Expr.clean_iff (by rintro ⟨⟩), Expr.Legal, Expr.legal_iff_clean trail callee,
      Expr.legalAll_iff_clean trail arguments]
    simp [Expr.parts]
  | .get object _ => by
    rw [Expr.clean_iff (by rintro ⟨⟩), Expr.Legal, Expr.legal_iff_clean trail object]
    simp [Expr.parts]
  | .set object _ value => by
    rw [Expr.clean_iff (by rintro ⟨⟩), Expr.Legal, Expr.legal_iff_clean trail value,
      Expr.legal_iff_clean trail object]
    simp [Expr.parts]
  | .this id keyword => by
    rw [Expr.clean_leaf rfl, Expr.Legal, ne_eq, not_iff_not, classOf_eq_none]
    exact ⟨.thisOutsideClass, fun | .thisOutsideClass h => h⟩
  | .super id keyword method => by
    have hc : classOf trail = .subclass ↔ ¬(classOf trail = .none ∨ classOf trail = .class) := by
      cases classOf trail <;> simp
    rw [Expr.clean_leaf rfl, Expr.Legal, hc, not_iff_not, classOf_eq_none, classOf_eq_class]
    constructor
    · rintro (h | h)
      · exact .superOutsideClass h
      · exact .superWithoutSuperclass h
    · intro h
      cases h with
      | superOutsideClass h => exact .inl h
      | superWithoutSuperclass h => exact .inr h

theorem Expr.legalAll_iff_clean (trail : List Enclosure) : ∀ es : List Expr,
    Expr.LegalAll (classOf trail) (pendingOf trail) es ↔ ∀ e ∈ es, Node.Clean trail (.expr e)
  | [] => by simp [Expr.LegalAll]
  | e :: es => by
    rw [Expr.LegalAll, Expr.legal_iff_clean trail e, Expr.legalAll_iff_clean trail es]
    simp

end

theorem Expr.legalOption_iff_clean (trail : List Enclosure) (e : Option Expr) :
    Expr.LegalOption (classOf trail) (pendingOf trail) e ↔
      ∀ value ∈ e, Node.Clean trail (.expr value) := by
  cases e with
  | none => simp [Expr.LegalOption]
  | some e => simpa [Expr.LegalOption] using Expr.legal_iff_clean trail e

/-! ### Statements -/

variable {good : Token → Prop}

theorem Stmt.clean_iff {trail : List Enclosure} {s : Stmt} (h : ¬ Violation trail (.stmt s)) :
    Node.Clean trail (.stmt s) ↔ ∀ p ∈ s.parts, Node.Clean (p.1 ++ trail) p.2 := by
  rw [Node.clean_iff, and_iff_right h]
  rfl

theorem Stmt.clean_leaf {trail : List Enclosure} {s : Stmt} (hs : s.parts = []) :
    Node.Clean trail (.stmt s) ↔ ¬ Violation trail (.stmt s) := by
  rw [Node.clean_iff]
  simp [Node.parts, hs]

theorem Stmt.violation_return (trail : List Enclosure) (keyword : Token) (value : Option Expr) :
    Violation trail (.stmt (.return keyword value)) ↔ functionOf trail = .none ∨
      value.isSome = true ∧ functionOf trail = .initializer := by
  have hn : functionOf trail = .none ↔ ∀ e ∈ trail, e.isFunction = false := by
    rw [← not_iff_not, ← ne_eq, functionOf_ne_none]
    simp
  rw [hn, functionOf_eq_initializer]
  constructor
  · intro h
    cases h with
    | returnOutsideFunction h => exact .inl h
    | returnValueFromInitializer h hf => exact .inr ⟨rfl, _, h, hf⟩
  · rintro (h | ⟨hv, f, h, hf⟩)
    · exact .returnOutsideFunction h
    · obtain ⟨value, rfl⟩ := Option.isSome_iff_exists.1 hv
      exact .returnValueFromInitializer h hf

theorem Stmt.violation_class {superclass : Option Expr} (hs : Expr.NamesSuperclass good superclass)
    (trail : List Enclosure) (name : Token) (methods : List FunDecl) :
    Violation trail (.stmt (.class name superclass methods)) ↔
      ¬ Expr.LegalSuperclass name superclass := by
  cases superclass with
  | none => exact iff_of_false (by rintro ⟨⟩) (by simp [Expr.LegalSuperclass])
  | some e =>
    obtain ⟨id, parent, rfl, -⟩ := hs
    simp only [Expr.LegalSuperclass, ne_eq, not_not]
    exact ⟨fun | .selfInheritance h => h, .selfInheritance⟩

/-- A superclass is only read. -/
theorem Expr.clean_superclass {trail : List Enclosure} (ht : pendingOf trail = none)
    {superclass : Option Expr} (hs : Expr.NamesSuperclass good superclass) :
    ∀ e ∈ superclass, Node.Clean trail (.expr e) := by
  rintro _ rfl
  obtain ⟨id, parent, rfl, -⟩ := hs
  rw [← Expr.legal_iff_clean, ht]
  simp [Expr.Legal]

theorem not_nodup_iff {xs : List String} : ¬ xs.Nodup ↔ ∃ x, List.Duplicate x xs :=
  List.exists_duplicate_iff_not_nodup.symm

mutual

theorem Stmt.legal_iff_clean {trail : List Enclosure} (ht : pendingOf trail = none) :
    ∀ s : Stmt, s.Formed good → (s.Legal (of trail) ↔ Node.Clean trail (.stmt s))
  | .expression value, _ => by
    have hv := Expr.legal_iff_clean trail value
    rw [ht] at hv
    rw [Stmt.clean_iff (by rintro ⟨⟩)]
    exact hv.trans (by simp [Stmt.parts])
  | .print value, _ => by
    have hv := Expr.legal_iff_clean trail value
    rw [ht] at hv
    rw [Stmt.clean_iff (by rintro ⟨⟩)]
    exact hv.trans (by simp [Stmt.parts])
  | .var name initializer, _ => by
    rw [Stmt.clean_iff (by rintro ⟨⟩)]
    refine (Expr.legalOption_iff_clean (.initializer name :: trail) initializer).trans ?_
    simp [Stmt.parts]
  | .block body, hf => by
    have ht' : pendingOf (.block :: trail) = none := rfl
    have hb := Stmt.legalAll_iff_clean ht' body hf
    rw [of_block] at hb
    have hv : ¬ Violation trail (.stmt (.block body)) ↔ (Stmt.names body).Nodup := by
      rw [not_iff_comm, not_nodup_iff]
      exact ⟨fun ⟨x, h⟩ => .declaredTwiceInBlock h, fun | .declaredTwiceInBlock h => ⟨_, h⟩⟩
    rw [Node.clean_iff, hv, Stmt.Legal, hb]
    simp [Node.parts, Stmt.parts]
  | .if condition thenBranch none, hf => by
    rw [Stmt.clean_iff (by rintro ⟨⟩), Stmt.Legal, Stmt.legal_iff_clean ht thenBranch hf.2.2]
    have hc := Expr.legal_iff_clean trail condition
    rw [ht] at hc
    simp [Stmt.parts, of, hc]
  | .if condition thenBranch (some elseBranch), hf => by
    rw [Stmt.clean_iff (by rintro ⟨⟩), Stmt.Legal, Stmt.legal_iff_clean ht thenBranch hf.2.1.2,
      Stmt.legal_iff_clean ht elseBranch hf.2.2.2]
    have hc := Expr.legal_iff_clean trail condition
    rw [ht] at hc
    simp [Stmt.parts, of, hc]
  | .while condition body, hf => by
    have ht' : pendingOf (.loop :: trail) = none := rfl
    have hb := Stmt.legal_iff_clean ht' body hf.2.2
    have hc := Expr.legal_iff_clean trail condition
    rw [of_loop] at hb
    rw [ht] at hc
    rw [Stmt.clean_iff (by rintro ⟨⟩), Stmt.Legal, hb]
    simp [Stmt.parts, of, hc]
  | .break keyword, _ => by
    have hl : ¬ (of trail).inLoop = true ↔
        ∀ e ∈ trail.takeWhile (!·.isFunction), e.isLoop = false := by
      simp [of]
    rw [Stmt.clean_leaf rfl, Stmt.Legal, ← not_iff_not, hl, not_not]
    exact ⟨.breakOutsideLoop, fun | .breakOutsideLoop h => h⟩
  | .function decl, hf => by
    have hd := FunDecl.legal_iff_clean (of trail) .function (.function decl :: trail) rfl
      (of_function decl trail) decl hf
    rw [Stmt.clean_iff (by rintro ⟨⟩)]
    exact hd.trans (by simp [Stmt.parts])
  | .return keyword value, _ => by
    have hv := Expr.legalOption_iff_clean trail value
    rw [ht] at hv
    rw [Node.clean_iff, Stmt.violation_return, not_or, Stmt.Legal, ← and_assoc]
    exact and_congr_right' (hv.trans (by simp [Node.parts, Stmt.parts]))
  | .class name superclass methods, hf => by
    have hm := FunDecl.legalAll_iff_clean superclass trail methods hf.2.2
    have hs := Expr.clean_superclass ht hf.2.1
    rw [Node.clean_iff, Stmt.violation_class hf.2.1, not_not, Stmt.Legal, hm]
    refine and_congr_right' ?_
    simp only [Node.parts, Stmt.parts, List.mem_append, List.mem_map, Option.mem_toList]
    constructor
    · rintro h _ (⟨e, he, rfl⟩ | ⟨f, hf, rfl⟩)
      · exact hs e he
      · exact h f hf
    · exact fun h f hf => h _ (.inr ⟨f, hf, rfl⟩)

theorem Stmt.legalAll_iff_clean {trail : List Enclosure} (ht : pendingOf trail = none) :
    ∀ ss : List Stmt, Stmt.FormedAll good ss →
      (Stmt.LegalAll (of trail) ss ↔ ∀ s ∈ ss, Node.Clean trail (.stmt s))
  | [], _ => by simp [Stmt.LegalAll]
  | s :: ss, hf => by
    rw [Stmt.LegalAll, Stmt.legal_iff_clean ht s hf.1, Stmt.legalAll_iff_clean ht ss hf.2]
    simp

theorem FunDecl.legal_iff_clean (c : Surroundings) (context : FunctionContext)
    (trail : List Enclosure) (ht : pendingOf trail = none)
    (hc : of trail = ⟨context, c.class, false, false⟩) :
    ∀ f : FunDecl, f.Formed good → (f.Legal c context ↔ Node.Clean trail (.decl f))
  | ⟨name, params, body⟩, hf => by
    have hb := Stmt.legalAll_iff_clean ht body hf.2.2
    have hv : ¬ Violation trail (.decl ⟨name, params, body⟩) ↔
        (params.map (·.lexeme) ++ Stmt.names body).Nodup := by
      rw [not_iff_comm, not_nodup_iff]
      exact ⟨fun ⟨x, h⟩ => .declaredTwiceInFunction h,
        fun | .declaredTwiceInFunction h => ⟨_, h⟩⟩
    rw [Node.clean_iff, hv, FunDecl.Legal, ← hc, hb]
    simp [Node.parts]

theorem FunDecl.legalAll_iff_clean (superclass : Option Expr) (trail : List Enclosure) :
    ∀ fs : List FunDecl, FunDecl.FormedAll good fs →
      (FunDecl.LegalAll ((of trail).inside superclass) fs ↔
        ∀ f ∈ fs, Node.Clean (.method f :: .class superclass :: trail) (.decl f))
  | [], _ => by simp [FunDecl.LegalAll]
  | f :: fs, hf => by
    rw [FunDecl.LegalAll, FunDecl.legal_iff_clean _ f.methodContext
      (.method f :: .class superclass :: trail) rfl (of_method f superclass trail) f hf.1,
      FunDecl.legalAll_iff_clean superclass trail fs hf.2]
    simp

end

/-! ### Programs -/

/-- A program that was read from tokens, whatever they are, resolves without an error exactly when
no construct anywhere in it breaks a rule. -/
theorem Scope.resolve_accepts_iff {tokens : List Token} {first : Nat} {program : List Stmt}
    (h : (Parser.program tokens first).1 = .ok program) :
    (resolve program).errors = #[] ↔
      ∀ trail node, Occurs program trail node → ¬ Violation trail node := by
  have hgood : ∀ t ∈ tokens, (fun _ => True) t := fun _ _ => trivial
  have hf := ((Parser.program_made first hgood).2 program h).1
  rw [errors_resolve_eq hf, ← of_nil, Stmt.legalAll_iff_clean rfl program hf]
  constructor
  · rintro h trail node ⟨s, hs, ho⟩
    exact h s hs trail node ho
  · exact fun h s hs trail node ho => h trail node ⟨s, hs, ho⟩

/-- A local variable read in its own initializer. -/
theorem Scope.resolve_rejects_ownInitializer :
    ∃ tokens program, (Parser.program tokens 0).1 = .ok program ∧
      ¬ ∀ trail node, Occurs program trail node → ¬ Violation trail node := by
  have hp : (Parser.program [⟨.punct .leftBrace, "\x7b", 1⟩, ⟨.keyword .var, "var", 1⟩,
      ⟨.identifier, "a", 1⟩, ⟨.punct .equal, "=", 1⟩, ⟨.identifier, "a", 2⟩,
      ⟨.punct .semicolon, ";", 2⟩, ⟨.punct .rightBrace, "\x7d", 3⟩] 0).1 =
      .ok [.block [.var ⟨.identifier, "a", 1⟩ (some (.variable ⟨0⟩ ⟨.identifier, "a", 2⟩))]] := by
    rfl
  refine ⟨_, _, hp, fun h => ?_⟩
  have he := (resolve_accepts_iff hp).2 h
  revert he
  decide

end Lox

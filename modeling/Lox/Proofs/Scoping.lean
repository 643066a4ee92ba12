import Lox.Scope.Resolver

/-!
# Scoped trees

A tree is scoped when a table of distances tells of each occurrence of a name how far out its
declaration stands, and nothing for a name that no scope around it declares. A local variable is
not read while it has no value, `this` and `super` are only found where a class binds them, and no
scope declares a name twice.
-/

namespace Lox

/-- The names that each scope around a place has declared so far, innermost scope first, and the
latest name first in each. -/
abbrev Scopes := List (List String)

namespace Scopes

/-- The number of scopes inside the innermost one with the name. -/
def distance? (scopes : Scopes) (name : String) : Option Nat :=
  scopes.findIdx? fun names => decide (name ∈ names)

/-- Global names belong to no scope. -/
def declare (name : String) : Scopes → Scopes
  | [] => []
  | names :: outer => (name :: names) :: outer

def Fresh (name : String) : Scopes → Prop
  | [] => True
  | names :: _ => name ∉ names

/-- The local variable that has no value while its initializer runs. -/
def pending (name : String) : Scopes → Option String
  | [] => none
  | _ :: _ => some name

@[simp] theorem distance?_nil (name : String) : distance? [] name = none := rfl

theorem distance?_cons (names : List String) (outer : Scopes) (name : String) :
    distance? (names :: outer) name =
      if name ∈ names then some 0 else (distance? outer name).map (· + 1) := by
  simp [distance?, List.findIdx?_cons]

end Scopes

/-- A name that a declaration may introduce. -/
def IsName (name : String) : Prop := name ≠ "this" ∧ name ≠ "super"

/-- The variable or function or class that a statement declares in the scope it stands in. -/
def Stmt.declared? : Stmt → Option Token
  | .var name _ => some name
  | .function decl => some decl.name
  | .class name _ _ => some name
  | _ => none

def Stmt.declare (s : Stmt) (scopes : Scopes) : Scopes :=
  match s.declared? with
  | some name => scopes.declare name.lexeme
  | none => scopes

/-- The top level is no scope. -/
@[simp] theorem Stmt.declare_nil (s : Stmt) : s.declare [] = [] := by
  unfold Stmt.declare
  split <;> rfl

/-- The scopes around the methods of a class. -/
def Scopes.ofClass (superclass : Option Expr) (scopes : Scopes) : Scopes :=
  match superclass with
  | none => scopes
  | some _ => ["super"] :: scopes

section

variable (far : NodeId → Option Nat → Prop)

mutual

/-- `pending` is a variable that must not be read. -/
def Expr.Scoped (scopes : Scopes) (pending : Option String) : Expr → Prop
  | .literal _ => True
  | .grouping inner => inner.Scoped scopes pending
  | .unary _ right => right.Scoped scopes pending
  | .binary left _ right => left.Scoped scopes pending ∧ right.Scoped scopes pending
  | .logical left _ right => left.Scoped scopes pending ∧ right.Scoped scopes pending
  | .variable id name =>
    far id (scopes.distance? name.lexeme) ∧ pending ≠ some name.lexeme
  | .assign id name value =>
    value.Scoped scopes pending ∧ far id (scopes.distance? name.lexeme) ∧ IsName name.lexeme
  | .call callee _ arguments =>
    callee.Scoped scopes pending ∧ Expr.ScopedAll scopes pending arguments
  | .get object _ => object.Scoped scopes pending
  | .set object _ value => object.Scoped scopes pending ∧ value.Scoped scopes pending
  | .this id keyword =>
    keyword.lexeme = "this" ∧ (scopes.distance? "this").isSome ∧
      far id (scopes.distance? "this")
  | .super id _ _ => ∃ d, far id (some (d + 1)) ∧ scopes.distance? "super" = some (d + 1) ∧
      scopes.distance? "this" = some d

def Expr.ScopedAll (scopes : Scopes) (pending : Option String) : List Expr → Prop
  | [] => True
  | e :: es => e.Scoped scopes pending ∧ Expr.ScopedAll scopes pending es

end

def Expr.ScopedOption (scopes : Scopes) (pending : Option String) : Option Expr → Prop
  | none => True
  | some e => e.Scoped far scopes pending

mutual

def Stmt.Scoped (scopes : Scopes) : Stmt → Prop
  | .expression value => value.Scoped far scopes none
  | .print value => value.Scoped far scopes none
  | .var name initializer =>
    IsName name.lexeme ∧ scopes.Fresh name.lexeme ∧
      Expr.ScopedOption far (scopes.declare name.lexeme) (scopes.pending name.lexeme)
        initializer
  | .block body => Stmt.ScopedAll ([] :: scopes) body
  | .if condition thenBranch none =>
    condition.Scoped far scopes none ∧ thenBranch.declared? = none ∧ thenBranch.Scoped scopes
  | .if condition thenBranch (some elseBranch) =>
    condition.Scoped far scopes none ∧
      (thenBranch.declared? = none ∧ thenBranch.Scoped scopes) ∧
      elseBranch.declared? = none ∧ elseBranch.Scoped scopes
  | .while condition body =>
    condition.Scoped far scopes none ∧ body.declared? = none ∧ body.Scoped scopes
  | .break _ => True
  | .function decl =>
    IsName decl.name.lexeme ∧ scopes.Fresh decl.name.lexeme ∧
      decl.Scoped (scopes.declare decl.name.lexeme)
  | .return _ value => Expr.ScopedOption far scopes none value
  | .class name superclass methods =>
    IsName name.lexeme ∧ scopes.Fresh name.lexeme ∧
      Expr.ScopedOption far scopes none superclass ∧
      FunDecl.ScopedAll (["this"] :: (scopes.declare name.lexeme).ofClass superclass) methods

/-- Each statement of a block sees what the ones before it declare. -/
def Stmt.ScopedAll (scopes : Scopes) : List Stmt → Prop
  | [] => True
  | s :: ss => s.Scoped scopes ∧ Stmt.ScopedAll (s.declare scopes) ss

/-- The parameters and the body share a scope. -/
def FunDecl.Scoped (scopes : Scopes) : FunDecl → Prop
  | ⟨_, params, body⟩ =>
    (∀ p ∈ params, IsName p.lexeme) ∧ (params.map (·.lexeme)).Nodup ∧
      Stmt.ScopedAll ((params.map (·.lexeme)).reverse :: scopes) body

def FunDecl.ScopedAll (scopes : Scopes) : List FunDecl → Prop
  | [] => True
  | f :: fs => f.Scoped scopes ∧ FunDecl.ScopedAll scopes fs

end

end

theorem FunDecl.scoped_of_mem {far : NodeId → Option Nat → Prop} {scopes : Scopes} :
    ∀ {fs : List FunDecl}, FunDecl.ScopedAll far scopes fs →
      ∀ f ∈ fs, f.Scoped far scopes
  | [], _, _, h => by cases h
  | f :: fs, ⟨h, hs⟩, f', hf => by
    rcases List.mem_cons.1 hf with rfl | hf
    · exact h
    · exact FunDecl.scoped_of_mem hs f' hf

/-! ### Larger tables -/

section

set_option linter.unusedSectionVars false

variable {far far' : NodeId → Option Nat → Prop} (hf : ∀ id d, far id d → far' id d)

include hf

mutual

theorem Expr.Scoped.mono {scopes : Scopes} {pending : Option String} :
    ∀ e : Expr, e.Scoped far scopes pending → e.Scoped far' scopes pending
  | .literal _, _ => trivial
  | .grouping inner, h => Expr.Scoped.mono inner h
  | .unary _ right, h => Expr.Scoped.mono right h
  | .binary left _ right, h => ⟨Expr.Scoped.mono left h.1, Expr.Scoped.mono right h.2⟩
  | .logical left _ right, h => ⟨Expr.Scoped.mono left h.1, Expr.Scoped.mono right h.2⟩
  | .variable _ _, h => ⟨hf _ _ h.1, h.2⟩
  | .assign _ _ value, h => ⟨Expr.Scoped.mono value h.1, hf _ _ h.2.1, h.2.2⟩
  | .call callee _ arguments, h =>
    ⟨Expr.Scoped.mono callee h.1, Expr.ScopedAll.mono arguments h.2⟩
  | .get object _, h => Expr.Scoped.mono object h
  | .set object _ value, h => ⟨Expr.Scoped.mono object h.1, Expr.Scoped.mono value h.2⟩
  | .this _ _, h => ⟨h.1, h.2.1, hf _ _ h.2.2⟩
  | .super _ _ _, ⟨d, h, hs⟩ => ⟨d, hf _ _ h, hs⟩

theorem Expr.ScopedAll.mono {scopes : Scopes} {pending : Option String} :
    ∀ es : List Expr, Expr.ScopedAll far scopes pending es →
      Expr.ScopedAll far' scopes pending es
  | [], _ => trivial
  | e :: es, h => ⟨Expr.Scoped.mono e h.1, Expr.ScopedAll.mono es h.2⟩

end

theorem Expr.ScopedOption.mono {scopes : Scopes} {pending : Option String} :
    ∀ e : Option Expr, Expr.ScopedOption far scopes pending e →
      Expr.ScopedOption far' scopes pending e
  | none, _ => trivial
  | some e, h => Expr.Scoped.mono hf e h

mutual

theorem Stmt.Scoped.mono {scopes : Scopes} : ∀ s : Stmt, s.Scoped far scopes → s.Scoped far' scopes
  | .expression value, h => Expr.Scoped.mono hf value h
  | .print value, h => Expr.Scoped.mono hf value h
  | .var _ initializer, h => ⟨h.1, h.2.1, Expr.ScopedOption.mono hf initializer h.2.2⟩
  | .block body, h => Stmt.ScopedAll.mono body h
  | .if condition thenBranch none, h =>
    ⟨Expr.Scoped.mono hf condition h.1, h.2.1, Stmt.Scoped.mono thenBranch h.2.2⟩
  | .if condition thenBranch (some elseBranch), h =>
    ⟨Expr.Scoped.mono hf condition h.1, ⟨h.2.1.1, Stmt.Scoped.mono thenBranch h.2.1.2⟩,
      h.2.2.1, Stmt.Scoped.mono elseBranch h.2.2.2⟩
  | .while condition body, h =>
    ⟨Expr.Scoped.mono hf condition h.1, h.2.1, Stmt.Scoped.mono body h.2.2⟩
  | .break _, _ => trivial
  | .function decl, h => ⟨h.1, h.2.1, FunDecl.Scoped.mono decl h.2.2⟩
  | .return _ value, h => Expr.ScopedOption.mono hf value h
  | .class _ superclass methods, h =>
    ⟨h.1, h.2.1, Expr.ScopedOption.mono hf superclass h.2.2.1,
      FunDecl.ScopedAll.mono methods h.2.2.2⟩

theorem Stmt.ScopedAll.mono {scopes : Scopes} :
    ∀ ss : List Stmt, Stmt.ScopedAll far scopes ss → Stmt.ScopedAll far' scopes ss
  | [], _ => trivial
  | s :: ss, h => ⟨Stmt.Scoped.mono s h.1, Stmt.ScopedAll.mono ss h.2⟩

theorem FunDecl.Scoped.mono {scopes : Scopes} :
    ∀ f : FunDecl, f.Scoped far scopes → f.Scoped far' scopes
  | ⟨_, _, body⟩, h => ⟨h.1, h.2.1, Stmt.ScopedAll.mono body h.2.2⟩

theorem FunDecl.ScopedAll.mono {scopes : Scopes} :
    ∀ fs : List FunDecl, FunDecl.ScopedAll far scopes fs → FunDecl.ScopedAll far' scopes fs
  | [], _ => trivial
  | f :: fs, h => ⟨FunDecl.Scoped.mono f h.1, FunDecl.ScopedAll.mono fs h.2⟩

end

end

end Lox

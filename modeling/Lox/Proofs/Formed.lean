import Mathlib.Data.List.Nodup
import Mathlib.Order.Nat
import Lox.Proofs.Scoping

/-!
# Formed trees

What the grammar promises of a tree: each name is an identifier, a superclass is named by a variable,
and a branch or a loop body declares nothing in the scope around it. Whatever else is known of all the
tokens that were read is carried along as `good`. The occurrences in a tree have node ids of their own.
-/

namespace Lox

/-! ### The shape of a tree -/

section

variable (good : Token → Prop)

/-- A good token of the kind. -/
def Token.IsGood (kind : Kind) (t : Token) : Prop := t.kind = kind ∧ good t

mutual

def Expr.Formed : Expr → Prop
  | .literal _ => True
  | .grouping inner => inner.Formed
  | .unary _ right => right.Formed
  | .binary left _ right => left.Formed ∧ right.Formed
  | .logical left _ right => left.Formed ∧ right.Formed
  | .variable _ name => name.IsGood good .identifier
  | .assign _ name value => name.IsGood good .identifier ∧ value.Formed
  | .call callee _ arguments => callee.Formed ∧ Expr.FormedAll arguments
  | .get object _ => object.Formed
  | .set object _ value => object.Formed ∧ value.Formed
  | .this _ keyword => keyword.IsGood good (.keyword .this)
  | .super _ keyword _ => keyword.IsGood good (.keyword .super)

def Expr.FormedAll : List Expr → Prop
  | [] => True
  | e :: es => e.Formed ∧ Expr.FormedAll es

end

def Expr.FormedOption : Option Expr → Prop
  | none => True
  | some e => e.Formed good

/-- No superclass, or one named by a variable. -/
def Expr.NamesSuperclass : Option Expr → Prop
  | none => True
  | some e => ∃ id name, e = .variable id name ∧ name.IsGood good .identifier

mutual

def Stmt.Formed : Stmt → Prop
  | .expression value => value.Formed good
  | .print value => value.Formed good
  | .var name initializer => name.IsGood good .identifier ∧ Expr.FormedOption good initializer
  | .block body => Stmt.FormedAll body
  | .if condition thenBranch none =>
    condition.Formed good ∧ thenBranch.declared? = none ∧ thenBranch.Formed
  | .if condition thenBranch (some elseBranch) =>
    condition.Formed good ∧ (thenBranch.declared? = none ∧ thenBranch.Formed) ∧
      elseBranch.declared? = none ∧ elseBranch.Formed
  | .while condition body => condition.Formed good ∧ body.declared? = none ∧ body.Formed
  | .break _ => True
  | .function decl => decl.Formed
  | .return _ value => Expr.FormedOption good value
  | .class name superclass methods =>
    name.IsGood good .identifier ∧ Expr.NamesSuperclass good superclass ∧ FunDecl.FormedAll methods

def Stmt.FormedAll : List Stmt → Prop
  | [] => True
  | s :: ss => s.Formed ∧ Stmt.FormedAll ss

def FunDecl.Formed : FunDecl → Prop
  | ⟨name, params, body⟩ =>
    name.IsGood good .identifier ∧ (∀ p ∈ params, p.IsGood good .identifier) ∧ Stmt.FormedAll body

def FunDecl.FormedAll : List FunDecl → Prop
  | [] => True
  | f :: fs => f.Formed ∧ FunDecl.FormedAll fs

end

end

/-! ### The occurrences in a tree -/

mutual

/-- The ids of the occurrences of variables, `this` and `super`. -/
def Expr.ids : Expr → List NodeId
  | .literal _ => []
  | .grouping inner => inner.ids
  | .unary _ right => right.ids
  | .binary left _ right => left.ids ++ right.ids
  | .logical left _ right => left.ids ++ right.ids
  | .variable id _ => [id]
  | .assign id _ value => value.ids ++ [id]
  | .call callee _ arguments => callee.ids ++ Expr.idsAll arguments
  | .get object _ => object.ids
  | .set object _ value => object.ids ++ value.ids
  | .this id _ => [id]
  | .super id _ _ => [id]

def Expr.idsAll : List Expr → List NodeId
  | [] => []
  | e :: es => e.ids ++ Expr.idsAll es

end

def Expr.idsOption : Option Expr → List NodeId
  | none => []
  | some e => e.ids

mutual

def Stmt.ids : Stmt → List NodeId
  | .expression value => value.ids
  | .print value => value.ids
  | .var _ initializer => Expr.idsOption initializer
  | .block body => Stmt.idsAll body
  | .if condition thenBranch none => condition.ids ++ thenBranch.ids
  | .if condition thenBranch (some elseBranch) =>
    condition.ids ++ (thenBranch.ids ++ elseBranch.ids)
  | .while condition body => condition.ids ++ body.ids
  | .break _ => []
  | .function decl => decl.ids
  | .return _ value => Expr.idsOption value
  | .class _ superclass methods => Expr.idsOption superclass ++ FunDecl.idsAll methods

def Stmt.idsAll : List Stmt → List NodeId
  | [] => []
  | s :: ss => s.ids ++ Stmt.idsAll ss

def FunDecl.ids : FunDecl → List NodeId
  | ⟨_, _, body⟩ => Stmt.idsAll body

def FunDecl.idsAll : List FunDecl → List NodeId
  | [] => []
  | f :: fs => f.ids ++ FunDecl.idsAll fs

end

/-- Ids that were handed out, each once, while the next free one went from `a` to `b`. -/
def Within (a b : Nat) (ids : List NodeId) : Prop :=
  ids.Nodup ∧ ∀ id ∈ ids, a ≤ id.index ∧ id.index < b

namespace Within

variable {a b c d : Nat} {xs ys : List NodeId}

theorem nil (a b : Nat) : Within a b [] := ⟨List.nodup_nil, by simp⟩

theorem single (a : Nat) : Within a (a + 1) [⟨a⟩] := ⟨by simp, by simp⟩

theorem mono (h : Within b c xs) (ha : a ≤ b) (hd : c ≤ d) : Within a d xs :=
  ⟨h.1, fun id hi => ⟨ha.trans (h.2 id hi).1, (h.2 id hi).2.trans_le hd⟩⟩

theorem append (hx : Within a b xs) (hy : Within b c ys) (ha : a ≤ b) (hb : b ≤ c) :
    Within a c (xs ++ ys) := by
  refine ⟨List.nodup_append.2 ⟨hx.1, hy.1, ?_⟩, ?_⟩
  · rintro x hx' y hy' rfl
    exact Nat.not_lt.2 (hy.2 x hy').1 (hx.2 x hx').2
  · intro id hi
    rcases List.mem_append.1 hi with hi | hi
    · exact ⟨(hx.2 id hi).1, (hx.2 id hi).2.trans_le hb⟩
    · exact ⟨ha.trans (hy.2 id hi).1, (hy.2 id hi).2⟩

theorem perm (h : Within a b xs) (hp : xs.Perm ys) : Within a b ys :=
  ⟨hp.nodup_iff.1 h.1, fun id hi => h.2 id (hp.mem_iff.2 hi)⟩

/-- The part that came later may stand in front. -/
theorem append_swap (hx : Within a b xs) (hy : Within b c ys) (ha : a ≤ b) (hb : b ≤ c) :
    Within a c (ys ++ xs) :=
  (hx.append hy ha hb).perm List.perm_append_comm

end Within

/-- A tree that the parser made while the next free id went from `a` to `b`. -/
def Expr.Made (good : Token → Prop) (a b : Nat) (e : Expr) : Prop :=
  e.Formed good ∧ Within a b e.ids

def Stmt.Made (good : Token → Prop) (a b : Nat) (s : Stmt) : Prop :=
  s.Formed good ∧ Within a b s.ids

end Lox

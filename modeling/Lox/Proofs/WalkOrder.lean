import Lox.Proofs.Printing
import Lox.Proofs.Rules
import Lox.Proofs.SyntaxErrors

/-!
# The order of a walk

A walk comes to the tokens of a program one after the other, in the order in which they are
written, with two exceptions: the value that a property is set to comes before the object, and the
increment of a `for` after the body. The broken rules are told in the order of the walk, each
token is blamed at most once, and so they stand in the order of the source wherever neither
exception occurs.
-/

namespace Lox

open Grammar
open Scope (Walk)

/-! ### The order -/

namespace Grammar

/-- A walk that comes to the tokens `ts` comes to them in the order `us`. -/
inductive Walks : List Token → List Token → Prop
  | kept (ts : List Token) : Walks ts ts
  | append {ts ts' us us' : List Token} : Walks ts ts' → Walks us us' →
    Walks (ts ++ us) (ts' ++ us')
  | set {a b c : Nat} {ts ts' us us' : List Token} {dot name equals : Token}
      {object value : Expr} :
    Call a ts object b → dot.kind = .punct .dot → name.kind = .identifier →
    equals.kind = .punct .equal → Expression b us value c → Walks ts ts' → Walks us us' →
    Walks (ts ++ dot :: name :: equals :: us) (us' ++ (ts' ++ [dot, name, equals]))
  | increment {a b c : Nat} {dangles : Bool} {ts ts' us us' : List Token}
      {semicolon closing : Token} {increment : Expr} {body : Stmt} :
    semicolon.kind = .punct .semicolon → Expression a ts increment b →
    closing.kind = .punct .rightParen → Statement true dangles b us body c → Walks ts ts' →
    Walks us us' → Walks (semicolon :: ts ++ closing :: us) (semicolon :: closing :: us' ++ ts')

/-- No property is set among the tokens, and no `for` has an increment. -/
structure Straight (ts : List Token) : Prop where
  set {dot name equals : Token} : [dot, name, equals] <:+: ts → dot.kind = .punct .dot →
    name.kind = .identifier → equals.kind ≠ .punct .equal
  increment {a b : Nat} {semicolon closing : Token} {us : List Token} {e : Expr} :
    semicolon :: us ++ [closing] <:+: ts → semicolon.kind = .punct .semicolon →
    Expression a us e b → closing.kind ≠ .punct .rightParen

theorem Straight.within {ts us : List Token} (h : Straight ts) (hus : us <:+: ts) : Straight us where
  set hi := h.set (hi.trans hus)
  increment hi := h.increment (hi.trans hus)

theorem Straight.of_kinds {ts : List Token} (hd : ∀ t ∈ ts, t.kind ≠ .punct .dot)
    (hp : ∀ t ∈ ts, t.kind ≠ .punct .rightParen) : Straight ts where
  set hi h := absurd h (hd _ (hi.subset (by simp)))
  increment hi _ _ := hp _ (hi.subset (by simp))

namespace Walks

variable {ts us : List Token}

/-- It misses no token and comes to none twice. -/
theorem perm (h : Walks ts us) : ts.Perm us := by
  induction h with
  | kept => exact .refl _
  | append _ _ ih ih' => exact ih.append ih'
  | @set _ _ _ ts ts' us us' dot name equals _ _ _ _ _ _ _ _ _ ih ih' =>
    have hsplit : ts ++ dot :: name :: equals :: us = (ts ++ [dot, name, equals]) ++ us := by simp
    rw [hsplit]
    exact ((ih.append_right _).append ih').trans List.perm_append_comm
  | increment _ _ _ _ _ _ ih ih' =>
    rw [List.cons_append, List.cons_append]
    exact .cons _ ((ih.append (ih'.cons _)).trans List.perm_append_comm)

theorem eq_of_straight (h : Walks ts us) (hs : Straight ts) : us = ts := by
  induction h with
  | kept => rfl
  | append _ _ ih ih' =>
    rw [ih (hs.within (List.infix_append' [] _ _)), ih' (hs.within (List.suffix_append _ _).isInfix)]
  | @set _ _ _ ts _ us _ dot name equals _ _ _ hd hn he =>
    have hi : [dot, name, equals] <:+: ts ++ dot :: name :: equals :: us := ⟨ts, us, by simp⟩
    exact absurd he (hs.set hi hd hn)
  | @increment _ _ _ _ ts _ us _ semicolon closing _ _ hsemi he hc =>
    have hi : semicolon :: ts ++ [closing] <:+: semicolon :: ts ++ closing :: us :=
      ⟨[], us, by simp⟩
    exact absurd hc (hs.increment hi hsemi he)

end Walks

end Grammar

/-! ### Steps of a walk -/

/-- A name that has been introduced is ready. -/
theorem Scope.Walk.innermost?_introduce (w : Walk) (name : Token) :
    (w.introduce name).innermost? name.lexeme ≠ some false := by
  by_cases hs : (w.declare name).scopes = []
  · rw [introduce, define_of_global _ hs]
    simp [innermost?, hs]
  · simp [introduce, innermost?_define _ hs]

/-- Whatever was found before, the step of a walk finds broken rules that blame some of these
tokens, in this order and each at most once. -/
def Scope.Tells (us : List Token) (step : Walk → Walk) : Prop :=
  ∀ w, ∃ found : List Scope.Error, (step w).errors.toList = w.errors.toList ++ found ∧
    (found.map (·.blamed)).Sublist us

/-- The step comes to the tokens `ts` in the order of a walk. -/
def Scope.Follows (ts : List Token) (step : Walk → Walk) : Prop :=
  ∃ us, Walks ts us ∧ Scope.Tells us step

namespace Scope

variable {ts us : List Token} {f g : Walk → Walk}

namespace Tells

theorem silent (ts : List Token) (h : ∀ w, (f w).errors = w.errors) : Tells ts f :=
  fun w => ⟨[], by simp [h w], List.nil_sublist _⟩

theorem mono (h : Tells ts f) (hs : ts.Sublist us) : Tells us f := by
  intro w
  obtain ⟨found, he, hf⟩ := h w
  exact ⟨found, he, hf.trans hs⟩

theorem append (h : Tells ts f) (k : Tells us g) : Tells (ts ++ us) fun w => g (f w) := by
  intro w
  obtain ⟨found, he, hf⟩ := h w
  obtain ⟨found', he', hf'⟩ := k (f w)
  exact ⟨found ++ found', by rw [he', he, List.append_assoc], by simpa using hf.append hf'⟩

theorem congr (h : Tells ts f) (he : ∀ w, (g w).errors = (f w).errors) : Tells ts g := by
  intro w
  rw [he w]
  exact h w

theorem reportIf (broken : Walk → Bool) (t : Token) (cause : Cause) :
    Tells [t] fun w => w.reportIf (broken w) t cause := by
  intro w
  cases hb : broken w with
  | false => exact ⟨[], by simp [Walk.reportIf, hb], List.nil_sublist _⟩
  | true => exact ⟨[⟨t, cause⟩], by simp [Walk.reportIf, hb, Walk.report], List.Sublist.refl _⟩

theorem declare (name : Token) : Tells [name] fun w => w.declare name := by
  refine (reportIf (fun w => (w.innermost? name.lexeme).isSome) name
    (.alreadyDeclared name.lexeme)).congr fun w => ?_
  unfold Walk.declare Walk.reportIf
  split
  · rfl
  · unfold Walk.mark
    split <;> rfl

theorem introduce (name : Token) : Tells [name] fun w => w.introduce name :=
  (declare name).congr fun w => Walk.errors_define (w.declare name) name.lexeme

theorem introduceAll (names : List Token) : Tells names fun w => names.foldl Walk.introduce w := by
  induction names with
  | nil => exact silent [] fun _ => rfl
  | cons name names ih => exact (introduce name).append ih

theorem «variable» (id : NodeId) (name : Token) : Tells [name] (Expr.variable id name).resolve :=
  (reportIf (fun w => w.innermost? name.lexeme == some false) name .ownInitializer).congr
    fun _ => Walk.errors_note _ id name.lexeme

theorem this (id : NodeId) (keyword : Token) : Tells [keyword] (Expr.this id keyword).resolve := by
  refine (reportIf (fun w => w.classContext == .none) keyword .thisOutsideClass).congr fun w => ?_
  simp only [Expr.resolve]
  cases w.classContext <;> simp [Walk.reportIf]

/-- Outside a class and in one without a superclass there are different causes to blame the word. -/
theorem super (id : NodeId) (keyword method : Token) :
    Tells [keyword] (Expr.super id keyword method).resolve := by
  intro w
  simp only [Expr.resolve, Walk.errors_note]
  cases w.classContext with
  | none => exact reportIf (fun _ => true) keyword .superOutsideClass w
  | «class» => exact reportIf (fun _ => true) keyword .superWithoutSuperclass w
  | subclass => exact silent (f := fun w => w) _ (fun _ => rfl) w

theorem errors_resolveSuperclass (name parent : Token) (id : NodeId) (w : Walk) :
    (Expr.resolveSuperclass name (some (.variable id parent)) w).errors =
      ((w.reportIf (parent.lexeme == name.lexeme) parent .selfInheritance).reportIf
        (w.innermost? parent.lexeme == some false) parent .ownInitializer).errors := by
  simp only [Expr.resolveSuperclass, Expr.resolve, Walk.errors_define, Walk.openScope,
    Walk.errors_note]
  cases hp : parent.lexeme == name.lexeme <;>
    cases hi : w.innermost? parent.lexeme == some false <;>
    simp [Walk.reportIf, Walk.report, Walk.innermost?] at hi ⊢ <;> simp [hi]

/-- The name of a class is ready when its superclass is looked up, so that a class that inherits
from itself breaks one rule and not two. -/
theorem superclass (name parent : Token) (id : NodeId) : Tells [name, parent] fun w =>
    Expr.resolveSuperclass name (some (.variable id parent)) (w.introduce name) := by
  by_cases hp : parent.lexeme = name.lexeme
  · refine ((introduce name).append
      (reportIf (fun _ => true) parent .selfInheritance)).congr fun w => ?_
    have hready := Walk.innermost?_introduce w name
    simp [errors_resolveSuperclass, hp, hready, Walk.reportIf]
  · refine ((introduce name).append (reportIf
      (fun w => w.innermost? parent.lexeme == some false) parent .ownInitializer)).congr
        fun w => ?_
    simp [errors_resolveSuperclass, hp, Walk.reportIf]

end Tells

namespace Follows

theorem of_tells (h : Tells ts f) : Follows ts f := ⟨ts, .kept ts, h⟩

theorem silent (ts : List Token) (h : ∀ w, (f w).errors = w.errors) : Follows ts f :=
  .of_tells (.silent ts h)

theorem congr (h : Follows ts f) (he : ∀ w, (g w).errors = (f w).errors) : Follows ts g := by
  obtain ⟨us, hw, ht⟩ := h
  exact ⟨us, hw, ht.congr he⟩

theorem append (h : Follows ts f) (k : Follows us g) : Follows (ts ++ us) fun w => g (f w) := by
  obtain ⟨ts', hw, ht⟩ := h
  obtain ⟨us', hw', ht'⟩ := k
  exact ⟨ts' ++ us', hw.append hw', ht.append ht'⟩

/-- What a step changes before it other than the errors is of no account. -/
theorem «from» (h : Follows ts f) (hg : ∀ w, (g w).errors = w.errors) :
    Follows ts fun w => f (g w) :=
  (silent [] hg).append h

/-- Nothing is said of a token before the others. -/
theorem cons (t : Token) (h : Follows ts f) : Follows (t :: ts) f :=
  (silent (f := id) [t] fun _ => rfl).append h

/-- Nothing is said of tokens behind the others. -/
theorem pad (us : List Token) (h : Follows ts f) : Follows (ts ++ us) f :=
  h.append (g := id) (.silent us fun _ => rfl)

end Follows

end Scope

open Scope

/-! ### Expressions -/

namespace Grammar

mutual

theorem Expression.follows {a b : Nat} {ts : List Token} {e : Expr} :
    Expression a ts e b → Follows ts e.resolve
  | .operation h => h.follows
  | .assign _ _ hv => ((hv.follows.cons _).cons _).congr fun w => Walk.errors_note _ _ _
  | .set ho hd hn he hv => by
    -- The value is walked before the object.
    obtain ⟨ts', hts, ht⟩ := ho.follows
    obtain ⟨us', hus, hu⟩ := hv.follows
    refine ⟨_, .set ho hd hn he hv hts hus, ?_⟩
    exact (hu.append ht).mono ((List.Sublist.refl us').append (List.sublist_append_left ts' _))

theorem Operation.follows {level : Parser.Level} {a b : Nat} {ts : List Token} {e : Expr} :
    Operation level a ts e b → Follows ts e.resolve
  | .operand h => h.follows
  | .logical _ hl _ hr => hl.follows.append (hr.follows.cons _)
  | .binary _ hl _ hr => hl.follows.append (hr.follows.cons _)

theorem Operand.follows {level : Parser.Level} {a b : Nat} {ts : List Token} {e : Expr} :
    Operand level a ts e b → Follows ts e.resolve
  | .and h => h.follows
  | .equality h => h.follows
  | .comparison h => h.follows
  | .term h => h.follows
  | .factor h => h.follows
  | .unary h => h.follows

theorem Unary.follows {a b : Nat} {ts : List Token} {e : Expr} :
    Unary a ts e b → Follows ts e.resolve
  | .operator _ hr => hr.follows.cons _
  | .call h => h.follows

theorem Call.follows {a b : Nat} {ts : List Token} {e : Expr} :
    Call a ts e b → Follows ts e.resolve
  | .primary h => h.follows
  | .arguments hc _ ha _ _ => (hc.follows.append (ha.follows.cons _)).pad _
  | .property ho _ _ => ho.follows.pad _

theorem Arguments.follows {a b : Nat} {ts : List Token} {es : List Expr} :
    Arguments a ts es b → Follows ts (Expr.resolveAll es)
  | .none => .silent [] fun _ => rfl
  | .some h => h.follows

theorem ArgumentList.follows {a b : Nat} {ts : List Token} {es : List Expr} :
    ArgumentList a ts es b → Follows ts (Expr.resolveAll es)
  | .last h => h.follows
  | .more h _ hs => h.follows.append (hs.follows.cons _)

theorem Primary.follows {a b : Nat} {ts : List Token} {e : Expr} :
    Primary a ts e b → Follows ts e.resolve
  | .literal _ => .silent _ fun _ => rfl
  | .this _ => .of_tells (Tells.this _ _)
  | .super _ _ _ => (Follows.of_tells (Tells.super _ _ _)).pad _
  | .variable _ => .of_tells (Tells.variable _ _)
  | .grouping _ hi _ => (hi.follows.cons _).pad _

end

/-! ### Statements -/

theorem OptionalExpression.follows {a b : Nat} {ts : List Token} {e : Option Expr} :
    OptionalExpression a ts e b → Follows ts (Expr.resolveOption e)
  | .none => .silent [] fun _ => rfl
  | .some h => h.follows

theorem ExpressionStatement.follows {a b : Nat} {ts : List Token} {s : Stmt} :
    ExpressionStatement a ts s b → Follows ts s.resolve
  | .mk h _ => h.follows.pad _

theorem Variable.follows {a b : Nat} {ts : List Token} {s : Stmt} :
    Variable a ts s b → Follows ts s.resolve
  | .bare _ _ =>
    ((Follows.of_tells (.declare _)).pad _).congr fun _ => Walk.errors_define _ _
  | .initialized _ _ he _ =>
    (((Follows.of_tells (.declare _)).append (he.follows.cons _)).pad _).congr
      fun _ => Walk.errors_define _ _

theorem Condition.follows {a b : Nat} {ts : List Token} {e : Expr} :
    Condition a ts e b → Follows ts e.resolve
  | .mk _ h _ => (h.follows.cons _).pad _

theorem ParameterList.follows {ts names : List Token} :
    ParameterList ts names → Follows ts fun w => names.foldl Walk.introduce w
  | .last _ => .of_tells (.introduceAll _)
  | .more _ _ h => (Follows.of_tells (.introduce _)).append (h.follows.cons _)

theorem Parameters.follows {ts names : List Token} :
    Parameters ts names → Follows ts fun w => names.foldl Walk.introduce w
  | .none => .silent [] fun _ => rfl
  | .some h => h.follows

theorem Superclass.follows {a b : Nat} {ts : List Token} {superclass : Option Expr}
    (name : Token) (h : Superclass a ts superclass b) :
    Follows (name :: ts) fun w => Expr.resolveSuperclass name superclass (w.introduce name) := by
  cases h with
  | none => exact .of_tells (.introduce name)
  | @some less parent _ _ =>
    exact .of_tells ((Tells.superclass name parent _).mono (.cons_cons name (.cons less (.refl _))))

theorem Stmt.follows_while {ts us : List Token} {condition : Expr} {body : Stmt}
    (hc : Follows ts condition.resolve) (hb : Follows us body.resolve) :
    Follows (ts ++ us) (Stmt.while condition body).resolve := by
  have hinside := hb.from (g := fun w => { w with loopDepth := w.loopDepth + 1 }) fun _ => rfl
  exact (hc.append hinside).congr fun _ => rfl

theorem Stmt.follows_block {ts : List Token} {body : List Stmt}
    (h : Follows ts (Stmt.resolveAll body)) : Follows ts (Stmt.block body).resolve :=
  (h.from (g := Walk.openScope) fun _ => rfl).congr fun _ => rfl

/-- A loop without its initializer: the increment is walked behind the body. -/
theorem follows_loop {b c d e : Nat} {dangles : Bool} {semicolon closing : Token}
    {us vs ws : List Token} {condition increment : Option Expr} {body : Stmt}
    (hc : OptionalExpression b us condition c) (hs : semicolon.kind = .punct .semicolon)
    (hi : OptionalExpression c vs increment d) (hp : closing.kind = .punct .rightParen)
    (hb : Statement true dangles d ws body e) (h : Follows ws body.resolve) :
    Follows (us ++ semicolon :: vs ++ closing :: ws)
      (loop none condition increment body).resolve := by
  have hcond : Follows us (condition.getD (.literal (.bool true))).resolve := by
    cases hc with
    | none => exact .silent [] fun _ => rfl
    | some hc => exact hc.follows
  rw [List.append_assoc]
  cases hi with
  | none => exact Stmt.follows_while hcond ((h.cons _).cons _)
  | some hi =>
    obtain ⟨vs', hvs, hv⟩ := hi.follows
    obtain ⟨ws', hws, hw⟩ := h
    refine Stmt.follows_while hcond (Stmt.follows_block ⟨_, .increment hs hi hp hb hvs hws, ?_⟩)
    have hbehind := (hw.append hv).mono (List.sublist_append_right [semicolon, closing] _)
    exact hbehind

theorem loop_some (s : Stmt) (condition increment : Option Expr) (body : Stmt) :
    loop (some s) condition increment body = .block [s, loop none condition increment body] := by
  cases increment <;> rfl

theorem ForInitializer.follows {a b : Nat} {ts us : List Token} {initializer : Option Stmt}
    {condition increment : Option Expr} {body : Stmt} (h : ForInitializer a ts initializer b)
    (hl : Follows us (loop Option.none condition increment body).resolve) :
    Follows (ts ++ us) (loop initializer condition increment body).resolve := by
  cases h with
  | none => exact hl.cons _
  | var _ hv =>
    rw [loop_some]
    exact Stmt.follows_block ((hv.follows.cons _).append hl)
  | expression he =>
    rw [loop_some]
    exact Stmt.follows_block (he.follows.append hl)

theorem FunDecl.follows {ts us params : List Token} {body : List Stmt} (context : FunctionContext)
    (name : Token) (hp : Follows ts fun w => params.foldl Walk.introduce w)
    (hb : Follows us (Stmt.resolveAll body)) :
    Follows (ts ++ us) (FunDecl.resolve context ⟨name, params, body⟩) := by
  have hinside := (hp.append hb).from
    (g := fun w => Walk.openScope { w with functionContext := context, loopDepth := 0 })
    fun _ => rfl
  exact hinside.congr fun _ => rfl

theorem Stmt.follows_class {name : Token} {ts us : List Token} {superclass : Option Expr}
    {methods : List FunDecl}
    (hs : Follows ts fun w => Expr.resolveSuperclass name superclass (w.introduce name))
    (hm : Follows us (FunDecl.resolveAll methods)) :
    Follows (ts ++ us) (Stmt.class name superclass methods).resolve := by
  have hbefore := hs.from (g := fun w => { w with classContext := .class }) fun _ => rfl
  have hinside := hm.from (g := fun w => w.openScope.define "this") fun w =>
    Walk.errors_define w.openScope "this"
  refine (hbefore.append hinside).congr fun w => ?_
  simp only [Stmt.resolve]
  split <;> rfl

/-- A `return` at the top level is not in an initializer, and breaks one rule at most. -/
theorem Stmt.follows_return {ts : List Token} {value : Option Expr} (keyword : Token)
    (h : Follows ts (Expr.resolveOption value)) :
    Follows (keyword :: ts) (Stmt.return keyword value).resolve := by
  let step (w : Walk) : Walk :=
    let w := w.reportIf (w.functionContext == .none) keyword .returnOutsideFunction
    w.reportIf (value.isSome && w.functionContext == .initializer) keyword
      .returnValueFromInitializer
  have hstep : Tells [keyword] step := by
    intro w
    by_cases hf : w.functionContext = .none
    · simp [step, hf, Walk.reportIf, Walk.report]
    · simpa [step, hf, Walk.reportIf] using
        Tells.reportIf (fun w => value.isSome && w.functionContext == .initializer) keyword
          .returnValueFromInitializer w
  exact (Follows.of_tells hstep).append h

mutual

theorem Declaration.follows {a b : Nat} {ts : List Token} {s : Stmt} :
    Declaration true a ts s b → Follows ts s.resolve
  | .class _ _ hs _ hm _ =>
    (((Stmt.follows_class (Superclass.follows _ hs) (hm.follows.cons _))).pad _).cons _
  | .function _ hf => by
    obtain ⟨us, rfl, hb⟩ := hf.follows .function
    exact ((Follows.of_tells (.introduce _)).append hb).cons _
  | .var _ hv => hv.follows.cons _
  | .statement h => h.follows

theorem Declarations.follows {a b : Nat} {ts : List Token} {ss : List Stmt} :
    Declarations true a ts ss b → Follows ts (Stmt.resolveAll ss)
  | .nil => .silent [] fun _ => rfl
  | .cons h hs => h.follows.append hs.follows

/-- The name of a function is looked at where it is declared, and a method has none of its own. -/
theorem Function.follows {a b : Nat} {ts : List Token} {f : FunDecl} (context : FunctionContext) :
    Function true a ts f b → ∃ us, ts = f.name :: us ∧ Follows us (f.resolve context)
  | .mk _ _ hp _ _ _ hb _ =>
    ⟨_, rfl, (FunDecl.follows context _ (hp.follows.cons _) ((hb.follows.cons _).cons _)).pad _⟩

theorem Functions.follows {a b : Nat} {ts : List Token} {fs : List FunDecl} :
    Functions true a ts fs b → Follows ts (FunDecl.resolveAll fs)
  | .nil => .silent [] fun _ => rfl
  | .cons h hs => by
    obtain ⟨us, rfl, hf⟩ := h.follows _
    exact (hf.cons _).append hs.follows

theorem Statement.follows {dangles : Bool} {a b : Nat} {ts : List Token} {s : Stmt} :
    Statement true dangles a ts s b → Follows ts s.resolve
  | .expression h => h.follows
  | .for _ _ hi hc hs hn hp hb => by
    have hloop := ForInitializer.follows hi (follows_loop hc hs hn hp hb hb.follows)
    simpa using (hloop.cons _).cons _
  | .ifThen _ hc ht => (hc.follows.append ht.follows).cons _
  | .ifElse _ hc ht _ _ he => ((hc.follows.append ht.follows).append (he.follows.cons _)).cons _
  | .while _ hc hb => (Stmt.follows_while hc.follows hb.follows).cons _
  | .block _ hb _ => ((Stmt.follows_block hb.follows).cons _).pad _
  | .print _ hv _ => (hv.follows.cons _).pad _
  | .return _ hv _ => (Stmt.follows_return _ hv.follows).pad _
  | .break _ _ => (Follows.of_tells (Tells.reportIf (fun w => w.loopDepth == 0) _ _)).pad _

end

end Grammar

/-! ### Sources -/

namespace Source

variable {source : String} {first : Nat}

theorem program?_follows {program : List Stmt} (h : (program? source first).1 = .ok program) :
    Follows (Lexer.tokens (Lexer.scan source)) (Stmt.resolveAll program) := by
  obtain ⟨hl, hp⟩ := parsed_of_program? h
  obtain ⟨eof, heof, htokens, hne⟩ := ahead_ne_eof hl
  rw [htokens] at hp ⊢
  have hd := (Parser.program_eq_ok_iff hne heof first program _).1 (Prod.ext hp rfl)
  exact hd.follows.pad [eof]

theorem expression?_follows {e : Expr} (h : (expression? source first).1 = .ok e) :
    Follows (Lexer.tokens (Lexer.scan source)) e.resolve := by
  obtain ⟨hl, he⟩ := expression_of_ok (Prod.ext h rfl)
  obtain ⟨eof, -, htokens, -⟩ := ahead_ne_eof hl
  rw [htokens]
  exact he.follows.pad [eof]

/-- The walk over what a source is parsed to, from the top level. -/
def Walked (source : String) (first : Nat) (walk : Walk) : Prop :=
  (∃ program, (program? source first).1 = .ok program ∧ walk = Scope.resolve program) ∨
    ∃ e, (expression? source first).1 = .ok e ∧ walk = Scope.resolveExpression e

theorem Walked.follows {walk : Walk} (h : Walked source first walk) :
    ∃ us, Walks (Lexer.tokens (Lexer.scan source)) us ∧
      (walk.errors.toList.map (·.blamed)).Sublist us := by
  obtain ⟨step, rfl, us, hw, ht⟩ : ∃ step : Walk → Walk, walk = step .start ∧
      Follows (Lexer.tokens (Lexer.scan source)) step := by
    rcases h with ⟨program, hp, rfl⟩ | ⟨e, he, rfl⟩
    · exact ⟨_, rfl, program?_follows hp⟩
    · exact ⟨_, rfl, expression?_follows he⟩
  obtain ⟨found, he, hf⟩ := ht .start
  have hfound : (step .start).errors.toList = found := by simpa [Walk.start] using he
  exact ⟨us, hw, hfound ▸ hf⟩

/-- The broken rules of a source blame its tokens in the order in which a walk comes to them, each
at most once. Where no property is set and no `for` has an increment, this is the order of the
source, and no error stands on an earlier line than one that is told before it. -/
theorem Walked.errors_in_order {walk : Walk} (h : Walked source first walk) :
    let tokens := Lexer.tokens (Lexer.scan source)
    let blamed := walk.errors.toList.map (·.blamed)
    (∃ walked, Walks tokens walked ∧ blamed.Sublist walked) ∧
      (Straight tokens → blamed.Sublist tokens ∧ blamed.Pairwise (·.line ≤ ·.line)) := by
  intro tokens blamed
  obtain ⟨us, hw, hb⟩ := h.follows
  refine ⟨⟨us, hw, hb⟩, fun hs => ?_⟩
  rw [hw.eq_of_straight hs] at hb
  exact ⟨hb, (Lexer.tokens_lines source).sublist hb⟩

/-- Two lines that each break a rule. -/
theorem Walked.errors_in_order_two_lines :
    let source := "return;\nprint this;"
    let blamed := [⟨.keyword .return, "return", 1⟩, ⟨.keyword .this, "this", 2⟩]
    Straight (Lexer.tokens (Lexer.scan source)) ∧
      (∃ walk, Walked source 0 walk ∧ walk.errors.toList.map (·.blamed) = blamed) ∧
      blamed.Sublist (Lexer.tokens (Lexer.scan source)) := by
  intro source blamed
  have hp : (program? source 0).1 = .ok [.return ⟨.keyword .return, "return", 1⟩ none,
      .print (.this ⟨0⟩ ⟨.keyword .this, "this", 2⟩)] := by cbv
  have hwalked : Walked source 0 (Scope.resolve _) := .inl ⟨_, hp, rfl⟩
  have htokens : Lexer.tokens (Lexer.scan source) = [⟨.keyword .return, "return", 1⟩,
      ⟨.punct .semicolon, ";", 1⟩, ⟨.keyword .print, "print", 2⟩, ⟨.keyword .this, "this", 2⟩,
      ⟨.punct .semicolon, ";", 2⟩, ⟨.eof, "", 2⟩] := by cbv
  have hstraight : Straight (Lexer.tokens (Lexer.scan source)) := by
    rw [htokens]
    exact .of_kinds (by simp) (by simp)
  exact ⟨hstraight, ⟨_, hwalked, rfl⟩, (hwalked.errors_in_order.2 hstraight).1⟩

/-- Tokens that go back to an earlier line are not in the order of the source. -/
theorem not_sublist_of_lines {ts : List Token} (h : ¬ ts.Pairwise (·.line ≤ ·.line)) :
    ¬ ts.Sublist (Lexer.tokens (Lexer.scan source)) :=
  fun hs => h ((Lexer.tokens_lines source).sublist hs)

/-- The value of a property is told before the object, and the body of a `for` before the increment,
though each stands a line further down. -/
theorem errors_out_of_order :
    let this (line : Nat) : Token := ⟨.keyword .this, "this", line⟩
    let set := "this.a\n= this;"
    let loop := "for (;;this)\nthis;"
    ¬ [this 2, this 1].Sublist (Lexer.tokens (Lexer.scan set)) ∧
      ¬ [this 2, this 1].Sublist (Lexer.tokens (Lexer.scan loop)) ∧
      (∃ walk, Walked set 0 walk ∧ walk.errors.toList.map (·.blamed) = [this 2, this 1]) ∧
      ∃ walk, Walked loop 0 walk ∧ walk.errors.toList.map (·.blamed) = [this 2, this 1] := by
  intro this set loop
  have hset : (program? set 0).1 = .ok [.expression (.set (.this ⟨0⟩ (this 1))
      ⟨.identifier, "a", 1⟩ (.this ⟨1⟩ (this 2)))] := by cbv
  have hloop : (program? loop 0).1 = .ok [.while (.literal (.bool true)) (.block
      [.expression (.this ⟨1⟩ (this 2)), .expression (.this ⟨0⟩ (this 1))])] := by cbv
  have hlines : ¬ [this 2, this 1].Pairwise (·.line ≤ ·.line) := by simp [this]
  exact ⟨not_sublist_of_lines hlines, not_sublist_of_lines hlines,
    ⟨_, .inl ⟨_, hset, rfl⟩, rfl⟩, ⟨_, .inl ⟨_, hloop, rfl⟩, rfl⟩⟩

end Source

end Lox

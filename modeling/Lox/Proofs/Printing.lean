import Lox.Proofs.Evolution
import Lox.Proofs.Fuel
import Lox.Proofs.Joining
import Lox.Proofs.Writing

/-!
# Evaluating and printing

A source that is one expression can be evaluated, or run as the statement that prints it. Either way
it is the same tree with tokens on other lines, and an expression leaves no token behind: so both
leave the same machine, but for the line that is printed, and only the line that an error blames is
another.
-/

namespace Lox

open Renaming (ofLines)

/-! ### The two sources -/

/-- The statement that prints the value of a source. -/
def Source.printing (source : String) : String := "print\n" ++ source ++ "\n;"

theorem Source.printing_eq (source : String) :
    printing source = joined "print" (joined source ";") := by
  simp only [printing, joined, String.append_assoc]
  rfl

theorem Grammar.Expression.relabel (f : Nat → Nat) {ts : List Token}
    (hts : ∀ t ∈ ts, t.kind ≠ .eof) {first next : Nat} {e : Expr}
    (h : Expression first ts e next) :
    Expression first (ts.map (Token.relabel f)) (e.rename (ofLines f)) next := by
  let eof : Token := ⟨.eof, "", 0⟩
  have heof : eof.kind = .eof := rfl
  have hmap := Token.relabel_ne_eof f hts
  have htokens := Parser.Shift.ofList_relabel f hts heof
  have hstream := (Parser.Shift.ofLines f).expressionOnly_stream htokens (Nat.zero_le first)
  rw [(Parser.expressionOnly_eq_ok_iff hts heof first e next).2 h] at hstream
  exact (Parser.expressionOnly_eq_ok_iff hmap (show (eof.relabel f).kind = .eof from rfl) first _
    next).1 hstream

namespace Source

/-- The tokens of a source without its end marker. -/
theorem ahead_ne_eof {source : String} (h : Lexer.errors (Lexer.scan source) = []) :
    ∃ eof : Token, eof.kind = .eof ∧ Lexer.tokens (Lexer.scan source) =
        (TokenStream.ofList (Lexer.tokens (Lexer.scan source))).ahead ++ [eof] ∧
      ∀ t ∈ (TokenStream.ofList (Lexer.tokens (Lexer.scan source))).ahead, t.kind ≠ .eof := by
  obtain ⟨body, eof, htokens, hbody, heof, -⟩ := Lexer.scan_joined h ""
  rw [htokens, TokenStream.ahead_ofList hbody heof]
  exact ⟨eof, heof, rfl, hbody⟩

/-- What a source that is one expression is made of. -/
theorem expression_of_ok {source : String} {first next : Nat} {e : Expr}
    (h : expression? source first = (.ok e, next)) :
    Lexer.errors (Lexer.scan source) = [] ∧ Grammar.Expression first
      (TokenStream.ofList (Lexer.tokens (Lexer.scan source))).ahead e next := by
  have hl : Lexer.errors (Lexer.scan source) = [] := by
    by_contra hne
    obtain ⟨error, errors, hl⟩ := List.exists_cons_of_ne_nil hne
    simp [expression?, tokens?, lexicalErrors, hl] at h
  obtain ⟨eof, heof, htokens, hne⟩ := ahead_ne_eof hl
  refine ⟨hl, (Parser.expressionOnly_eq_ok_iff hne heof first e next).1 ?_⟩
  rw [← htokens]
  simp only [expression?, tokens?, lexicalErrors, hl, List.map_nil] at h
  rcases hp : Parser.expressionOnly (Lexer.tokens (Lexer.scan source)) first with
    ⟨error | e', next'⟩
  · rw [hp] at h
    cases h
  · rw [hp] at h
    cases h
    rfl

/-- The expression stands in the statement that prints it, one line further down. -/
theorem program?_printing {source : String} {first next : Nat} {e : Expr}
    (h : expression? source first = (.ok e, next)) :
    program? (printing source) first = (.ok [.print (e.rename (ofLines (· + 1)))], next) := by
  obtain ⟨hl, he⟩ := expression_of_ok h
  obtain ⟨-, -, -, hne⟩ := ahead_ne_eof hl
  have hkeyword : Lexer.errors (Lexer.scan "print") = [] := by cbv
  have hsemicolon : Lexer.errors (Lexer.scan ";") = [] := by cbv
  have hprint : (TokenStream.ofList (Lexer.tokens (Lexer.scan "print"))).ahead =
      [⟨.keyword .print, "print", 1⟩] := by cbv
  have hend : (TokenStream.ofList (Lexer.tokens (Lexer.scan ";"))).ahead =
      [⟨.punct .semicolon, ";", 1⟩] := by cbv
  have hlines : Lexer.newlines "print".toList + 1 = 1 := by cbv
  obtain ⟨hinside, hahead⟩ := Lexer.tokens_joined hl hsemicolon
  obtain ⟨hwhole, htokens⟩ := Lexer.tokens_joined hkeyword hinside
  rw [hprint, hahead, hend, hlines, List.map_append] at htokens
  rw [printing_eq]
  refine program?_eq_ok_iff.2 ⟨hwhole, ?_⟩
  rw [htokens]
  let keyword : Token := ⟨.keyword .print, "print", 1⟩
  let semicolon : Token := ⟨.punct .semicolon, ";", Lexer.newlines source.toList + 3⟩
  have hstatement : Grammar.Declaration true first
      (keyword :: (TokenStream.ofList (Lexer.tokens (Lexer.scan source))).ahead.map
        (Token.relabel (· + 1)) ++ [semicolon]) (.print (e.rename (ofLines (· + 1)))) next :=
    .statement (.print rfl (he.relabel (· + 1) hne) rfl)
  have hprogram := Grammar.Declarations.cons hstatement .nil
  have hline : 1 + (Lexer.newlines source.toList + 1) + 1 = Lexer.newlines source.toList + 3 := by
    omega
  rw [List.append_nil] at hprogram
  simpa [Token.relabel, hline] using hprogram

end Source

/-! ### Other lines -/

/-- The same stop, or the same error on the moved line. -/
inductive Stop.Moved (f : Nat → Nat) : Stop → Stop → Prop
  | same (stop : Stop) : Moved f stop stop
  | line (e : RuntimeError) : Moved f (.error e) (.error { e with line := f e.line })

namespace Exec

variable {α β : Type} {f : Nat → Nat} {act other : Exec α}

/-- The other step does the same, but it may blame a moved line. -/
def Moves (f : Nat → Nat) (act other : Exec α) : Prop := ∀ m,
  (∃ a m', act m = .ok a m' ∧ other m = .ok a m') ∨
    ∃ stop stop' m', act m = .error stop m' ∧ other m = .error stop' m' ∧ stop.Moved f stop'

namespace Moves

theorem refl (act : Exec α) : act.Moves f act := by
  intro m
  rcases h : act m with ⟨a, m'⟩ | ⟨stop, m'⟩
  · exact .inl ⟨a, m', rfl, rfl⟩
  · exact .inr ⟨stop, stop, m', rfl, rfl, .same stop⟩

theorem bind {g h : α → Exec β} (ha : act.Moves f other) (hg : ∀ a, (g a).Moves f (h a)) :
    (act >>= g).Moves f (other >>= h) := by
  intro m
  simp only [Bind.bind, EStateM.bind]
  rcases ha m with ⟨a, m', hm, hm'⟩ | ⟨stop, stop', m', hm, hm', hs⟩
  · rw [hm, hm']
    exact hg a m'
  · rw [hm, hm']
    exact .inr ⟨stop, stop', m', rfl, rfl, hs⟩

theorem fail (blamed : Token) (cause : RuntimeError.Cause) :
    (Exec.fail blamed cause : Exec α).Moves f (Exec.fail (blamed.relabel f) cause) :=
  fun m => .inr ⟨_, _, m, rfl, rfl, .line _⟩

theorem ofResult (operator : Token) (result : Except RuntimeError.Cause Value) :
    (Exec.ofResult operator result).Moves f (Exec.ofResult (operator.relabel f) result) := by
  cases result with
  | ok v => exact .refl _
  | error cause => exact .fail operator cause

theorem getFrom (e : FrameId) (name : Token) :
    (Exec.getFrom e name).Moves f (Exec.getFrom e (name.relabel f)) := by
  refine (refl _).bind fun found => ?_
  cases found with
  | some v => exact .refl _
  | none => exact .fail name _

theorem assignFrom (e : FrameId) (name : Token) (v : Value) :
    (Exec.assignFrom e name v).Moves f (Exec.assignFrom e (name.relabel f) v) := by
  intro m
  simp only [Exec.assignFrom, Token.lexeme_relabel]
  cases m.heap.holder? e name.lexeme with
  | some p => exact .inl ⟨_, _, rfl, rfl⟩
  | none => exact .inr ⟨_, _, _, rfl, rfl, .line _⟩

theorem read (id : NodeId) (name : Token) :
    (Exec.read id name).Moves f (Exec.read id (name.relabel f)) := by
  refine (refl _).bind fun d => ?_
  cases d with
  | some d => exact .refl _
  | none => exact .getFrom _ name

theorem assign (id : NodeId) (name : Token) (v : Value) :
    (Exec.assign id name v).Moves f (Exec.assign id (name.relabel f) v) := by
  refine (refl _).bind fun d => ?_
  cases d with
  | some d => exact .refl _
  | none => exact .assignFrom _ name v

theorem getProperty (o : InstanceId) (name : Token) :
    (Exec.getProperty o name).Moves f (Exec.getProperty o (name.relabel f)) := by
  refine (refl _).bind fun field => ?_
  cases field with
  | some v => exact .refl _
  | none =>
    refine (refl _).bind fun method => ?_
    cases method with
    | some g => exact .refl _
    | none => exact .fail name _

theorem getSuper (id : NodeId) (keyword method : Token) :
    (Exec.getSuper id keyword method).Moves f
      (Exec.getSuper id (keyword.relabel f) (method.relabel f)) := by
  refine (refl _).bind fun d => ?_
  rcases d with _ | d
  · exact .fail keyword _
  refine (refl _).bind fun parent => ?_
  rcases d with _ | inner
  · exact .refl _
  refine (refl _).bind fun receiver => ?_
  split
  · next c o =>
    refine (refl _).bind fun found => ?_
    cases found with
    | some g => exact .refl _
    | none => exact .fail method _
  · exact .fail keyword _

/-- The token that a call is blamed on matters only when the call itself fails. -/
theorem call (n : Nat) (v : Value) (paren : Token) (arguments : List Value) :
    (v.call n paren arguments).Moves f (v.call n (paren.relabel f) arguments) := by
  cases n with
  | zero => exact .refl _
  | succ n =>
    cases v with
    | native id =>
      refine (refl _).bind fun native => (refl _).bind fun time => (refl _).bind fun answer => ?_
      cases answer with
      | ok answer => exact .refl _
      | error message => exact .fail paren _
    | function g => exact .refl _
    | «class» c => exact .refl _
    | _ => exact .fail paren _

end Moves

end Exec

open Exec (Moves)

theorem Exec.Moves.evalAll {f : Nat → Nat} {n : Nat}
    (h : ∀ e : Expr, (e.eval n).Moves f ((e.rename (ofLines f)).eval n)) (es : List Expr) :
    (es.mapM (Expr.eval n)).Moves f ((Expr.renameAll (ofLines f) es).mapM (Expr.eval n)) := by
  induction es with
  | nil => exact .refl _
  | cons e es ih =>
    rw [Expr.renameAll, List.mapM_cons, List.mapM_cons]
    exact (h e).bind fun v => ih.bind fun vs => .refl _

/-- An expression does the same on other lines: what it calls stands where it stood. -/
theorem Expr.moves_eval (f : Nat → Nat) (n : Nat) (e : Expr) :
    (e.eval n).Moves f ((e.rename (ofLines f)).eval n) := by
  -- On the fuel and not on the tree: every step down the tree spends one unit.
  induction n generalizing e with
  | zero => exact .refl _
  | succ n ih =>
    cases e with
    | literal value => exact .refl _
    | grouping inner => exact ih inner
    | unary operator right => exact (ih right).bind fun v => .ofResult operator _
    | binary left operator right =>
      exact (ih left).bind fun v => (ih right).bind fun w => .ofResult operator _
    | logical left operator right =>
      refine (ih left).bind fun v => ?_
      change Moves f (if shortCircuits operator.kind v then pure v else right.eval n)
        (if shortCircuits operator.kind v then pure v else (right.rename (ofLines f)).eval n)
      split
      · exact .refl _
      · exact ih right
    | «variable» id name => exact .read id name
    | assign id name value =>
      exact (ih value).bind fun v => (Moves.assign id name v).bind fun _ => .refl _
    | call callee paren arguments =>
      refine (ih callee).bind fun g => (Moves.evalAll ih arguments).bind fun vs =>
        (Moves.refl _).bind fun arity => ?_
      cases arity with
      | none => exact .fail paren _
      | some arity =>
        dsimp only
        split
        · exact .call n g paren vs
        · exact .fail paren _
    | get object name =>
      refine (ih object).bind fun v => ?_
      cases v with
      | «instance» o => exact .getProperty o name
      | _ => exact .fail name _
    | set object name value =>
      refine (ih object).bind fun v => ?_
      cases v with
      | «instance» o => exact (ih value).bind fun v => .refl _
      | _ => exact .fail name _
    | this id keyword => exact .read id keyword
    | super id keyword method => exact .getSuper id keyword method

/-! ### One statement -/

section

variable {n : Nat} {value : Expr} {m m' : Machine}

theorem interpret_print_ok {v : Value} (hv : value.eval n m = .ok v m')
    (hroom : m'.sink.hasRoom = true) :
    interpret (n + 1) [.print value] m =
      .ok () { m' with sink := m'.sink.push (m'.heap.display v) } := by
  have hexec : (Stmt.print value).exec (n + 1) m =
      .ok .normal { m' with sink := m'.sink.push (m'.heap.display v) } := by
    simp only [Stmt.exec, Bind.bind, EStateM.bind, hv, Exec.inspect, Exec.print, hroom, if_true]
    rfl
  change (((Stmt.print value).exec (n + 1) >>= fun _ => pure ()) >>= fun _ => pure ()) m = _
  simp only [Bind.bind, EStateM.bind, hexec]
  rfl

theorem interpret_print_error {stop : Stop} (hv : value.eval n m = .error stop m') :
    interpret (n + 1) [.print value] m = .error stop m' := by
  have hexec : (Stmt.print value).exec (n + 1) m = .error stop m' := by
    simp only [Stmt.exec, Bind.bind, EStateM.bind, hv]
  change (((Stmt.print value).exec (n + 1) >>= fun _ => pure ()) >>= fun _ => pure ()) m = _
  simp only [Bind.bind, EStateM.bind, hexec]

end

/-! ### Sessions -/

namespace Session

variable {s : Session}

/-- The session with one more line printed. -/
def print (s : Session) (line : String) : Session :=
  { s with machine := { s.machine with sink := s.machine.sink.push line } }

theorem resolve_print {e : Expr} (he : (Scope.resolveExpression e).errors = #[]) (f : Nat → Nat) :
    (Scope.resolve [.print (e.rename (ofLines f))]).errors = #[] ∧
      (Scope.resolve [.print (e.rename (ofLines f))]).distances =
        (Scope.resolveExpression e).distances := by
  have hwalk : Scope.resolve [.print (e.rename (ofLines f))] =
      (Scope.resolveExpression e).rename (ofLines f) := Scope.resolveExpression_rename _ e
  rw [hwalk]
  exact ⟨Scope.Walk.silent_rename.2 he, Scope.Walk.distances_ofLines f _⟩

/-- A source that is evaluated at all is an expression without static errors. -/
theorem evaluated {fuel : Nat} {source : String}
    (h : ∀ failure, (s.evaluate fuel source).1 = .error failure → failure.isStatic = false) :
    ∃ e next, Source.expression? source s.nextId = (.ok e, next) ∧
      (Scope.resolveExpression e).errors = #[] ∧
      s.evaluate fuel source =
        perform ⟨s.machine.noteAll (Scope.resolveExpression e).distances, next⟩ (e.eval fuel) := by
  rcases hp : Source.expression? source s.nextId with ⟨failure | e, next⟩
  · have hstatic := Source.expression?_static (congrArg Prod.fst hp)
    have hf := h failure (by rw [evaluate_of_failure (congrArg Prod.fst hp)])
    rw [hstatic] at hf
    cases hf
  · have hevaluate : s.evaluate fuel source = _ := evaluate_of_expression (congrArg Prod.fst hp)
    by_cases he : (Scope.resolveExpression e).errors = #[]
    · rw [resolved_of_silent he, hp] at hevaluate
      exact ⟨e, next, rfl, he, hevaluate⟩
    · rw [resolved_of_errors he] at hevaluate
      cases h _ (congrArg Prod.fst hevaluate)

/-- The statement that prints an expression does what the expression does, and then prints. -/
theorem run_printing (hs : s.machine.sink.limit = none) {source : String} {e : Expr} {next : Nat}
    (hp : Source.expression? source s.nextId = (.ok e, next))
    (he : (Scope.resolveExpression e).errors = #[]) (fuel : Nat) :
    let first : Session := ⟨s.machine.noteAll (Scope.resolveExpression e).distances, next⟩
    let evaluated := first.perform (e.eval fuel)
    let run := s.run (fuel + 1) (Source.printing source)
    (∀ v, evaluated.1 = .ok v →
      run = (.ok (), evaluated.2.print (evaluated.2.machine.heap.display v))) ∧
    ∀ stop, evaluated.1 = .error (.stopped stop) → ∃ stop', stop.Moved (· + 1) stop' ∧
      run = (.error (.stopped stop'), evaluated.2) := by
  intro first evaluated run
  obtain ⟨hsilent, hdistances⟩ := resolve_print he (· + 1)
  have hrun : run = perform first (interpret (fuel + 1) [.print (e.rename (ofLines (· + 1)))]) := by
    have haccepted : run = _ := run_of_accepted (Source.program?_printing hp) hsilent
    rwa [hdistances] at haccepted
  have hlimit := ((evolving fuel).eval e first.machine).limit_eq
  rcases Expr.moves_eval (· + 1) fuel e first.machine with
    ⟨v, m, hv, hv'⟩ | ⟨stop, stop', m, hv, hv', hstop⟩
  · have hroom : m.sink.hasRoom = true := by
      simp only [Exec.after, hv] at hlimit
      exact Sink.hasRoom_of_unlimited (hlimit.trans hs)
    have hprogram := interpret_print_ok hv' hroom
    have hevaluated : evaluated = (.ok v, { first with machine := m }) := by
      simp only [evaluated, perform, hv]
    rw [hrun, perform, hprogram, hevaluated]
    refine ⟨fun w hw => ?_, fun stop hstop => ?_⟩
    · cases hw
      rfl
    · cases hstop
  · have hprogram := interpret_print_error hv'
    have hevaluated : evaluated = (.error (.stopped stop), { first with machine := m }) := by
      simp only [evaluated, perform, hv]
    rw [hrun, perform, hprogram, hevaluated]
    refine ⟨fun w hw => ?_, fun other hother => ?_⟩
    · cases hw
    · cases hother
      exact ⟨stop', hstop, rfl⟩

/-- The outcome of an input is that of every fuel which is larger, or with which it ends. -/
theorem run_eq_of_ends {n : Nat} {source : String} (hends : Ends (s.run n source).1) {n' : Nat}
    (h : n ≤ n' ∨ Ends (s.run n' source).1) : s.run n' source = s.run n source := by
  rcases h with hle | hends'
  · exact run_of_larger hle hends
  · exact run_unique hends' hends

/-- Evaluating a source and running the statement that prints it agree. When the source has a value,
the run leaves what the evaluation leaves and has printed the value as well; when it stops with an
error, so does the run, in the same machine and for the same reason. -/
theorem run_printing_of_evaluate {s : Session} (hs : s.machine.sink.limit = none)
    (source : String) (fuel : Nat) :
    let evaluated := s.evaluate fuel source
    let printing := "print\n" ++ source ++ "\n;"
    (∀ v, evaluated.1 = .ok v → ∀ fuel', fuel < fuel' ∨ Ends (s.run fuel' printing).1 →
      s.run fuel' printing =
        (.ok (), evaluated.2.print (evaluated.2.machine.heap.display v))) ∧
    ∀ e, evaluated.1 = .error (.stopped (.error e)) →
      ∀ fuel', fuel < fuel' ∨ Ends (s.run fuel' printing).1 →
        ∃ line, (line = e.line ∨ line = e.line + 1) ∧
          s.run fuel' printing = (.error (.stopped (.error ⟨e.cause, line⟩)), evaluated.2) := by
  intro evaluated printing
  have hvalue : ∀ v, evaluated.1 = .ok v → s.run (fuel + 1) printing =
      (.ok (), evaluated.2.print (evaluated.2.machine.heap.display v)) := by
    intro v hv
    obtain ⟨e, next, hp, he, hevaluated⟩ := s.evaluated fun failure hf => by cases hv.symm.trans hf
    have hrun := (run_printing hs hp he fuel).1 v
    rw [← hevaluated] at hrun
    exact hrun hv
  have hstop : ∀ e, evaluated.1 = .error (.stopped (.error e)) →
      ∃ line, (line = e.line ∨ line = e.line + 1) ∧ s.run (fuel + 1) printing =
        (.error (.stopped (.error ⟨e.cause, line⟩)), evaluated.2) := by
    intro e hstop
    obtain ⟨tree, next, hp, he, hevaluated⟩ := s.evaluated fun failure hf => by
      cases hstop.symm.trans hf
      rfl
    have hrun := (run_printing hs hp he fuel).2 (.error e)
    rw [← hevaluated] at hrun
    obtain ⟨stop', hmoved, hrun⟩ := hrun hstop
    cases hmoved with
    | same => exact ⟨e.line, .inl rfl, hrun⟩
    | line => exact ⟨e.line + 1, .inr rfl, hrun⟩
  refine ⟨fun v hv fuel' hfuel => ?_, fun e herror fuel' hfuel => ?_⟩
  · have hends : Ends (s.run (fuel + 1) printing).1 := by
      rw [hvalue v hv]
      simp [Ends]
    rw [run_eq_of_ends hends hfuel, hvalue v hv]
  · obtain ⟨line, hline, hrun⟩ := hstop e herror
    have hends : Ends (s.run (fuel + 1) printing).1 := by
      rw [hrun]
      simp [Ends]
    exact ⟨line, hline, (run_eq_of_ends hends hfuel).trans hrun⟩

/-- A call that prints, in front of a comment that reaches to the end of the source. -/
theorem run_printing_of_evaluate_call :
    let s := ((start (fun _ => 0) none).run 20 "fun f(x) \x7b print x; return x; \x7d").2
    let source := "f(\"a\") // call"
    s.machine.sink.limit = none ∧ (s.evaluate 20 source).1 = .ok (.string "a") ∧
      (s.run 21 "print\nf(\"a\") // call\n;").1 = .ok () ∧
      (s.run 21 "print\nf(\"a\") // call\n;").2.printed = #["a", "a"] := by
  intro s source
  have hlimit : s.machine.sink.limit = none := by
    simp only [s]
    cbv
  have hvalue : (s.evaluate 20 source).1 = .ok (.string "a") := by
    simp only [s, source]
    cbv
  have hprinted : (s.evaluate 20 source).2.printed = #["a"] := by
    simp only [s, source]
    cbv
  have hrun := (run_printing_of_evaluate hlimit source 20).1 _ hvalue 21 (.inl (by decide))
  have hsource : "print\n" ++ source ++ "\n;" = "print\nf(\"a\") // call\n;" := by
    simp only [source]
    cbv
  rw [hsource] at hrun
  refine ⟨hlimit, hvalue, congrArg Prod.fst hrun, ?_⟩
  rw [hrun]
  change (s.evaluate 20 source).2.printed.push _ = _
  rw [hprinted]
  rfl

end Session

end Lox

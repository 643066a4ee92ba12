import Lox.Proofs.RenamedParses
import Lox.Proofs.RenamedRuns
import Lox.Proofs.Sessions

/-!
# Rejected inputs

An input with a static error runs nothing. It only uses up node ids and may leave distances of its own
occurrences in the table, which no later tree has: a session that skipped some ids goes on as one that
did not, with trees that have other ids.
-/

namespace Lox

/-! ### Skipped ids -/

/-- Ids from `first` on stand further up by `gap`. -/
def Renaming.skip (first gap : Nat) : Renaming where
  node id := if id.index < first then id else ⟨id.index + gap⟩
  line := id

namespace Renaming

variable {first gap : Nat}

theorem node_skip_of_lt {id : NodeId} (h : id.index < first) : (skip first gap).node id = id :=
  if_pos h

theorem node_skip_of_le {id : NodeId} (h : first ≤ id.index) :
    (skip first gap).node id = ⟨id.index + gap⟩ :=
  if_neg (Nat.not_lt.2 h)

theorem node_skip_injective : Function.Injective (skip first gap).node := by
  rintro ⟨i⟩ ⟨j⟩ h
  simp only [skip] at h
  split at h <;> split at h <;> simp only [NodeId.mk.injEq] at h ⊢ <;> omega

/-- Occurrences from before stay as they are. -/
theorem fixes_skip {ids : List NodeId} (h : ∀ id ∈ ids, id.index < first) :
    (skip first gap).Fixes ids :=
  ⟨fun id hi => node_skip_of_lt (h id hi), rfl⟩

end Renaming

open Renaming (skip)

/-- Ids that are counted from `gap` further on. -/
def Parser.Shift.skip (first gap : Nat) : Parser.Shift where
  via := Renaming.skip first gap
  first
  gap
  node _ hi := Renaming.node_skip_of_le hi

theorem lookup_renameNote {r : Renaming} (hr : Function.Injective r.node)
    (notes : List (NodeId × Nat)) (id : NodeId) :
    (notes.map (Scope.Walk.renameNote r)).lookup (r.node id) = notes.lookup id := by
  induction notes with
  | nil => rfl
  | cons note notes ih =>
    obtain ⟨id', d⟩ := note
    simp only [List.map_cons, Scope.Walk.renameNote, List.lookup_cons, ih]
    by_cases h : id = id'
    · subst h
      simp
    · have h' : (r.node id == r.node id') = false := by simpa using fun he => h (hr he)
      have h'' : (id == id') = false := by simpa using h
      rw [h', h'']

/-! ### Sources -/

namespace Source

variable {first next : Nat}

theorem stream_skip (gap : Nat) (tokens : List Token) :
    TokenStream.ofList tokens =
      (Parser.Shift.skip first gap).stream (TokenStream.ofList tokens) := by
  have hmap : ∀ ts : List Token, ts.map (Token.relabel (skip first gap).line) = ts :=
    fun ts => List.map_id ts
  simp only [Parser.Shift.stream, Parser.Shift.skip, hmap]
  rfl

/-- The same errors, or the same program with other ids. -/
theorem program?_skip (gap : Nat) (source : String) (hn : first ≤ next) :
    program? source (next + gap) =
      ((program? source next).1.map (Stmt.renameAll (skip first gap)),
        (program? source next).2 + gap) := by
  have herrors : ∀ es : List Parser.Error,
      es.map (Parser.Error.relabel (skip first gap).line) = es := fun es => List.map_id es
  have h := (Parser.Shift.skip first gap).program_stream
    (stream_skip gap (Lexer.tokens (Lexer.scan source))) hn
  simp only [Parser.Shift.skip] at h
  simp only [program?, h]
  rcases (Parser.program (Lexer.tokens (Lexer.scan source)) next).1 with es | ss
  · simp only [Except.map, Except.mapError, herrors]
  · cases lexicalErrors (Lexer.scan source) <;> rfl

theorem parsed_of_program? {source : String} {program : List Stmt}
    (h : (program? source first).1 = .ok program) :
    Lexer.errors (Lexer.scan source) = [] ∧
      (Parser.program (Lexer.tokens (Lexer.scan source)) first).1 = .ok program := by
  simp only [program?, lexicalErrors] at h
  split at h
  · next hl hp =>
    cases h
    exact ⟨List.map_eq_nil_iff.1 hl, hp⟩
  · cases h
  · cases h

theorem expression?_skip (gap : Nat) (source : String) (hn : first ≤ next) :
    expression? source (next + gap) =
      ((expression? source next).1.map (Expr.rename (skip first gap)),
        (expression? source next).2 + gap) := by
  unfold expression?
  rcases tokens? source with errors | tokens
  · rfl
  · have h := (Parser.Shift.skip first gap).expressionOnly_stream (stream_skip gap tokens) hn
    simp only [Parser.Shift.skip] at h
    simp only [h]
    rcases (Parser.expressionOnly tokens next).1 with e | e <;> rfl

end Source

/-- The same failure with a runtime error on another line. -/
def Failure.relabel (f : Nat → Nat) : Failure → Failure
  | .stopped stop => .stopped (stop.relabel f)
  | failure => failure

theorem Failure.mapError_relabel_id {α : Type} (outcome : Except Failure α) :
    outcome.mapError (Failure.relabel id) = outcome := by
  rcases outcome with (_ | _ | stop) | a
  · rfl
  · rfl
  · cases stop <;> rfl
  · rfl

/-- Steps that run alike end alike in two sessions. -/
theorem Session.perform_exchange {α : Type} {x : Exchange} {p : x.runs.Pair} {act act' : Exec α}
    (h : x.runs.Runs p act act' Exchange.Same) (next next' : Nat) :
    ∃ q : x.runs.Pair, x.runs.Leads p q ∧ (perform ⟨p.1, next⟩ act).2 = ⟨q.1, next⟩ ∧
      perform ⟨x.other p.1, next'⟩ act' =
        ((perform ⟨p.1, next⟩ act).1.mapError (Failure.relabel x.via.line),
          ⟨x.other q.1, next'⟩) := by
  have h := h fun _ _ _ => id
  simp only [Exchange.runs] at h
  unfold perform
  rcases ha : act p.1 with ⟨a, m⟩ | ⟨stop, m⟩ <;>
    rcases hb : act' (x.other p.1) with ⟨b, m'⟩ | ⟨stop', m'⟩ <;> rw [ha, hb] at h
  · obtain ⟨q, rfl, rfl, hq, rfl⟩ := h
    exact ⟨q, hq, rfl, rfl⟩
  · exact h.elim
  · exact h.elim
  · obtain ⟨rfl, q, rfl, rfl, hq⟩ := h
    exact ⟨q, hq, rfl, rfl⟩

/-! ### Sessions that skipped ids -/

namespace Session

/-- The second session is the first one but for `gap` ids that it skipped at `first`, and for what its
table says of ids that no tree has. -/
structure Skips (first gap : Nat) (s s' : Session) : Prop where
  since : first ≤ s.nextId
  next : s'.nextId = s.nextId + gap
  machine : s'.machine = { s.machine with
    heap := s.machine.heap.rename (skip first gap), distances := s'.machine.distances }
  same : ∀ id : NodeId, id.index < s.nextId →
    s'.machine.distances[(skip first gap).node id]? = s.machine.distances[id]?
  fresh : ∀ id : NodeId, s.nextId ≤ id.index → s.machine.distances[id]? = none
  fresh' : ∀ id : NodeId, s'.nextId ≤ id.index → s'.machine.distances[id]? = none
  covers : ∀ f ∈ s.machine.heap.closures, ∀ id ∈ f.decl.ids, id.index < s.nextId

variable {first gap : Nat} {s s' : Session}

/-- The exchange of one table for the other. -/
def Skips.exchange (h : Skips first gap s s') : Exchange where
  via := skip first gap
  known id := id.index < s.nextId
  table := s.machine.distances
  table' := s'.machine.distances
  ground := rfl
  same := h.same

theorem Skips.other (h : Skips first gap s s') : h.exchange.other s.machine = s'.machine :=
  h.machine.symm

/-- The first session's machine, whose functions all have ids from before. -/
def Skips.pair (h : Skips first gap s s') : h.exchange.runs.Pair := ⟨s.machine, rfl, h.covers⟩

theorem Skips.of_pair (h : Skips first gap s s') (p : h.exchange.runs.Pair) :
    Skips first gap ⟨p.1, s.nextId⟩ ⟨h.exchange.other p.1, s'.nextId⟩ where
  since := h.since
  next := h.next
  machine := rfl
  same id hi := by
    show s'.machine.distances[(skip first gap).node id]? = p.1.distances[id]?
    rw [p.2.table]
    exact h.same id hi
  fresh id hi := by
    show p.1.distances[id]? = none
    rw [p.2.table]
    exact h.fresh id hi
  fresh' := h.fresh'
  covers := p.2.covers

theorem Skips.perform {α : Type} (h : Skips first gap s s') {act act' : Exec α}
    (hr : h.exchange.runs.Runs h.pair act act' Exchange.Same) :
    (s'.perform act').1 = (s.perform act).1 ∧
      Skips first gap (s.perform act).2 (s'.perform act').2 := by
  obtain ⟨q, -, hq, ho⟩ := perform_exchange hr s.nextId s'.nextId
  simp only [Skips.pair, h.other] at hq ho
  rw [hq, ho]
  exact ⟨Failure.mapError_relabel_id _, h.of_pair q⟩

/-- More ids were handed out in both sessions. -/
theorem Skips.advance (h : Skips first gap s s') {next : Nat} (hn : s.nextId ≤ next) :
    Skips first gap ⟨s.machine, next⟩ ⟨s'.machine, next + gap⟩ where
  since := h.since.trans hn
  next := rfl
  machine := h.machine
  same id hi := by
    rcases Nat.lt_or_ge id.index s.nextId with hlt | hle
    · exact h.same id hlt
    · rw [h.fresh id hle, Renaming.node_skip_of_le (h.since.trans hle)]
      refine h.fresh' _ ?_
      simp only [h.next]
      omega
  fresh id hi := h.fresh id (hn.trans hi)
  fresh' id hi := h.fresh' id (by rw [h.next]; exact (Nat.add_le_add_right hn gap).trans hi)
  covers f hf id hi := (h.covers f hf id hi).trans_le hn

/-- Both sessions take over the distances of a tree. -/
theorem Skips.noteAll (h : Skips first gap s s') {notes : List (NodeId × Nat)}
    (hids : ∀ p ∈ notes, p.1.index < s.nextId) :
    Skips first gap ⟨s.machine.noteAll notes.toArray, s.nextId⟩
      ⟨s'.machine.noteAll (notes.map (Scope.Walk.renameNote (skip first gap))).toArray,
        s'.nextId⟩ where
  since := h.since
  next := h.next
  machine := by
    conv_lhs => rw [h.machine]
    rfl
  same id hi := by
    show (s'.machine.noteAll _).distances[(skip first gap).node id]? =
      (s.machine.noteAll _).distances[id]?
    rw [Machine.distances_noteAll, Machine.distances_noteAll, ← List.map_reverse,
      lookup_renameNote Renaming.node_skip_injective, h.same id hi]
  fresh id hi := by
    refine (Machine.distances_noteAll_of_ne (fun p hp => ?_) s.machine).trans (h.fresh id hi)
    rintro rfl
    exact absurd hi (Nat.not_le.2 (hids p hp))
  fresh' id hi := by
    refine (Machine.distances_noteAll_of_ne (fun p hp => ?_) s'.machine).trans (h.fresh' id hi)
    obtain ⟨q, hq, rfl⟩ := List.mem_map.1 hp
    have hlt := hids q hq
    have hle : ((skip first gap).node q.1).index ≤ q.1.index + gap := by
      unfold skip
      dsimp only
      split <;> simp
    rintro rfl
    simp only [Scope.Walk.renameNote, h.next] at hi
    omega
  covers := h.covers

theorem rename_errors (errors : Array Scope.Error) :
    errors.map (Scope.Error.rename (skip first gap)) = errors :=
  Array.map_id errors

/-- Both sessions reject a tree for the same reasons, or both run it. -/
theorem Skips.resolved {α : Type} (h : Skips first gap s s') {walk : Scope.Walk}
    {ids : List NodeId} (hids : ∀ id ∈ ids, id.index < s.nextId)
    (hw : Scope.Walk.Notes ids .start walk) {act act' : Exec α}
    (hr : ∀ {t t' : Session} (k : Skips first gap t t'), t.nextId = s.nextId →
      k.exchange.runs.Runs k.pair act act' Exchange.Same) :
    (s'.resolved (walk.rename (skip first gap)) act').1 = (s.resolved walk act).1 ∧
      Skips first gap (s.resolved walk act).2
        (s'.resolved (walk.rename (skip first gap)) act').2 := by
  obtain ⟨notes, hnotes, hm⟩ := hw.of_start
  have k := h.noteAll fun p hp => hids _ (hm p hp)
  have hnotes' : (walk.rename (skip first gap)).distances =
      (notes.map (Scope.Walk.renameNote (skip first gap))).toArray := by
    simp [Scope.Walk.rename, hnotes]
  have herrors : (walk.rename (skip first gap)).errors = walk.errors := rename_errors _
  unfold Session.resolved
  simp only [hnotes, hnotes', herrors]
  split
  · exact k.perform (hr k rfl)
  · exact ⟨rfl, k⟩

theorem Skips.run (h : Skips first gap s s') (fuel : Nat) (source : String) :
    (s'.run fuel source).1 = (s.run fuel source).1 ∧
      Skips first gap (s.run fuel source).2 (s'.run fuel source).2 := by
  obtain ⟨hn, hmade⟩ := Source.program?_made source s.nextId
  have hskip := Source.program?_skip gap source h.since
  rw [← h.next] at hskip
  have hadvance := h.advance hn
  rcases hp : (Source.program? source s.nextId).1 with errors | program
  · rw [hp] at hskip
    rw [run_of_errors hp, run_of_errors (s := s') (congrArg Prod.fst hskip), hskip]
    exact ⟨rfl, hadvance⟩
  · rw [hp] at hskip
    obtain ⟨-, hids⟩ := hmade program hp
    have hw : Scope.Walk.Notes _ .start (Scope.resolve program) := Stmt.notesAll program .start
    rw [run_of_program hp, run_of_program (s := s') (congrArg Prod.fst hskip), hskip,
      Scope.resolve_renameAll]
    refine hadvance.resolved (fun id hi => (hids.2 id hi).2) hw fun k hk => ?_
    refine Exchange.runs_interpret fuel program fun id hi => ?_
    show id.index < _
    rw [hk]
    exact (hids.2 id hi).2

theorem Skips.evaluate (h : Skips first gap s s') (fuel : Nat) (source : String) :
    (s'.evaluate fuel source).1 = (s.evaluate fuel source).1 ∧
      Skips first gap (s.evaluate fuel source).2 (s'.evaluate fuel source).2 := by
  obtain ⟨hn, hmade⟩ := Source.expression?_made source s.nextId
  have hskip := Source.expression?_skip gap source h.since
  rw [← h.next] at hskip
  have hadvance := h.advance hn
  rcases hp : (Source.expression? source s.nextId).1 with failure | e
  · rw [hp] at hskip
    rw [evaluate_of_failure hp, evaluate_of_failure (s := s') (congrArg Prod.fst hskip), hskip]
    exact ⟨rfl, hadvance⟩
  · rw [hp] at hskip
    obtain ⟨-, hids⟩ := hmade e hp
    have hw : Scope.Walk.Notes _ .start (Scope.resolveExpression e) := Expr.notes e .start
    rw [evaluate_of_expression hp, evaluate_of_expression (s := s') (congrArg Prod.fst hskip),
      hskip, Scope.resolveExpression_rename]
    refine hadvance.resolved (fun id hi => (hids.2 id hi).2) hw fun k hk => ?_
    refine (Exchange.agrees _ fuel).eval e fun id hi => ?_
    show id.index < _
    rw [hk]
    exact (hids.2 id hi).2

/-! ### Reached sessions -/

/-- Every function was read before, and the table tells of no id that is yet to be handed out. -/
structure Tidy (s : Session) : Prop where
  fresh : ∀ id : NodeId, s.nextId ≤ id.index → s.machine.distances[id]? = none
  covers : ∀ f ∈ s.machine.heap.closures, ∀ id ∈ f.decl.ids, id.index < s.nextId

theorem Tidy.rename (h : s.Tidy) : s.machine.heap.rename (skip s.nextId gap) = s.machine.heap := by
  have hmap : s.machine.heap.closures.map (Closure.rename (skip s.nextId gap)) =
      s.machine.heap.closures := by
    refine Array.ext_getElem? fun i => ?_
    rw [Array.getElem?_map]
    rcases hi : s.machine.heap.closures[i]? with _ | f
    · rfl
    · have hf := h.covers f (Array.mem_of_getElem? hi)
      simp only [Option.map_some, Closure.rename,
        FunDecl.rename_self f.decl (Renaming.fixes_skip hf)]
  simp only [Heap.rename, hmap]

/-- A session skips the ids of a tree that it does not run. -/
theorem Tidy.skips (h : s.Tidy) {next : Nat} (hn : s.nextId ≤ next)
    {distances : Std.HashMap NodeId Nat}
    (hd : ∀ id : NodeId, id.index < s.nextId → distances[id]? = s.machine.distances[id]?)
    (hf : ∀ id : NodeId, next ≤ id.index → distances[id]? = none) :
    Skips s.nextId (next - s.nextId) s ⟨{ s.machine with distances }, next⟩ where
  since := le_rfl
  next := (Nat.add_sub_cancel' hn).symm
  machine := by rw [h.rename]
  same id hi := by
    rw [Renaming.node_skip_of_lt hi]
    exact hd id hi
  fresh := h.fresh
  fresh' := hf
  covers := h.covers

theorem Tidy.skips_self (h : s.Tidy) : Skips s.nextId 0 s s := by
  have := h.skips le_rfl (fun _ _ => rfl) h.fresh
  rwa [Nat.sub_self] at this

theorem Skips.tidy (h : Skips first gap s s') : s.Tidy := ⟨h.fresh, h.covers⟩

theorem Reached.tidy {held : List Value} (h : Reached s held) : s.Tidy := by
  induction h with
  | start clock limit =>
    refine ⟨fun id _ => ?_, fun f hf => ?_⟩
    · show (∅ : Std.HashMap NodeId Nat)[id]? = none
      simp
    · simp [Session.start, Machine.start, Machine.defineNative, Heap.define, Heap.newNative,
        Heap.newFrame, Heap.empty] at hf
  | run _ fuel source ih => exact (ih.skips_self.run fuel source).2.tidy
  | evaluate _ fuel source ih => exact (ih.skips_self.evaluate fuel source).2.tidy
  | define _ name _ ih => exact ⟨ih.fresh, ih.covers⟩
  | defineNative _ name native ih => exact ⟨ih.fresh, ih.covers⟩

/-! ### Requests -/

/-- What a host asks of a session. -/
inductive Request
  | run (fuel : Nat) (source : String)
  | evaluate (fuel : Nat) (source : String)

/-- What it gets: how the request ended, with a value if one was asked for, what that value prints as,
and all that has been printed by then. -/
structure Answer where
  outcome : Except Failure (Option Value)
  text : Option String
  printed : Array String

def Request.perform : Request → Session → Answer × Session
  | .run fuel source, s =>
    let (outcome, s) := s.run fuel source
    (⟨outcome.map fun _ => none, none, s.printed⟩, s)
  | .evaluate fuel source, s =>
    let (outcome, s) := s.evaluate fuel source
    (⟨outcome.map some, outcome.toOption.map s.machine.heap.display, s.printed⟩, s)

/-- The answers to some requests in order. -/
def answers : List Request → Session → List Answer
  | [], _ => []
  | request :: requests, s => (request.perform s).1 :: answers requests (request.perform s).2

theorem Skips.printed (h : Skips first gap s s') : s'.printed = s.printed :=
  congrArg (·.sink.lines) h.machine

theorem Skips.display (h : Skips first gap s s') (v : Value) :
    s'.machine.heap.display v = s.machine.heap.display v := by
  rw [h.machine]
  exact Heap.display_rename _ rfl v

theorem Skips.request (h : Skips first gap s s') (request : Request) :
    (request.perform s').1 = (request.perform s).1 ∧
      Skips first gap (request.perform s).2 (request.perform s').2 := by
  cases request with
  | run fuel source =>
    obtain ⟨ho, k⟩ := h.run fuel source
    simp only [Request.perform, ho, k.printed]
    exact ⟨trivial, k⟩
  | evaluate fuel source =>
    obtain ⟨ho, k⟩ := h.evaluate fuel source
    have hd : (s'.evaluate fuel source).2.machine.heap.display =
        (s.evaluate fuel source).2.machine.heap.display := funext k.display
    simp only [Request.perform, ho, k.printed, hd]
    exact ⟨trivial, k⟩

theorem Skips.answers (h : Skips first gap s s') (requests : List Request) :
    answers requests s' = answers requests s := by
  induction requests generalizing s s' with
  | nil => rfl
  | cons request requests ih =>
    obtain ⟨ha, k⟩ := h.request request
    simp only [Session.answers, ha, ih k]

/-! ### Static errors -/

/-- What keeps a program from running: an error of the lexer, of the parser or of a scope. -/
def Faulty (source : String) (first : Nat) : Prop :=
  Lexer.errors (Lexer.scan source) ≠ [] ∨
    (∃ errors, (Parser.program (Lexer.tokens (Lexer.scan source)) first).1 = .error errors) ∨
    ∃ program, (Parser.program (Lexer.tokens (Lexer.scan source)) first).1 = .ok program ∧
      (Scope.resolve program).errors ≠ #[]

theorem faulty_of_errors {source : String} {first : Nat} {errors : List Diagnostic}
    (h : (Source.program? source first).1 = .error errors) : Faulty source first := by
  by_cases hl : Lexer.errors (Lexer.scan source) = []
  · rcases hp : (Parser.program (Lexer.tokens (Lexer.scan source)) first).1 with es | ss
    · exact .inr (.inl ⟨es, hp⟩)
    · simp [Source.program?, Source.lexicalErrors, hl, hp] at h
  · exact .inl hl

theorem faulty_iff_of_program {source : String} {first : Nat} {program : List Stmt}
    (h : (Source.program? source first).1 = .ok program) :
    Faulty source first ↔ (Scope.resolve program).errors ≠ #[] := by
  simp [Faulty, Source.parsed_of_program? h]

/-- How a request ends whose tree is rejected: the tree's distances are kept. -/
theorem resolved_of_errors {α : Type} {walk : Scope.Walk} (h : walk.errors ≠ #[]) (act : Exec α) :
    s.resolved walk act = (.error (.rejected (walk.errors.toList.map .resolve)),
      ⟨s.machine.noteAll walk.distances, s.nextId⟩) := by
  unfold Session.resolved
  dsimp only
  split
  · next he => exact absurd (by simpa using he) h
  · rfl

theorem not_static_of_perform {α : Type} {act : Exec α} {failure : Failure}
    (h : (s.perform act).1 = .error failure) : failure.isStatic = false := by
  obtain ⟨stop, rfl⟩ := stopped_of_perform h
  rfl

/-- The tree of a rejected input is left out, and only its ids and distances stay. -/
def Rejects (s s' : Session) : Prop :=
  ∃ notes : List (NodeId × Nat), s.nextId ≤ s'.nextId ∧
    (∀ p ∈ notes, s.nextId ≤ p.1.index ∧ p.1.index < s'.nextId) ∧
    s'.machine = s.machine.noteAll notes.toArray

theorem Rejects.of_errors {next : Nat} (hn : s.nextId ≤ next) : Rejects s ⟨s.machine, next⟩ :=
  ⟨[], hn, by simp, rfl⟩

theorem Rejects.of_walk {next : Nat} (hn : s.nextId ≤ next) {walk : Scope.Walk}
    {ids : List NodeId} (hids : Within s.nextId next ids)
    (hw : Scope.Walk.Notes ids .start walk) :
    Rejects s ⟨s.machine.noteAll walk.distances, next⟩ := by
  obtain ⟨notes, hnotes, hm⟩ := hw.of_start
  exact ⟨notes, hn, fun p hp => hids.2 _ (hm p hp), by rw [hnotes]⟩

theorem run_rejects_iff (fuel : Nat) (source : String) :
    (∃ failure, (s.run fuel source).1 = .error failure ∧ failure.isStatic = true) ↔
      Faulty source s.nextId := by
  rcases hp : (Source.program? source s.nextId).1 with errors | program
  · rw [run_of_errors hp]
    exact ⟨fun _ => faulty_of_errors hp, fun _ => ⟨_, rfl, rfl⟩⟩
  · rw [run_of_program hp, faulty_iff_of_program hp]
    constructor
    · rintro ⟨failure, hf, hstatic⟩ he
      rw [resolved_of_silent he] at hf
      rw [not_static_of_perform hf] at hstatic
      cases hstatic
    · intro he
      rw [resolved_of_errors he]
      exact ⟨_, rfl, rfl⟩

theorem rejects_of_run {fuel : Nat} {source : String} {failure : Failure}
    (h : (s.run fuel source).1 = .error failure) (hf : failure.isStatic = true) :
    Rejects s (s.run fuel source).2 := by
  obtain ⟨hn, hmade⟩ := Source.program?_made source s.nextId
  rcases hp : (Source.program? source s.nextId).1 with errors | program
  · rw [run_of_errors hp]
    exact .of_errors hn
  · obtain ⟨-, hids⟩ := hmade program hp
    have hw : Scope.Walk.Notes _ .start (Scope.resolve program) := Stmt.notesAll program .start
    rw [run_of_program hp] at h ⊢
    by_cases he : (Scope.resolve program).errors = #[]
    · rw [resolved_of_silent he] at h
      rw [not_static_of_perform h] at hf
      cases hf
    · rw [resolved_of_errors he]
      exact .of_walk hn hids hw

theorem rejects_of_evaluate {fuel : Nat} {source : String} {failure : Failure}
    (h : (s.evaluate fuel source).1 = .error failure) (hf : failure.isStatic = true) :
    Rejects s (s.evaluate fuel source).2 := by
  obtain ⟨hn, hmade⟩ := Source.expression?_made source s.nextId
  rcases hp : (Source.expression? source s.nextId).1 with failure' | e
  · rw [evaluate_of_failure hp]
    exact .of_errors hn
  · obtain ⟨-, hids⟩ := hmade e hp
    have hw : Scope.Walk.Notes _ .start (Scope.resolveExpression e) := Expr.notes e .start
    rw [evaluate_of_expression hp] at h ⊢
    by_cases he : (Scope.resolveExpression e).errors = #[]
    · rw [resolved_of_silent he] at h
      rw [not_static_of_perform h] at hf
      cases hf
    · rw [resolved_of_errors he]
      exact .of_walk hn hids hw

theorem rejects_of_request {request : Request} {failure : Failure}
    (h : (request.perform s).1.outcome = .error failure) (hf : failure.isStatic = true) :
    Rejects s (request.perform s).2 := by
  cases request with
  | run fuel source =>
    rcases ho : (s.run fuel source).1 with failure' | u
    · simp only [Request.perform, ho, Except.map] at h
      cases h
      exact rejects_of_run ho hf
    · simp [Request.perform, ho, Except.map] at h
  | evaluate fuel source =>
    rcases ho : (s.evaluate fuel source).1 with failure' | v
    · simp only [Request.perform, ho, Except.map] at h
      cases h
      exact rejects_of_evaluate ho hf
    · simp [Request.perform, ho, Except.map] at h

/-- The session that rejected an input is one that skipped its ids. -/
theorem Rejects.skips (h : Rejects s s') (hs : s.Tidy) :
    Skips s.nextId (s'.nextId - s.nextId) s s' := by
  obtain ⟨notes, hn, hids, hm⟩ := h
  have hsame : ∀ id : NodeId, (id.index < s.nextId ∨ s'.nextId ≤ id.index) →
      (s.machine.noteAll notes.toArray).distances[id]? = s.machine.distances[id]? := by
    intro id hi
    refine Machine.distances_noteAll_of_ne (fun p hp => ?_) s.machine
    have := hids p hp
    rintro rfl
    omega
  have hs' : s' = ⟨s.machine.noteAll notes.toArray, s'.nextId⟩ := by rw [← hm]
  rw [hs']
  exact hs.skips hn (fun id hi => hsame id (.inl hi)) fun id hi =>
    (hsame id (.inr hi)).trans (hs.fresh id (hn.trans hi))

/-- A program with a static error is rejected, and only such a program. Then the table of distances is
all that is left of it, and no later request ends otherwise or prints anything else than without it;
the same holds of a rejected expression. -/
theorem Reached.rejected_leaves_no_trace {held : List Value} (h : Reached s held) :
    (∀ fuel source, (∃ failure, (s.run fuel source).1 = .error failure ∧
      failure.isStatic = true) ↔ Faulty source s.nextId) ∧
    ∀ (request : Request) (failure : Failure), (request.perform s).1.outcome = .error failure →
      failure.isStatic = true →
      (∃ distances, (request.perform s).2.machine = { s.machine with distances }) ∧
        ∀ later, answers later (request.perform s).2 = answers later s := by
  refine ⟨fun fuel source => run_rejects_iff fuel source, fun request failure ho hf => ?_⟩
  have hr := rejects_of_request ho hf
  refine ⟨?_, fun later => (hr.skips h.tidy).answers later⟩
  obtain ⟨notes, -, -, hm⟩ := hr
  exact ⟨_, hm⟩

/-- A `return` at the top, after a variable whose distance the table keeps. -/
theorem rejected_leaves_no_trace_return :
    let source := "{ var a; print a; } return;"
    let s := start (fun _ => 0) none
    Reached s [] ∧ Faulty source s.nextId ∧
      ∀ later, answers later (s.run 9 source).2 = answers later s := by
  intro source s
  have hreached : Reached s [] := .start _ _
  obtain ⟨hiff, hlater⟩ := hreached.rejected_leaves_no_trace
  have hp : (Source.program? source 0).1 =
      .ok [.block [.var ⟨.identifier, "a", 1⟩ none,
        .print (.variable ⟨0⟩ ⟨.identifier, "a", 1⟩)], .return ⟨.keyword .return, "return", 1⟩ none] := by
    cbv
  have hfaulty : Faulty source s.nextId := (faulty_iff_of_program hp).2 (by decide)
  obtain ⟨failure, hf, hstatic⟩ := (hiff 9 source).2 hfaulty
  have ho : ((Request.run 9 source).perform s).1.outcome = .error failure := by
    simp only [Request.perform, hf]
    rfl
  exact ⟨hreached, hfaulty, (hlater _ failure ho hstatic).2⟩

end Session

end Lox

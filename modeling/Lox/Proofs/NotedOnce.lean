import Lox.Proofs.Evolution
import Lox.Proofs.Rejections

/-!
# Distances are noted once

No id is handed out twice, whatever the parses are and however they end. So no two notes of a
session are about one occurrence, an entry of the table is never overwritten, and a closure keeps
the distances that it had when it was made.
-/

namespace Lox

/-! ### Trees of many parses -/

namespace Parser

/-- Tokens to parse as a program or as one expression. -/
inductive Input
  | program (tokens : List Token)
  | expression (tokens : List Token)

inductive Tree
  | program (stmts : List Stmt)
  | expression (e : Expr)

def Tree.ids : Tree → List NodeId
  | .program stmts => Stmt.idsAll stmts
  | .expression e => e.ids

/-- The tree of an input without syntax errors, and the next free id in any case. -/
def Input.parse : Input → Nat → Option Tree × Nat
  | .program tokens, first =>
    let (parsed, next) := Parser.program tokens first
    (parsed.toOption.map .program, next)
  | .expression tokens, first =>
    let (parsed, next) := expressionOnly tokens first
    (parsed.toOption.map .expression, next)

/-- The trees of inputs that are parsed one after the other. -/
def trees : List Input → Nat → List Tree
  | [], _ => []
  | input :: inputs, first =>
    (input.parse first).1.toList ++ trees inputs (input.parse first).2

theorem eq_ok_of_toOption {ε α : Type} {x : Except ε α} {a : α} (h : x.toOption = some a) :
    x = .ok a := by
  cases x with
  | error _ => cases h
  | ok _ => exact congrArg Except.ok (Option.some.inj h)

theorem Input.parse_made (input : Input) (first : Nat) :
    first ≤ (input.parse first).2 ∧
      ∀ tree, (input.parse first).1 = some tree → Within first (input.parse first).2 tree.ids := by
  cases input with
  | program tokens =>
    obtain ⟨hn, hmade⟩ := @program_made (fun _ => True) tokens first (by simp)
    refine ⟨hn, fun tree ht => ?_⟩
    simp only [parse, Option.map_eq_some_iff] at ht
    obtain ⟨stmts, hs, rfl⟩ := ht
    exact (hmade stmts (eq_ok_of_toOption hs)).2
  | expression tokens =>
    obtain ⟨hn, hmade⟩ := @expressionOnly_made (fun _ => True) tokens first (by simp)
    refine ⟨hn, fun tree ht => ?_⟩
    simp only [parse, Option.map_eq_some_iff] at ht
    obtain ⟨e, he, rfl⟩ := ht
    exact (hmade e (eq_ok_of_toOption he)).2

theorem trees_ids (inputs : List Input) (first : Nat) :
    ∃ next, first ≤ next ∧ Within first next ((trees inputs first).flatMap Tree.ids) := by
  induction inputs generalizing first with
  | nil => exact ⟨first, le_rfl, .nil first first⟩
  | cons input inputs ih =>
    obtain ⟨hn, hmade⟩ := input.parse_made first
    obtain ⟨next, hnext, hw⟩ := ih (input.parse first).2
    refine ⟨next, hn.trans hnext, ?_⟩
    rw [trees, List.flatMap_append]
    refine Within.append ?_ hw hn hnext
    rcases ht : (input.parse first).1 with _ | tree
    · exact .nil first _
    · simpa using hmade tree ht

end Parser

/-! ### Notes of a session -/

namespace Session

open Scope.Walk (NotesOnce)

/-- What the walk of a request notes, also when the request is rejected. -/
def Request.notes : Request → Session → List (NodeId × Nat)
  | .run _ source, s =>
    match (Source.program? source s.nextId).1 with
    | .ok program => (Scope.resolve program).distances.toList
    | .error _ => []
  | .evaluate _ source, s =>
    match (Source.expression? source s.nextId).1 with
    | .ok e => (Scope.resolveExpression e).distances.toList
    | .error _ => []

/-- The session that some requests lead to. -/
def afterAll : List Request → Session → Session
  | [], s => s
  | request :: requests, s => afterAll requests (request.perform s).2

/-- Everything that is noted on the way. -/
def notesAll : List Request → Session → List (NodeId × Nat)
  | [], _ => []
  | request :: requests, s => request.notes s ++ notesAll requests (request.perform s).2

/-- These notes, about new occurrences, are all that became of the table, and closures were added
only. -/
structure Noted (s : Session) (notes : List (NodeId × Nat)) (s' : Session) : Prop where
  distances : s'.machine.distances = (s.machine.noteAll notes.toArray).distances
  next : s.nextId ≤ s'.nextId
  within : Within s.nextId s'.nextId (notes.map Prod.fst)
  closures : s.machine.heap.closures.toList <+: s'.machine.heap.closures.toList

variable {s s' s'' : Session}

theorem Noted.trans {notes notes' : List (NodeId × Nat)} (h : Noted s notes s')
    (k : Noted s' notes' s'') : Noted s (notes ++ notes') s'' where
  distances := by
    rw [k.distances]
    simp only [Machine.noteAll, h.distances, List.foldl_toArray, List.foldl_append]
  next := h.next.trans k.next
  within := by
    rw [List.map_append]
    exact h.within.append k.within h.next k.next
  closures := h.closures.trans k.closures

/-- An input that has no tree. -/
theorem noted_nothing {next : Nat} (hn : s.nextId ≤ next) : Noted s [] ⟨s.machine, next⟩ where
  distances := rfl
  next := hn
  within := .nil _ _
  closures := List.prefix_refl _

/-- The table is taken over, and then nothing is done but running code. -/
theorem evolves_resolved {α : Type} (s : Session) (walk : Scope.Walk) {act : Exec α}
    (ha : act.Evolves) :
    (s.machine.noteAll walk.distances).Evolves (s.resolved walk act).2.machine ∧
      (s.resolved walk act).2.nextId = s.nextId := by
  simp only [resolved]
  split
  · refine ⟨?_, ?_⟩
    · rw [machine_perform]
      exact ha _
    · unfold perform
      split <;> rfl
  · exact ⟨.refl _, rfl⟩

theorem noted_resolved {α : Type} {next : Nat} {ids : List NodeId} {walk : Scope.Walk}
    {act : Exec α} (hn : s.nextId ≤ next) (hids : Within s.nextId next ids)
    (hw : NotesOnce ids .start walk) (ha : act.Evolves) :
    Noted s walk.distances.toList (resolved ⟨s.machine, next⟩ walk act).2 := by
  obtain ⟨hevolves, hnext⟩ := evolves_resolved ⟨s.machine, next⟩ walk ha
  obtain ⟨notes, hd, hs⟩ := hw
  have hnotes : walk.distances.toList = notes := by
    simp [hd, Scope.Walk.start]
  obtain ⟨kept, hperm, hsub⟩ := hs
  have hmem : ∀ id ∈ notes.map Prod.fst, id ∈ ids :=
    fun id hi => hsub.subset (hperm.mem_iff.2 hi)
  exact
    { distances := hevolves.distances_eq
      next := hn.trans_eq hnext.symm
      within := by
        rw [hnotes, hnext]
        exact ⟨hperm.nodup_iff.1 (hids.1.sublist hsub), fun id hi => hids.2 id (hmem id hi)⟩
      closures := hevolves.closures_prefix }

/-- One request. -/
theorem Request.noted (request : Request) (s : Session) :
    Noted s (request.notes s) (request.perform s).2 := by
  cases request with
  | run fuel source =>
    obtain ⟨hn, hmade⟩ := Source.program?_made source s.nextId
    simp only [Request.perform, Request.notes]
    rcases hp : (Source.program? source s.nextId).1 with errors | program
    · rw [run_of_errors hp]
      exact noted_nothing hn
    · rw [run_of_program hp]
      exact noted_resolved hn (hmade program hp).2 (Stmt.notedOnceAll program .start)
        (evolves_interpret fuel program)
  | evaluate fuel source =>
    obtain ⟨hn, hmade⟩ := Source.expression?_made source s.nextId
    simp only [Request.perform, Request.notes]
    rcases hp : (Source.expression? source s.nextId).1 with failure | e
    · rw [evaluate_of_failure hp]
      exact noted_nothing hn
    · rw [evaluate_of_expression hp]
      exact noted_resolved hn (hmade e hp).2 (Expr.notedOnce e .start) ((evolving fuel).eval e)

/-- Any number of requests. -/
theorem noted_all (requests : List Request) (s : Session) :
    Noted s (notesAll requests s) (afterAll requests s) := by
  induction requests generalizing s with
  | nil => exact noted_nothing le_rfl
  | cons request requests ih => exact (request.noted s).trans (ih _)

theorem Noted.closure_eq {notes : List (NodeId × Nat)} (h : Noted s notes s') {f : ClosureId}
    (hf : f.index < s.machine.heap.closures.size) :
    s'.machine.heap.closure f = s.machine.heap.closure f := by
  obtain ⟨more, hmore⟩ := h.closures
  have hget : s'.machine.heap.closures[f.index]? = s.machine.heap.closures[f.index]? := by
    rw [← Array.getElem?_toList, ← hmore, List.getElem?_append_left hf, Array.getElem?_toList]
  simp only [Heap.closure, Array.getD_eq_getD_getElem?, hget]

/-- Nothing changes about an occurrence that was read before. -/
theorem Noted.distance_eq {notes : List (NodeId × Nat)} (h : Noted s notes s') {id : NodeId}
    (hi : id.index < s.nextId) : s'.machine.distances[id]? = s.machine.distances[id]? := by
  rw [h.distances]
  refine Machine.distances_noteAll_of_ne (fun p hp => ?_) s.machine
  rintro rfl
  exact absurd hi (Nat.not_lt.2 (h.within.2 _ (List.mem_map_of_mem hp)).1)

/-- Whatever is parsed, no two occurrences in the trees have one id; and whatever is asked of a
session, no two notes are about one id and none is about an id that the table has. So the table only
gains entries, and the functions that are there find what they found. -/
theorem Reached.noted_once {held : List Value} (h : Reached s held) (inputs : List Parser.Input)
    (first : Nat) (requests : List Request) :
    ((Parser.trees inputs first).flatMap Parser.Tree.ids).Nodup ∧
      ((notesAll requests s).map Prod.fst).Nodup ∧
      (∀ p ∈ notesAll requests s, s.machine.distances[p.1]? = none) ∧
      (afterAll requests s).machine.distances =
        (s.machine.noteAll (notesAll requests s).toArray).distances ∧
      (∀ (id : NodeId) (d : Nat), s.machine.distances[id]? = some d →
        (afterAll requests s).machine.distances[id]? = some d) ∧
      ∀ f : ClosureId, f.index < s.machine.heap.closures.size →
        (afterAll requests s).machine.heap.closure f = s.machine.heap.closure f ∧
          ∀ id ∈ (s.machine.heap.closure f).decl.ids,
            (afterAll requests s).machine.distances[id]? = s.machine.distances[id]? := by
  obtain ⟨next, -, hids⟩ := Parser.trees_ids inputs first
  have hnoted := noted_all requests s
  have htidy := h.tidy
  refine ⟨hids.1, hnoted.within.1, fun p hp => ?_, hnoted.distances, fun id d hd => ?_,
    fun f hf => ⟨hnoted.closure_eq hf, fun id hi => hnoted.distance_eq ?_⟩⟩
  · exact htidy.fresh p.1 (hnoted.within.2 _ (List.mem_map_of_mem hp)).1
  · have hold : id.index < s.nextId := by
      by_contra hn
      rw [htidy.fresh id (Nat.not_lt.1 hn)] at hd
      cases hd
    exact (hnoted.distance_eq hold).trans hd
  · have hmem : s.machine.heap.closure f ∈ s.machine.heap.closures := by
      simp [Heap.closure, hf]
    exact htidy.covers _ hmem id hi

/-- A function that is there when a rejected program and an expression follow. -/
theorem noted_once_parameter :
    let s := ((start (fun _ => 0) none).run 9 "fun f(x) \x7b return x; \x7d").2
    let requests : List Request :=
      [.run 9 "\x7b var a; print a; \x7d return;", .evaluate 9 "f(nil)"]
    Reached s [] ∧ s.machine.distances[(⟨0⟩ : NodeId)]? = some 0 ∧
      notesAll requests s = [(⟨1⟩, 0)] ∧
      (afterAll requests s).machine.distances[(⟨0⟩ : NodeId)]? = some 0 := by
  have hd : ((start (fun _ => 0) none).run 9
      "fun f(x) \x7b return x; \x7d").2.machine.distances[(⟨0⟩ : NodeId)]? = some 0 := by
    cbv
  have hn : notesAll [.run 9 "\x7b var a; print a; \x7d return;", .evaluate 9 "f(nil)"]
      ((start (fun _ => 0) none).run 9 "fun f(x) \x7b return x; \x7d").2 = [(⟨1⟩, 0)] := by
    cbv
  intro s requests
  have hreached : Reached s [] := .run (.start _ _) _ _
  obtain ⟨-, -, -, -, hkept, -⟩ := hreached.noted_once [] 0 requests
  exact ⟨hreached, hd, hn, hkept _ _ hd⟩

end Session

end Lox

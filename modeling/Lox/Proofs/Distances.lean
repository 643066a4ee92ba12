import Mathlib.Data.List.Perm.Subperm
import Lox.Proofs.Rules
import Lox.Proofs.Spelling

/-!
# The distances a walk finds

What a walk over a legal tree notes is what makes the tree scoped: its scopes show the names that are
declared at run time, and every occurrence in the tree has an id of its own, so the last note about
it is the one that was made there.
-/

namespace Lox

open Scope

namespace Scope.Walk

variable {u v w : Walk}

/-- The notes between two walks are about these occurrences, and every table that has them is so. -/
def Finds (ids : List NodeId) (w v : Walk) (found : (NodeId → Option Nat → Prop) → Prop) : Prop :=
  ∃ notes : List (NodeId × Nat), v.distances = w.distances ++ notes.toArray ∧
    (∀ p ∈ notes, p.1 ∈ ids) ∧
    ∀ far, (∀ id ∈ ids, far id (notes.reverse.lookup id)) → found far

namespace Finds

variable {xs ys : List NodeId} {found found' : (NodeId → Option Nat → Prop) → Prop}

theorem nil (hd : v.distances = w.distances) (hf : ∀ far, found far) : Finds [] w v found :=
  ⟨[], by simp [hd], by simp, fun far _ => hf far⟩

theorem imp (h : Finds xs w v found) (hf : ∀ far, found far → found' far) :
    Finds xs w v found' := by
  obtain ⟨notes, hd, hm, hs⟩ := h
  exact ⟨notes, hd, hm, fun far k => hf far (hs far k)⟩

theorem perm (h : Finds xs w v found) (hp : xs.Perm ys) : Finds ys w v found := by
  obtain ⟨notes, hd, hm, hs⟩ := h
  exact ⟨notes, hd, fun p hn => hp.mem_iff.1 (hm p hn),
    fun far k => hs far fun id hi => k id (hp.mem_iff.1 hi)⟩

theorem of_distances {w' v' : Walk} (h : Finds xs w v found) (hw : w'.distances = w.distances)
    (hv : v'.distances = v.distances) : Finds xs w' v' found := by
  obtain ⟨notes, hd, hn⟩ := h
  exact ⟨notes, by rw [hv, hd, hw], hn⟩

theorem lookup_eq_none {notes : List (NodeId × Nat)} {id : NodeId}
    (h : ∀ p ∈ notes, p.1 ∈ xs) (hi : id ∉ xs) : notes.reverse.lookup id = none := by
  rw [List.lookup_eq_none_iff]
  intro p hp
  simp only [bne_iff_ne, ne_eq]
  rintro rfl
  exact hi (h p (List.mem_reverse.1 hp))

theorem of_start (h : Finds xs .start w found) :
    ∃ notes : List (NodeId × Nat), w.distances = notes.toArray ∧
      ∀ far, (∀ id ∈ xs, far id (notes.reverse.lookup id)) → found far := by
  obtain ⟨notes, hd, -, hs⟩ := h
  exact ⟨notes, by simpa [start] using hd, hs⟩

/-- Occurrences of their own do not get in each other's way. -/
theorem append (h : Finds xs u v found) (k : Finds ys v w found') (hn : (xs ++ ys).Nodup) :
    Finds (xs ++ ys) u w fun far => found far ∧ found' far := by
  obtain ⟨notes, hd, hm, hs⟩ := h
  obtain ⟨notes', hd', hm', hs'⟩ := k
  have hne := (List.nodup_append.1 hn).2.2
  refine ⟨notes ++ notes', by simp [hd', hd], ?_, fun far hf => ⟨hs far ?_, hs' far ?_⟩⟩
  · intro p hp
    rcases List.mem_append.1 hp with hp | hp
    · exact List.mem_append_left ys (hm p hp)
    · exact List.mem_append_right xs (hm' p hp)
  · intro id hi
    have hl := hf id (List.mem_append_left ys hi)
    rw [List.reverse_append, List.lookup_append,
      lookup_eq_none hm' fun hi' => hne id hi id hi' rfl] at hl
    exact hl
  · intro id hi
    have hl := hf id (List.mem_append_right xs hi)
    rw [List.reverse_append, List.lookup_append,
      lookup_eq_none hm fun hi' => hne id hi' id hi rfl, Option.or_none] at hl
    exact hl

theorem note (w : Walk) (id : NodeId) (name : String) :
    Finds [id] w (w.note id name) fun far => far id (w.distance? name) := by
  unfold Walk.note
  rcases w.distance? name with _ | d
  · exact ⟨[], by simp, by simp, fun far h => h id (by simp)⟩
  · exact ⟨[(id, d)], by simp, by simp, fun far h => by simpa using h id (by simp)⟩

end Finds

@[simp] theorem distances_reportIf (w : Walk) (broken : Bool) (t : Token) (c : Cause) :
    (w.reportIf broken t c).distances = w.distances := by
  cases broken <;> rfl

@[simp] theorem scopes_reportIf (w : Walk) (broken : Bool) (t : Token) (c : Cause) :
    (w.reportIf broken t c).scopes = w.scopes := by
  cases broken <;> rfl

theorem distances_note_congr (hs : v.scopes = w.scopes) (hd : v.distances = w.distances)
    {id : NodeId} {x : String} : (v.note id x).distances = (w.note id x).distances := by
  unfold Walk.note Walk.distance?
  rw [hs]
  split <;> simp [hd]

@[simp] theorem distances_mark (w : Walk) (x : String) (ready : Bool) :
    (w.mark x ready).distances = w.distances := by
  obtain ⟨scopes, _, _, _, _, _⟩ := w
  cases scopes <;> rfl

@[simp] theorem distances_define (w : Walk) (x : String) :
    (w.define x).distances = w.distances :=
  distances_mark w x true

@[simp] theorem distances_declare (w : Walk) (name : Token) :
    (w.declare name).distances = w.distances := by
  unfold declare
  split
  · rfl
  · simp

@[simp] theorem distances_introduce (w : Walk) (name : Token) :
    (w.introduce name).distances = w.distances := by
  simp [introduce]

@[simp] theorem distances_foldl_introduce (w : Walk) (names : List Token) :
    (names.foldl introduce w).distances = w.distances := by
  induction names generalizing w with
  | nil => rfl
  | cons name names ih => simp [ih]

/-! ### Scopes that show the names -/

/-- The scopes of the walk have these names. -/
def Shows (w : Walk) (scopes : Scopes) : Prop :=
  List.Forall₂ (fun (scope : Bindings Bool) names => ∀ x, scope.contains x = true ↔ x ∈ names)
    w.scopes scopes

/-- Where `this` and `super` may be used they are bound, one scope apart. -/
def Binds (c : ClassContext) (scopes : Scopes) : Prop :=
  (c ≠ .none → (scopes.distance? "this").isSome = true) ∧
    (c = .subclass → ∃ d, scopes.distance? "super" = some (d + 1) ∧
      scopes.distance? "this" = some d)

theorem Shows.of_place {scopes : Scopes} (h : v.place = w.place) (hw : w.Shows scopes) :
    v.Shows scopes := by
  rw [Shows, scopes_of_place h]
  exact hw

theorem Shows.distance? {scopes : Scopes} (h : w.Shows scopes) (x : String) :
    w.distance? x = scopes.distance? x := by
  unfold Walk.distance? Scopes.distance?
  unfold Shows at h
  revert h
  generalize w.scopes = ws
  intro h
  induction h with
  | nil => rfl
  | cons hb _ ih =>
    rw [List.findIdx?_cons, List.findIdx?_cons, ih]
    simp only [hb x, decide_eq_true_eq]

theorem Shows.openScope {scopes : Scopes} (h : w.Shows scopes) : w.openScope.Shows ([] :: scopes) :=
  .cons (by simp [Bindings.contains, Bindings.find?_empty]) h

theorem Shows.mark {scopes : Scopes} (h : w.Shows scopes) (x : String) (ready : Bool) :
    (w.mark x ready).Shows (scopes.declare x) := by
  obtain ⟨ws, _, _, _, _, _⟩ := w
  cases h with
  | nil => exact .nil
  | cons hb hs =>
    refine .cons (fun y => ?_) hs
    rw [Bindings.contains_insert, Bool.or_eq_true, hb y, beq_iff_eq, List.mem_cons]
    exact or_congr_left eq_comm

theorem Shows.define {scopes : Scopes} (h : w.Shows scopes) (x : String) :
    (w.define x).Shows (scopes.declare x) :=
  h.mark x true

theorem Shows.defineAll {scopes : Scopes} (h : w.Shows scopes) (xs : List String) :
    (w.defineAll xs).Shows (xs.foldl (fun scopes x => scopes.declare x) scopes) := by
  induction xs generalizing w scopes with
  | nil => exact h
  | cons x xs ih => exact ih (h.define x)

theorem Shows.fresh {scopes : Scopes} (h : w.Shows scopes) {x : String} (ht : w.Takes [x]) :
    scopes.Fresh x := by
  obtain ⟨ws, _, _, _, _, _⟩ := w
  cases h with
  | nil => trivial
  | cons hb hs =>
    have hx := (ht (by simp)).2 x (by simp)
    intro hm
    have hc := (hb x).2 hm
    simp only [innermost?] at hx
    simp [Bindings.contains, hx] at hc

theorem Shows.declare {scopes : Scopes} (h : w.Shows scopes) {name : Token}
    (ht : w.Takes [name.lexeme]) : (w.declare name).Shows (scopes.declare name.lexeme) := by
  have hn : w.innermost? name.lexeme = none := by
    by_cases hs : w.scopes = []
    · simp [innermost?, hs]
    · exact (ht hs).2 _ (by simp)
  rw [Walk.declare, hn]
  exact h.mark name.lexeme false

theorem Shows.pending {scopes : Scopes} {c : Surroundings} (h : w.Shows scopes)
    (hw : w.Reaches c) (x : String) :
    scopes.pending x = if c.isGlobal then none else some x := by
  rcases hs : scopes with _ | ⟨names, outer⟩
  · have : w.scopes = [] := by
      rw [Shows, hs, List.forall₂_nil_right_iff] at h
      exact h
    rw [hw.global.2 this]
    rfl
  · have : c.isGlobal = false := by
      rw [← Bool.not_eq_true, hw.global]
      intro hn
      rw [Shows, hn, hs] at h
      cases h
    rw [this]
    rfl

/-- Scopes that declare neither `this` nor `super` hide none of them. -/
theorem Binds.push {c : ClassContext} {scopes : Scopes} (h : Binds c scopes) {names : List String}
    (hn : ∀ x ∈ names, IsName x) : Binds c (names :: scopes) := by
  have ht : "this" ∉ names := fun hm => (hn _ hm).1 rfl
  have hs : "super" ∉ names := fun hm => (hn _ hm).2 rfl
  simp only [Binds, Scopes.distance?_cons, ht, hs, if_false, Option.isSome_map]
  refine ⟨h.1, fun hc => ?_⟩
  obtain ⟨d, hsuper, hthis⟩ := h.2 hc
  exact ⟨d + 1, by rw [hsuper]; rfl, by rw [hthis]; rfl⟩

theorem Binds.declare {c : ClassContext} {scopes : Scopes} (h : Binds c scopes) {x : String}
    (hx : IsName x) : Binds c (scopes.declare x) := by
  cases scopes with
  | nil => exact h
  | cons names outer =>
    have ht : "this" ∈ x :: names ↔ "this" ∈ names := by
      rw [List.mem_cons, or_iff_right (Ne.symm hx.1)]
    have hs : "super" ∈ x :: names ↔ "super" ∈ names := by
      rw [List.mem_cons, or_iff_right (Ne.symm hx.2)]
    simpa only [Binds, Scopes.declare, Scopes.distance?_cons, ht, hs] using h

theorem Binds.class (c : Surroundings) (superclass : Option Expr) (scopes : Scopes) :
    Binds (c.inside superclass).class (["this"] :: scopes.ofClass superclass) := by
  cases superclass <;>
    simp [Binds, Surroundings.inside, Scopes.ofClass, Scopes.distance?_cons]

end Scope.Walk

open Scope.Walk (Finds Shows Binds)

/-! ### What is noted at all -/

/-- The notes between two walks are about these occurrences. -/
def Scope.Walk.Notes (ids : List NodeId) (w v : Walk) : Prop :=
  ∃ notes : List (NodeId × Nat), v.distances = w.distances ++ notes.toArray ∧
    ∀ p ∈ notes, p.1 ∈ ids

theorem Scope.Walk.Notes.of_start {ids : List NodeId} {w : Walk} (h : Notes ids .start w) :
    ∃ notes : List (NodeId × Nat), w.distances = notes.toArray ∧ ∀ p ∈ notes, p.1 ∈ ids := by
  obtain ⟨notes, hd, hm⟩ := h
  exact ⟨notes, by simpa [start] using hd, hm⟩

/-- The notes between two walks are about these occurrences, one about each at most. -/
def Scope.Walk.NotesOnce (ids : List NodeId) (w v : Walk) : Prop :=
  ∃ notes : List (NodeId × Nat), v.distances = w.distances ++ notes.toArray ∧
    (notes.map Prod.fst).Subperm ids

namespace Scope.Walk.NotesOnce

variable {u v w : Walk} {xs ys : List NodeId}

theorem notes (h : NotesOnce xs w v) : Notes xs w v := by
  obtain ⟨notes, hd, hs⟩ := h
  exact ⟨notes, hd, fun p hp => hs.subset (List.mem_map_of_mem hp)⟩

theorem of_eq (h : v.distances = w.distances) (xs : List NodeId) : NotesOnce xs w v :=
  ⟨[], by simp [h], List.nil_subperm⟩

theorem note (w : Walk) (id : NodeId) (name : String) : NotesOnce [id] w (w.note id name) := by
  unfold Walk.note
  rcases w.distance? name with _ | d
  · exact of_eq rfl [id]
  · exact ⟨[(id, d)], by simp, .refl _⟩

theorem append (h : NotesOnce xs u v) (k : NotesOnce ys v w) : NotesOnce (xs ++ ys) u w := by
  obtain ⟨notes, hd, hs⟩ := h
  obtain ⟨notes', hd', hs'⟩ := k
  refine ⟨notes ++ notes', by simp [hd', hd], ?_⟩
  rw [List.map_append]
  exact hs.append hs'

theorem perm (h : NotesOnce xs w v) (hp : xs.Perm ys) : NotesOnce ys w v := by
  obtain ⟨notes, hd, hs⟩ := h
  exact ⟨notes, hd, hs.trans hp.subperm⟩

theorem of_distances {w' v' : Walk} (h : NotesOnce xs w v) (hw : w'.distances = w.distances)
    (hv : v'.distances = v.distances) : NotesOnce xs w' v' := by
  obtain ⟨notes, hd, hs⟩ := h
  exact ⟨notes, by rw [hv, hd, hw], hs⟩

end Scope.Walk.NotesOnce

open Scope.Walk (Notes NotesOnce)

mutual

theorem Expr.notedOnce : ∀ (e : Expr) (w : Walk), NotesOnce e.ids w (e.resolve w)
  | .literal _, _ => .of_eq rfl []
  | .grouping inner, w => Expr.notedOnce inner w
  | .unary _ right, w => Expr.notedOnce right w
  | .binary left _ right, w => (Expr.notedOnce left w).append (Expr.notedOnce right _)
  | .logical left _ right, w => (Expr.notedOnce left w).append (Expr.notedOnce right _)
  | .variable id name, w =>
    (NotesOnce.note _ id name.lexeme).of_distances (Walk.distances_reportIf w _ name _).symm rfl
  | .assign id name value, w => (Expr.notedOnce value w).append (.note _ id name.lexeme)
  | .call callee _ arguments, w => (Expr.notedOnce callee w).append (Expr.notedOnceAll arguments _)
  | .get object _, w => Expr.notedOnce object w
  | .set object _ value, w =>
    ((Expr.notedOnce value w).append (Expr.notedOnce object _)).perm List.perm_append_comm
  | .this id keyword, w => by
    simp only [Expr.resolve]
    split
    · exact .of_eq rfl _
    · exact .note w id keyword.lexeme
  | .super id keyword _, w => by
    refine (NotesOnce.note _ id keyword.lexeme).of_distances ?_ rfl
    split <;> rfl

theorem Expr.notedOnceAll : ∀ (es : List Expr) (w : Walk),
    NotesOnce (Expr.idsAll es) w (Expr.resolveAll es w)
  | [], _ => .of_eq rfl []
  | e :: es, w => (Expr.notedOnce e w).append (Expr.notedOnceAll es _)

end

theorem Expr.notedOnceOption (e : Option Expr) (w : Walk) :
    NotesOnce (Expr.idsOption e) w (Expr.resolveOption e w) := by
  cases e with
  | none => exact .of_eq rfl []
  | some e => exact Expr.notedOnce e w

theorem Expr.notedOnceSuperclass (name : Token) (e : Option Expr) (w : Walk) :
    NotesOnce (Expr.idsOption e) w (Expr.resolveSuperclass name e w) := by
  cases e with
  | none => exact .of_eq rfl []
  | some e =>
    refine (Expr.notedOnce e _).of_distances ?_ (Walk.distances_define _ "super")
    split <;> simp

mutual

theorem Stmt.notedOnce : ∀ (s : Stmt) (w : Walk), NotesOnce s.ids w (s.resolve w)
  | .expression value, w => Expr.notedOnce value w
  | .print value, w => Expr.notedOnce value w
  | .var name initializer, w =>
    (Expr.notedOnceOption initializer _).of_distances (Walk.distances_declare w name).symm
      (Walk.distances_define _ name.lexeme)
  | .block body, w => Stmt.notedOnceAll body w.openScope
  | .if condition thenBranch none, w =>
    (Expr.notedOnce condition w).append (Stmt.notedOnce thenBranch _)
  | .if condition thenBranch (some elseBranch), w =>
    (Expr.notedOnce condition w).append
      ((Stmt.notedOnce thenBranch _).append (Stmt.notedOnce elseBranch _))
  | .while condition body, w =>
    (Expr.notedOnce condition w).append (Stmt.notedOnce body { condition.resolve w with
      loopDepth := (condition.resolve w).loopDepth + 1 })
  | .break keyword, w => .of_eq (Walk.distances_reportIf w _ keyword _) []
  | .function decl, w =>
    (FunDecl.notedOnce .function decl _).of_distances
      (Walk.distances_introduce w decl.name).symm rfl
  | .return keyword value, w => (Expr.notedOnceOption value _).of_distances (by simp) rfl
  | .class name superclass methods, w => by
    have hs := Expr.notedOnceSuperclass name superclass
      (Walk.introduce { w with classContext := .class } name)
    have hm := FunDecl.notedOnceAll methods ((Expr.resolveSuperclass name superclass
      (Walk.introduce { w with classContext := .class } name)).openScope.define "this")
    refine (hs.append (hm.of_distances (by simp [Walk.openScope]) rfl)).of_distances (by simp) ?_
    simp only [Stmt.resolve]
    split <;> rfl

theorem Stmt.notedOnceAll : ∀ (ss : List Stmt) (w : Walk),
    NotesOnce (Stmt.idsAll ss) w (Stmt.resolveAll ss w)
  | [], _ => .of_eq rfl []
  | s :: ss, w => (Stmt.notedOnce s w).append (Stmt.notedOnceAll ss _)

theorem FunDecl.notedOnce (context : FunctionContext) :
    ∀ (f : FunDecl) (w : Walk), NotesOnce f.ids w (f.resolve context w)
  | ⟨_, params, body⟩, w =>
    (Stmt.notedOnceAll body (params.foldl Walk.introduce
      (Walk.openScope { w with functionContext := context, loopDepth := 0 }))).of_distances
      (by simp [Walk.openScope]) rfl

theorem FunDecl.notedOnceAll : ∀ (fs : List FunDecl) (w : Walk),
    NotesOnce (FunDecl.idsAll fs) w (FunDecl.resolveAll fs w)
  | [], _ => .of_eq rfl []
  | f :: fs, w => (FunDecl.notedOnce f.methodContext f w).append (FunDecl.notedOnceAll fs _)

end

theorem Expr.notes (e : Expr) (w : Walk) : Notes e.ids w (e.resolve w) :=
  (Expr.notedOnce e w).notes

theorem Stmt.notesAll (ss : List Stmt) (w : Walk) :
    Notes (Stmt.idsAll ss) w (Stmt.resolveAll ss w) :=
  (Stmt.notedOnceAll ss w).notes

/-! ### Expressions -/

mutual

theorem Expr.scoped_of_legal {c : ClassContext} {pending : Option String} {scopes : Scopes} :
    ∀ (e : Expr) {w : Walk}, w.classContext = c → w.Shows scopes → Binds c scopes →
      e.Formed Token.Spelled → e.Legal c pending → e.ids.Nodup →
      Finds e.ids w (e.resolve w) fun far => e.Scoped far scopes pending
  | .literal _, _, _, _, _, _, _, _ => .nil rfl fun _ => trivial
  | .grouping inner, _, hc, hw, hb, hf, hl, hn =>
    Expr.scoped_of_legal inner hc hw hb hf hl hn
  | .unary _ right, _, hc, hw, hb, hf, hl, hn => Expr.scoped_of_legal right hc hw hb hf hl hn
  | .binary left _ right, w, hc, hw, hb, hf, hl, hn => by
    have hp := Expr.place_resolve left w
    have hc' := (Walk.classContext_of_place hp).trans hc
    exact (Expr.scoped_of_legal left hc hw hb hf.1 hl.1 hn.of_append_left).append
      (Expr.scoped_of_legal right hc' (hw.of_place hp) hb hf.2 hl.2 hn.of_append_right) hn
  | .logical left _ right, w, hc, hw, hb, hf, hl, hn => by
    have hp := Expr.place_resolve left w
    have hc' := (Walk.classContext_of_place hp).trans hc
    exact (Expr.scoped_of_legal left hc hw hb hf.1 hl.1 hn.of_append_left).append
      (Expr.scoped_of_legal right hc' (hw.of_place hp) hb hf.2 hl.2 hn.of_append_right) hn
  | .variable id name, w, _, hw, _, _, hl, _ => by
    have hs := hw.of_place (Walk.place_reportIf w (w.innermost? name.lexeme == some false) name
      .ownInitializer)
    refine (Finds.of_distances (.note _ id name.lexeme)
      (Walk.distances_reportIf w _ name _).symm rfl).imp fun far h => ?_
    rw [hs.distance?] at h
    exact ⟨h, hl⟩
  | .assign id name value, w, hc, hw, hb, hf, hl, hn => by
    have hs := hw.of_place (Expr.place_resolve value w)
    refine ((Expr.scoped_of_legal value hc hw hb hf.2 hl hn.of_append_left).append
      (.note _ id name.lexeme) hn).imp fun far h => ⟨h.1, ?_, hf.1.2.isName hf.1.1⟩
    rw [← hs.distance?]
    exact h.2
  | .call callee _ arguments, w, hc, hw, hb, hf, hl, hn => by
    have hp := Expr.place_resolve callee w
    have hc' := (Walk.classContext_of_place hp).trans hc
    exact (Expr.scoped_of_legal callee hc hw hb hf.1 hl.1 hn.of_append_left).append
      (Expr.scopedAll_of_legal arguments hc' (hw.of_place hp) hb hf.2 hl.2 hn.of_append_right) hn
  | .get object _, _, hc, hw, hb, hf, hl, hn => Expr.scoped_of_legal object hc hw hb hf hl hn
  | .set object _ value, w, hc, hw, hb, hf, hl, hn => by
    have hp := Expr.place_resolve value w
    have hc' := (Walk.classContext_of_place hp).trans hc
    exact (((Expr.scoped_of_legal value hc hw hb hf.2 hl.1 hn.of_append_right).append
      (Expr.scoped_of_legal object hc' (hw.of_place hp) hb hf.1 hl.2 hn.of_append_left)
      (List.nodup_append_comm.1 hn)).perm List.perm_append_comm).imp fun far h => h.symm
  | .this id keyword, w, hc, hw, hb, hf, hl, _ => by
    have hk : keyword.lexeme = "this" := hf.2.keyword hf.1
    have hr : (Expr.this id keyword).resolve w = w.note id keyword.lexeme := by
      simp only [Expr.resolve]
      split
      · next h => exact absurd (hc.symm.trans h) hl
      · rfl
    rw [hr]
    refine (Finds.note w id keyword.lexeme).imp fun far h => ⟨hk, hb.1 hl, ?_⟩
    rw [hw.distance?, hk] at h
    exact h
  | .super id keyword method, w, hc, hw, hb, hf, hl, _ => by
    have hk : keyword.lexeme = "super" := hf.2.keyword hf.1
    have hr : (Expr.super id keyword method).resolve w = w.note id keyword.lexeme := by
      have hcs : w.classContext = .subclass := hc.trans hl
      simp only [Expr.resolve, hcs]
    rw [hr]
    refine (Finds.note w id keyword.lexeme).imp fun far h => ?_
    obtain ⟨d, hsuper, hthis⟩ := hb.2 hl
    rw [hw.distance?, hk, hsuper] at h
    exact ⟨d, h, hsuper, hthis⟩

theorem Expr.scopedAll_of_legal {c : ClassContext} {pending : Option String} {scopes : Scopes} :
    ∀ (es : List Expr) {w : Walk}, w.classContext = c → w.Shows scopes → Binds c scopes →
      Expr.FormedAll Token.Spelled es → Expr.LegalAll c pending es → (Expr.idsAll es).Nodup →
      Finds (Expr.idsAll es) w (Expr.resolveAll es w) fun far =>
        Expr.ScopedAll far scopes pending es
  | [], _, _, _, _, _, _, _ => .nil rfl fun _ => trivial
  | e :: es, w, hc, hw, hb, hf, hl, hn => by
    have hp := Expr.place_resolve e w
    have hc' := (Walk.classContext_of_place hp).trans hc
    exact (Expr.scoped_of_legal e hc hw hb hf.1 hl.1 hn.of_append_left).append
      (Expr.scopedAll_of_legal es hc' (hw.of_place hp) hb hf.2 hl.2 hn.of_append_right) hn

end

theorem Expr.scopedOption_of_legal {c : ClassContext} {pending : Option String} {scopes : Scopes}
    (e : Option Expr) {w : Walk} (hc : w.classContext = c) (hw : w.Shows scopes)
    (hb : Binds c scopes) (hf : Expr.FormedOption Token.Spelled e)
    (hl : Expr.LegalOption c pending e) (hn : (Expr.idsOption e).Nodup) :
    Finds (Expr.idsOption e) w (Expr.resolveOption e w) fun far =>
      Expr.ScopedOption far scopes pending e := by
  cases e with
  | none => exact .nil rfl fun _ => trivial
  | some e => exact Expr.scoped_of_legal e hc hw hb hf hl hn

/-! ### Statements -/

theorem Scopes.distance?_declare {x y : String} (h : y ≠ x) (scopes : Scopes) :
    (scopes.declare x).distance? y = scopes.distance? y := by
  cases scopes with
  | nil => rfl
  | cons names outer => simp [Scopes.declare, Scopes.distance?_cons, h]

theorem Scope.Walk.Shows.superclass {w : Walk} {scopes : Scopes} (h : w.Shows scopes) (name : Token)
    (superclass : Option Expr) :
    (Expr.resolveSuperclass name superclass w).Shows (scopes.ofClass superclass) := by
  have hp := Expr.place_resolveSuperclass name superclass w
  cases superclass with
  | none => exact h.of_place hp
  | some e =>
    have hs : Shows { w with classContext := .subclass } scopes := h
    refine (hs.openScope.define "super").of_place (hp.trans ?_)
    rw [Walk.place_define _ "super"]
    rfl

/-- The class is declared when its superclass is looked up, but is not its own superclass. -/
theorem Expr.superclass_scoped_of_legal {w : Walk} {scopes : Scopes} (name : Token)
    {superclass : Option Expr} (hw : w.Shows (scopes.declare name.lexeme))
    (hs : Expr.NamesSuperclass Token.Spelled superclass)
    (hl : Expr.LegalSuperclass name superclass) :
    Finds (Expr.idsOption superclass) w (Expr.resolveSuperclass name superclass w) fun far =>
      Expr.ScopedOption far scopes none superclass := by
  cases superclass with
  | none => exact .nil rfl fun _ => trivial
  | some e =>
    obtain ⟨id, parent, rfl, -⟩ := hs
    have hv := (Finds.note w id parent.lexeme)
    rw [hw.distance?, Scopes.distance?_declare hl] at hv
    refine (hv.of_distances rfl ?_).imp fun far h => ⟨h, by simp⟩
    simp only [Expr.resolveSuperclass, Expr.resolve, Walk.distances_define]
    exact Walk.distances_note_congr (by simp) (by simp)

theorem Stmt.declare_eq (s : Stmt) (scopes : Scopes) :
    s.declare scopes = (Stmt.names [s]).foldl (fun scopes x => scopes.declare x) scopes := by
  unfold Stmt.declare
  rcases h : s.declared? with _ | name <;> simp [Stmt.names, h]

theorem FunDecl.Formed.isName {f : FunDecl} (h : f.Formed Token.Spelled) : IsName f.name.lexeme := by
  obtain ⟨name, params, body⟩ := f
  exact h.1.2.isName h.1.1

theorem Stmt.Formed.isName {s : Stmt} (h : s.Formed Token.Spelled) {name : Token}
    (hd : s.declared? = some name) : IsName name.lexeme := by
  cases s with
  | var name initializer =>
    cases hd
    exact h.1.2.isName h.1.1
  | function decl =>
    cases hd
    exact FunDecl.Formed.isName h
  | «class» name superclass methods =>
    cases hd
    exact h.1.2.isName h.1.1
  | _ => cases hd

theorem Stmt.Formed.binds {s : Stmt} (h : s.Formed Token.Spelled) {c : ClassContext}
    {scopes : Scopes} (hb : Binds c scopes) : Binds c (s.declare scopes) := by
  unfold Stmt.declare
  rcases hd : s.declared? with _ | name
  · exact hb
  · exact hb.declare (h.isName hd)

theorem Scopes.declare_all (xs names : List String) (outer : Scopes) :
    xs.foldl (fun scopes x => Scopes.declare x scopes) (names :: outer) =
      (xs.reverse ++ names) :: outer := by
  induction xs generalizing names with
  | nil => rfl
  | cons x xs ih => exact (ih (x :: names)).trans (by simp)

mutual

theorem Stmt.scoped_of_legal {c : Surroundings} {scopes : Scopes} :
    ∀ (s : Stmt) {w : Walk}, w.Reaches c → w.Shows scopes → Binds c.class scopes →
      s.Formed Token.Spelled → w.Takes (Stmt.names [s]) → s.Legal c → s.ids.Nodup →
      Finds s.ids w (s.resolve w) fun far => s.Scoped far scopes
  | .expression value, _, hr, hw, hb, hf, _, hl, hn =>
    Expr.scoped_of_legal value hr.class hw hb hf hl hn
  | .print value, _, hr, hw, hb, hf, _, hl, hn =>
    Expr.scoped_of_legal value hr.class hw hb hf hl hn
  | .var name initializer, w, hr, hw, hb, hf, ht, hl, hn => by
    have hx : IsName name.lexeme := hf.1.2.isName hf.1.1
    have hc := (Walk.awaits_declare hr ht).class
    have hi := Expr.scopedOption_of_legal initializer hc (hw.declare ht) (hb.declare hx) hf.2 hl hn
    rw [← hw.pending hr] at hi
    exact (hi.of_distances (Walk.distances_declare w name).symm (Walk.distances_define _ _)).imp
      fun far h => ⟨hx, hw.fresh ht, h⟩
  | .block body, w, hr, hw, hb, hf, _, hl, hn =>
    Stmt.scopedAll_of_legal body hr.openScope hw.openScope (hb.push (by simp)) hf
      ((Walk.takes_openScope w _).2 hl.1) hl.2 hn
  | .if condition thenBranch none, w, hr, hw, hb, hf, _, hl, hn => by
    have hp := Expr.place_resolve condition w
    have ht := Walk.takes_branch hf.2.1 (condition.resolve w)
    exact ((Expr.scoped_of_legal condition hr.class hw hb hf.1 hl.1 hn.of_append_left).append
      (Stmt.scoped_of_legal thenBranch (hr.of_place hp) (hw.of_place hp) hb hf.2.2 ht hl.2
        hn.of_append_right) hn).imp fun far h => ⟨h.1, hf.2.1, h.2⟩
  | .if condition thenBranch (some elseBranch), w, hr, hw, hb, hf, _, hl, hn => by
    have hp := Expr.place_resolve condition w
    have hp' := (Stmt.place_resolve_branch hf.2.1.1 (condition.resolve w) hf.2.1.2).trans hp
    have ht := Walk.takes_branch hf.2.1.1 (condition.resolve w)
    have ht' := Walk.takes_branch hf.2.2.1 (thenBranch.resolve (condition.resolve w))
    have hn' := hn.of_append_right
    have hthen := Stmt.scoped_of_legal thenBranch (hr.of_place hp) (hw.of_place hp) hb hf.2.1.2 ht
      hl.2.1 hn'.of_append_left
    have helse := Stmt.scoped_of_legal elseBranch (hr.of_place hp') (hw.of_place hp') hb hf.2.2.2
      ht' hl.2.2 hn'.of_append_right
    exact ((Expr.scoped_of_legal condition hr.class hw hb hf.1 hl.1 hn.of_append_left).append
      (hthen.append helse hn') hn).imp
        fun far h => ⟨h.1, ⟨hf.2.1.1, h.2.1⟩, hf.2.2.1, h.2.2⟩
  | .while condition body, w, hr, hw, hb, hf, _, hl, hn => by
    have hp := Expr.place_resolve condition w
    have hs : (condition.resolve w).Shows scopes := hw.of_place hp
    have hbody := Stmt.scoped_of_legal body (hr.of_place hp).enterLoop hs hb hf.2.2
      (Walk.takes_branch hf.2.1 _) hl.2 hn.of_append_right
    exact ((Expr.scoped_of_legal condition hr.class hw hb hf.1 hl.1 hn.of_append_left).append
      (hbody.of_distances rfl rfl) hn).imp fun far h => ⟨h.1, hf.2.1, h.2⟩
  | .break keyword, w, _, _, _, _, _, _, _ =>
    .nil (Walk.distances_reportIf w _ keyword _) fun _ => trivial
  | .function decl, w, hr, hw, hb, hf, ht, hl, hn => by
    -- The function is ready before its body is walked, so it may call itself.
    have hp := Walk.place_introduce_eq_define w decl.name
    have hx : IsName decl.name.lexeme := FunDecl.Formed.isName hf
    have hd := FunDecl.scoped_of_legal .function decl ((hr.define _).of_place hp)
      ((hw.define _).of_place hp) (hb.declare hx) hf hl hn
    exact (hd.of_distances (Walk.distances_introduce w decl.name).symm rfl).imp
      fun far h => ⟨hx, hw.fresh ht, h⟩
  | .return keyword value, w, hr, hw, hb, hf, _, hl, hn => by
    have hv {u : Walk} (hp : u.place = w.place) :=
      Expr.scopedOption_of_legal value (hr.of_place hp).class (hw.of_place hp) hb hf hl.2.2 hn
    exact (hv (by simp)).of_distances (by simp) rfl
  | .class name superclass methods, w, hr, hw, hb, hf, ht, hl, hn => by
    have hnamed := Walk.place_introduce_eq_define { w with classContext := .class } name
    have hs : Shows { w with classContext := .class } scopes := hw
    have hw' := (hs.define name.lexeme).of_place hnamed
    have hsuper := Expr.superclass_scoped_of_legal name hw' hf.2.1 hl.1
    have hmethods := FunDecl.scopedAll_of_legal methods (hr.inside name superclass)
      (((hw'.superclass name superclass).openScope).define "this") (.class c superclass _) hf.2.2
      hl.2 hn.of_append_right
    have hall := hsuper.append (hmethods.of_distances (by simp [Walk.openScope]) rfl) hn
    refine (hall.of_distances (Walk.distances_introduce _ name).symm ?_).imp
      fun far h => ⟨hf.1.2.isName hf.1.1, hw.fresh ht, h⟩
    simp only [Stmt.resolve]
    split <;> rfl

theorem Stmt.scopedAll_of_legal {c : Surroundings} {scopes : Scopes} :
    ∀ (ss : List Stmt) {w : Walk}, w.Reaches c → w.Shows scopes → Binds c.class scopes →
      Stmt.FormedAll Token.Spelled ss → w.Takes (Stmt.names ss) → Stmt.LegalAll c ss →
      (Stmt.idsAll ss).Nodup →
      Finds (Stmt.idsAll ss) w (Stmt.resolveAll ss w) fun far => Stmt.ScopedAll far scopes ss
  | [], _, _, _, _, _, _, _, _ => .nil rfl fun _ => trivial
  | s :: ss, w, hr, hw, hb, hf, ht, hl, hn => by
    have hp := (Stmt.place_resolve s w hf.1).trans (Walk.place_defineAll w (Stmt.names [s])).symm
    rw [Stmt.names_cons, Walk.takes_append, ← Walk.takes_of_place hp] at ht
    have hw' := (hw.defineAll (Stmt.names [s])).of_place hp
    rw [← Stmt.declare_eq] at hw'
    exact (Stmt.scoped_of_legal s hr hw hb hf.1 ht.1 hl.1 hn.of_append_left).append
      (Stmt.scopedAll_of_legal ss ((hr.defineAll _).of_place hp) hw' (hf.1.binds hb) hf.2 ht.2
        hl.2 hn.of_append_right) hn

theorem FunDecl.scoped_of_legal {c : Surroundings} {scopes : Scopes} (context : FunctionContext) :
    ∀ (f : FunDecl) {w : Walk}, w.Reaches c → w.Shows scopes → Binds c.class scopes →
      f.Formed Token.Spelled → f.Legal c context → f.ids.Nodup →
      Finds f.ids w (f.resolve context w) fun far => f.Scoped far scopes
  | ⟨name, params, body⟩, w, hr, hw, hb, hf, hl, hn => by
    have hp := Walk.place_foldl_introduce_eq_defineAll
      (Walk.openScope { w with functionContext := context, loopDepth := 0 }) params
    have hin := (hr.enterFunction context).openScope.defineAll (params.map (·.lexeme))
    have hs : Shows { w with functionContext := context, loopDepth := 0 } scopes := hw
    have hw' := (hs.openScope.defineAll (params.map (·.lexeme))).of_place hp
    rw [Scopes.declare_all, List.append_nil] at hw'
    have hx : ∀ p ∈ params, IsName p.lexeme := fun p hm => (hf.2.1 p hm).2.isName (hf.2.1 p hm).1
    have ht : Walk.Takes (params.foldl Walk.introduce
        (Walk.openScope { w with functionContext := context, loopDepth := 0 })) (Stmt.names body) := by
      rw [Walk.takes_of_place hp]
      exact ((Walk.takes_append _ _ _).1 ((Walk.takes_openScope _ _).2 hl.1)).2
    have hbody := Stmt.scopedAll_of_legal body (hin.of_place hp) hw'
      (hb.push (by simpa using hx)) hf.2.2 ht hl.2 hn
    exact (hbody.of_distances (Walk.distances_foldl_introduce _ params).symm rfl).imp
      fun far h => ⟨hx, hl.1.of_append_left, h⟩

theorem FunDecl.scopedAll_of_legal {c : Surroundings} {scopes : Scopes} :
    ∀ (fs : List FunDecl) {w : Walk}, w.Reaches c → w.Shows scopes → Binds c.class scopes →
      FunDecl.FormedAll Token.Spelled fs → FunDecl.LegalAll c fs → (FunDecl.idsAll fs).Nodup →
      Finds (FunDecl.idsAll fs) w (FunDecl.resolveAll fs w) fun far =>
        FunDecl.ScopedAll far scopes fs
  | [], _, _, _, _, _, _, _ => .nil rfl fun _ => trivial
  | f :: fs, w, hr, hw, hb, hf, hl, hn => by
    have hp := FunDecl.place_resolve f.methodContext f w
    exact (FunDecl.scoped_of_legal f.methodContext f hr hw hb hf.1 hl.1 hn.of_append_left).append
      (FunDecl.scopedAll_of_legal fs (hr.of_place hp) (hw.of_place hp) hb hf.2 hl.2
        hn.of_append_right) hn

end

/-! ### Whole inputs -/

theorem Scope.shows_start : Shows .start [] := .nil

theorem Scope.binds_start (scopes : Scopes) : Binds .none scopes :=
  ⟨fun h => absurd rfl h, by simp⟩

theorem Scope.finds_resolve {program : List Stmt} (hf : Stmt.FormedAll Token.Spelled program)
    (hn : (Stmt.idsAll program).Nodup) (he : (resolve program).errors = #[]) :
    Finds (Stmt.idsAll program) .start (resolve program) fun far =>
      Stmt.ScopedAll far [] program :=
  Stmt.scopedAll_of_legal program Walk.reaches_start shows_start (binds_start []) hf
    (fun h => absurd rfl h) ((errors_resolve_eq hf).1 he) hn

theorem Scope.finds_resolveExpression {e : Expr} (hf : e.Formed Token.Spelled)
    (hn : e.ids.Nodup) (he : (resolveExpression e).errors = #[]) :
    Finds e.ids .start (resolveExpression e) fun far => e.Scoped far [] none :=
  Expr.scoped_of_legal e rfl shows_start (binds_start []) hf
    ((Expr.silent_iff e Walk.reaches_start.awaits).1 he) hn

end Lox

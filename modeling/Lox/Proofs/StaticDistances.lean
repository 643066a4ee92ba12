import Lox.Proofs.Distances
import Lox.Proofs.Violations

/-!
# Distances are static

The scopes around a place in a program can be told without walking the program: blocks and the bodies
of functions, each with the names whose declarations begin before the place, and around a method the
scope of `this` and that of `super`. What a silent walk notes about an occurrence of a name is how
many of these scopes lie inside the innermost one with the name, once, and nothing when none has it.
-/

namespace Lox

open Scope
open Scope.Walk (Finds Shows NotesOnce)

/-! ### Places and their scopes -/

/-- Right inside the node, behind these scopes, stands the part. A declaration begins before whatever
stands in it. -/
inductive Node.Opens : Node → Scopes → Node → Prop
  | expr {e part : Expr} : part ∈ e.parts → Opens (.expr e) [] (.expr part)
  | stmt {s : Stmt} {around : List Enclosure} {part : Node} :
    (around, part) ∈ s.parts → (∀ e ∈ around, e.isLocal = false) → Opens (.stmt s) [] part
  | block (before : List Stmt) (s : Stmt) (after : List Stmt) :
    Opens (.stmt (.block (before ++ s :: after))) [Stmt.names (before ++ [s])] (.stmt s)
  | function (decl : FunDecl) : Opens (.stmt (.function decl)) [] (.decl decl)
  | method {name : Token} {superclass : Option Expr} {methods : List FunDecl} {f : FunDecl} :
    f ∈ methods →
    Opens (.stmt (.class name superclass methods)) (["this"] :: Scopes.ofClass superclass [])
      (.decl f)
  | body (name : Token) (params : List Token) (before : List Stmt) (s : Stmt) (after : List Stmt) :
    Opens (.decl ⟨name, params, before ++ s :: after⟩)
      [params.map (·.lexeme) ++ Stmt.names (before ++ [s])] (.stmt s)

/-- At some depth of the node, behind these scopes, innermost first, stands the part. -/
inductive Node.Stands : Node → Scopes → Node → Prop
  | self (node : Node) : Stands node [] node
  | inside {node part inner : Node} {opened scopes : Scopes} :
    Opens node opened part → Stands part scopes inner → Stands node (scopes ++ opened) inner

/-- The id and the name of an occurrence. -/
def Expr.named? : Expr → Option (NodeId × String)
  | .variable id name => some (id, name.lexeme)
  | .assign id name _ => some (id, name.lexeme)
  | .this id keyword => some (id, keyword.lexeme)
  | .super id keyword _ => some (id, keyword.lexeme)
  | _ => none

section

variable {far : NodeId → Option Nat → Prop} {scopes : Scopes}

/-- The table is right for every occurrence in the node, which these scopes surround. -/
def Node.Bound (far : NodeId → Option Nat → Prop) (scopes : Scopes) (node : Node) : Prop :=
  ∀ opened e id name, node.Stands opened (.expr e) → e.named? = some (id, name) →
    far id ((opened ++ scopes).distance? name)

theorem Node.bound_iff {node : Node} : node.Bound far scopes ↔
    (∀ e id name, node = .expr e → e.named? = some (id, name) → far id (scopes.distance? name)) ∧
      ∀ opened part, node.Opens opened part → part.Bound far (opened ++ scopes) := by
  constructor
  · intro h
    refine ⟨?_, fun opened part ho inner e id name hs hn => ?_⟩
    · rintro e id name rfl hn
      exact h [] e id name (.self _) hn
    · rw [← List.append_assoc]
      exact h (inner ++ opened) e id name (.inside ho hs) hn
  · rintro ⟨h, hs⟩ opened e id name (_ | ⟨ho, hi⟩) hn
    · exact h e id name rfl hn
    · rw [List.append_assoc]
      exact hs _ _ ho _ e id name hi hn

theorem Expr.bound_iff {e : Expr} : (Node.expr e).Bound far scopes ↔
    (∀ id name, e.named? = some (id, name) → far id (scopes.distance? name)) ∧
      ∀ part ∈ e.parts, (Node.expr part).Bound far scopes := by
  rw [Node.bound_iff]
  refine and_congr ⟨fun h id name => h e id name rfl, ?_⟩ ⟨fun h part hp => h [] _ (.expr hp), ?_⟩
  · rintro h _ id name ⟨⟩ hn
    exact h id name hn
  · rintro h _ _ (hp | _)
    exact h _ hp

/-- Expressions that are no occurrence of a name themselves. -/
theorem Expr.bound_of_parts {e : Expr} (h : ∀ part ∈ e.parts, (Node.expr part).Bound far scopes)
    (hn : e.named? = none := by rfl) : (Node.expr e).Bound far scopes :=
  Expr.bound_iff.2 ⟨fun id name he => by simp [hn] at he, h⟩

/-- A statement holds no occurrence but those in its parts. -/
theorem Stmt.bound_iff {s : Stmt} : (Node.stmt s).Bound far scopes ↔
    ∀ opened part, (Node.stmt s).Opens opened part → part.Bound far (opened ++ scopes) := by
  rw [Node.bound_iff, and_iff_right]
  rintro _ _ _ ⟨⟩

/-- Statements none of whose parts stands in a scope of its own. -/
theorem Stmt.bound_of_parts {s : Stmt} (hs : ∀ p ∈ s.parts, ∀ e ∈ p.1, e.isLocal = false)
    (h : ∀ p ∈ s.parts, p.2.Bound far scopes) : (Node.stmt s).Bound far scopes := by
  rw [Stmt.bound_iff]
  intro opened part ho
  cases ho with
  | stmt hp _ => exact h _ hp
  | block before s after =>
    have := hs ([.block], .stmt s) (by simp [Stmt.parts]) .block (by simp)
    cases this
  | function decl =>
    have := hs ([.function decl], .decl decl) (by simp [Stmt.parts]) (.function decl) (by simp)
    cases this
  | @method name superclass methods f hf =>
    have := hs ([.method f, .class superclass], .decl f) (by simp [Stmt.parts, hf]) (.method f)
      (by simp)
    cases this

theorem FunDecl.bound_iff {name : Token} {params : List Token} {body : List Stmt} :
    (Node.decl ⟨name, params, body⟩).Bound far scopes ↔
      ∀ before s after, body = before ++ s :: after →
        (Node.stmt s).Bound far
          ((params.map (·.lexeme) ++ Stmt.names (before ++ [s])) :: scopes) := by
  rw [Node.bound_iff, and_iff_right (by rintro _ _ _ ⟨⟩)]
  constructor
  · rintro h before s after rfl
    exact h _ _ (.body name params before s after)
  · rintro h _ _ (_ | _ | _ | _ | _ | ⟨_, _, before, s, after⟩)
    exact h before s after rfl

end

/-! ### What a walk notes -/

namespace Scope.Walk

variable {v w : Walk}

theorem Shows.congr {names names' : List String} {outer : Scopes} (h : w.Shows (names :: outer))
    (hn : ∀ x, x ∈ names ↔ x ∈ names') : w.Shows (names' :: outer) := by
  obtain ⟨ws, _, _, _, _, _⟩ := w
  cases h with
  | cons hb hs => exact .cons (fun x => (hb x).trans (hn x)) hs

/-- A declared name is in the scope, ready or not. -/
theorem Shows.of_define {scopes : Scopes} {name : Token} (h : (w.define name.lexeme).Shows scopes) :
    (w.declare name).Shows scopes := by
  obtain ⟨ws, _, _, _, _, _⟩ := w
  unfold Shows at h ⊢
  cases ws with
  | nil => exact h
  | cons scope outer =>
    obtain _ | ⟨hb, hs⟩ := h
    rw [Walk.declare]
    split
    · next hfound =>
      have hfound : scope.contains name.lexeme = true := hfound
      refine .cons (fun x => ?_) hs
      rw [← hb x, Bindings.contains_insert]
      by_cases hx : name.lexeme = x
      · rw [← hx, hfound, Bool.or_true]
      · rw [beq_eq_false_iff_ne.2 hx, Bool.false_or]
    · refine .cons (fun x => ?_) hs
      rw [← hb x, Bindings.contains_insert, Bindings.contains_insert]

theorem classContext_declare (w : Walk) (name : Token) :
    (w.declare name).classContext = w.classContext := by
  obtain ⟨ws, _, _, _, _, _⟩ := w
  unfold declare
  split
  · rfl
  · cases ws <;> rfl

/-- A statement declares its name beside those that its scope has. -/
theorem Shows.names {own : List String} {outer : Scopes} (h : w.Shows (own :: outer)) (s : Stmt) :
    (w.defineAll (Stmt.names [s])).Shows ((own ++ Stmt.names [s]) :: outer) := by
  have hs := h.defineAll (Stmt.names [s])
  rw [Scopes.declare_all] at hs
  exact hs.congr (by simp [or_comm])

end Scope.Walk

/-! ### Expressions -/

mutual

theorem Expr.bound_of_legal {c : ClassContext} {pending : Option String} {scopes : Scopes} :
    ∀ (e : Expr) {w : Walk}, w.classContext = c → w.Shows scopes → e.Legal c pending →
      e.ids.Nodup → Finds e.ids w (e.resolve w) fun far => (Node.expr e).Bound far scopes
  | .literal _, _, _, _, _, _ =>
    .nil rfl fun _ => Expr.bound_of_parts (by simp [Expr.parts])
  | .grouping inner, _, hc, hw, hl, hn =>
    (Expr.bound_of_legal inner hc hw hl hn).imp fun _ h =>
      Expr.bound_of_parts (by simpa [Expr.parts] using h)
  | .unary _ right, _, hc, hw, hl, hn =>
    (Expr.bound_of_legal right hc hw hl hn).imp fun _ h =>
      Expr.bound_of_parts (by simpa [Expr.parts] using h)
  | .binary left _ right, w, hc, hw, hl, hn => by
    have hp := Expr.place_resolve left w
    have hc' := (Walk.classContext_of_place hp).trans hc
    exact ((Expr.bound_of_legal left hc hw hl.1 hn.of_append_left).append
      (Expr.bound_of_legal right hc' (hw.of_place hp) hl.2 hn.of_append_right) hn).imp fun _ h =>
        Expr.bound_of_parts (by simpa [Expr.parts] using h)
  | .logical left _ right, w, hc, hw, hl, hn => by
    have hp := Expr.place_resolve left w
    have hc' := (Walk.classContext_of_place hp).trans hc
    exact ((Expr.bound_of_legal left hc hw hl.1 hn.of_append_left).append
      (Expr.bound_of_legal right hc' (hw.of_place hp) hl.2 hn.of_append_right) hn).imp fun _ h =>
        Expr.bound_of_parts (by simpa [Expr.parts] using h)
  | .variable id name, w, _, hw, _, _ => by
    have hs := hw.of_place (Walk.place_reportIf w (w.innermost? name.lexeme == some false) name
      .ownInitializer)
    refine (Finds.of_distances (.note _ id name.lexeme)
      (Walk.distances_reportIf w _ name _).symm rfl).imp fun far h => ?_
    rw [hs.distance?] at h
    exact Expr.bound_iff.2 ⟨by rintro _ _ ⟨⟩; exact h, by simp [Expr.parts]⟩
  | .assign id name value, w, hc, hw, hl, hn => by
    have hs := hw.of_place (Expr.place_resolve value w)
    refine ((Expr.bound_of_legal value hc hw hl hn.of_append_left).append
      (.note _ id name.lexeme) hn).imp fun far h => ?_
    rw [hs.distance?] at h
    exact Expr.bound_iff.2 ⟨by rintro _ _ ⟨⟩; exact h.2, by simpa [Expr.parts] using h.1⟩
  | .call callee _ arguments, w, hc, hw, hl, hn => by
    have hp := Expr.place_resolve callee w
    have hc' := (Walk.classContext_of_place hp).trans hc
    exact ((Expr.bound_of_legal callee hc hw hl.1 hn.of_append_left).append
      (Expr.boundAll_of_legal arguments hc' (hw.of_place hp) hl.2 hn.of_append_right) hn).imp
        fun _ h => Expr.bound_of_parts (by simpa [Expr.parts] using h)
  | .get object _, _, hc, hw, hl, hn =>
    (Expr.bound_of_legal object hc hw hl hn).imp fun _ h =>
      Expr.bound_of_parts (by simpa [Expr.parts] using h)
  | .set object _ value, w, hc, hw, hl, hn => by
    have hp := Expr.place_resolve value w
    have hc' := (Walk.classContext_of_place hp).trans hc
    exact (((Expr.bound_of_legal value hc hw hl.1 hn.of_append_right).append
      (Expr.bound_of_legal object hc' (hw.of_place hp) hl.2 hn.of_append_left)
      (List.nodup_append_comm.1 hn)).perm List.perm_append_comm).imp fun _ h =>
        Expr.bound_of_parts (by simpa [Expr.parts] using h)
  | .this id keyword, w, hc, hw, hl, _ => by
    have hr : (Expr.this id keyword).resolve w = w.note id keyword.lexeme := by
      simp only [Expr.resolve]
      split
      · next h => exact absurd (hc.symm.trans h) hl
      · rfl
    rw [hr]
    refine (Finds.note w id keyword.lexeme).imp fun far h => ?_
    rw [hw.distance?] at h
    exact Expr.bound_iff.2 ⟨by rintro _ _ ⟨⟩; exact h, by simp [Expr.parts]⟩
  | .super id keyword method, w, hc, hw, hl, _ => by
    have hr : (Expr.super id keyword method).resolve w = w.note id keyword.lexeme := by
      have hcs : w.classContext = .subclass := hc.trans hl
      simp only [Expr.resolve, hcs]
    rw [hr]
    refine (Finds.note w id keyword.lexeme).imp fun far h => ?_
    rw [hw.distance?] at h
    exact Expr.bound_iff.2 ⟨by rintro _ _ ⟨⟩; exact h, by simp [Expr.parts]⟩

theorem Expr.boundAll_of_legal {c : ClassContext} {pending : Option String} {scopes : Scopes} :
    ∀ (es : List Expr) {w : Walk}, w.classContext = c → w.Shows scopes →
      Expr.LegalAll c pending es → (Expr.idsAll es).Nodup →
      Finds (Expr.idsAll es) w (Expr.resolveAll es w) fun far =>
        ∀ e ∈ es, (Node.expr e).Bound far scopes
  | [], _, _, _, _, _ => .nil rfl fun _ => by simp
  | e :: es, w, hc, hw, hl, hn => by
    have hp := Expr.place_resolve e w
    have hc' := (Walk.classContext_of_place hp).trans hc
    exact ((Expr.bound_of_legal e hc hw hl.1 hn.of_append_left).append
      (Expr.boundAll_of_legal es hc' (hw.of_place hp) hl.2 hn.of_append_right) hn).imp
        fun _ h => List.forall_mem_cons.2 h

end

theorem Expr.boundOption_of_legal {c : ClassContext} {pending : Option String} {scopes : Scopes}
    (e : Option Expr) {w : Walk} (hc : w.classContext = c) (hw : w.Shows scopes)
    (hl : Expr.LegalOption c pending e) (hn : (Expr.idsOption e).Nodup) :
    Finds (Expr.idsOption e) w (Expr.resolveOption e w) fun far =>
      ∀ value ∈ e, (Node.expr value).Bound far scopes := by
  cases e with
  | none => exact .nil rfl fun _ => by simp
  | some e => exact (Expr.bound_of_legal e hc hw hl hn).imp fun _ h => by simpa using h

/-! ### Statements -/

/-- The class is declared when its superclass is looked up. -/
theorem Expr.superclass_bound {w : Walk} {scopes : Scopes} {good : Token → Prop} (name : Token)
    {superclass : Option Expr} (hw : w.Shows scopes) (hs : Expr.NamesSuperclass good superclass) :
    Finds (Expr.idsOption superclass) w (Expr.resolveSuperclass name superclass w) fun far =>
      ∀ e ∈ superclass, (Node.expr e).Bound far scopes := by
  cases superclass with
  | none => exact .nil rfl fun _ => by simp
  | some e =>
    obtain ⟨id, parent, rfl, -⟩ := hs
    have hv := Finds.note w id parent.lexeme
    rw [hw.distance?] at hv
    refine (hv.of_distances rfl ?_).imp fun far h => ?_
    · simp only [Expr.resolveSuperclass, Expr.resolve, Walk.distances_define]
      exact Walk.distances_note_congr (by simp) (by simp)
    · rintro _ ⟨⟩
      exact Expr.bound_iff.2 ⟨by rintro _ _ ⟨⟩; exact h, by simp [Expr.parts]⟩

variable {good : Token → Prop}

mutual

/-- The scopes are those around the parts of the statement, its own declaration included. -/
theorem Stmt.bound_of_legal {c : Surroundings} {scopes : Scopes} :
    ∀ (s : Stmt) {w : Walk}, w.Reaches c → (w.defineAll (Stmt.names [s])).Shows scopes →
      s.Formed good → s.Legal c → s.ids.Nodup →
      Finds s.ids w (s.resolve w) fun far => (Node.stmt s).Bound far scopes
  | .expression value, _, hr, hw, hf, hl, hn =>
    (Expr.bound_of_legal value hr.class hw hl hn).imp fun _ h =>
      Stmt.bound_of_parts (by simp [Stmt.parts]) (by simpa [Stmt.parts] using h)
  | .print value, _, hr, hw, hf, hl, hn =>
    (Expr.bound_of_legal value hr.class hw hl hn).imp fun _ h =>
      Stmt.bound_of_parts (by simp [Stmt.parts]) (by simpa [Stmt.parts] using h)
  | .var name initializer, w, hr, hw, hf, hl, hn => by
    have hi := Expr.boundOption_of_legal initializer ((w.classContext_declare name).trans hr.class)
      hw.of_define hl hn
    exact (hi.of_distances (Walk.distances_declare w name).symm (Walk.distances_define _ _)).imp
      fun far h => Stmt.bound_of_parts (by simp [Stmt.parts, Enclosure.isLocal])
        (by simpa [Stmt.parts] using h)
  | .block body, w, hr, hw, hf, hl, hn => by
    have hbody := Stmt.boundAll_of_legal body hr.openScope hw.openScope hf hl.2 hn
    refine (hbody.of_distances rfl rfl).imp fun far h => Stmt.bound_iff.2 fun opened part ho => ?_
    cases ho with
    | block before s after => exact h before s after rfl
    | stmt hp hlocal =>
      obtain ⟨s, -, ⟨⟩⟩ := List.mem_map.1 hp
      exact absurd (hlocal .block (by simp)) (by decide)
  | .if condition thenBranch none, w, hr, hw, hf, hl, hn => by
    have hp := Expr.place_resolve condition w
    have hthen : ((condition.resolve w).defineAll (Stmt.names [thenBranch])).Shows scopes := by
      rw [Stmt.defineAll_branch hf.2.1]
      exact hw.of_place hp
    exact ((Expr.bound_of_legal condition hr.class hw hl.1 hn.of_append_left).append
      (Stmt.bound_of_legal thenBranch (hr.of_place hp) hthen hf.2.2 hl.2
        hn.of_append_right) hn).imp fun far h =>
          Stmt.bound_of_parts (by simp [Stmt.parts]) (by simpa [Stmt.parts] using h)
  | .if condition thenBranch (some elseBranch), w, hr, hw, hf, hl, hn => by
    have hp := Expr.place_resolve condition w
    have hp' := (Stmt.place_resolve_branch hf.2.1.1 (condition.resolve w) hf.2.1.2).trans hp
    have hthen : ((condition.resolve w).defineAll (Stmt.names [thenBranch])).Shows scopes := by
      rw [Stmt.defineAll_branch hf.2.1.1]
      exact hw.of_place hp
    have helse : ((thenBranch.resolve (condition.resolve w)).defineAll
        (Stmt.names [elseBranch])).Shows scopes := by
      rw [Stmt.defineAll_branch hf.2.2.1]
      exact hw.of_place hp'
    have hn' := hn.of_append_right
    have hboth := (Stmt.bound_of_legal thenBranch (hr.of_place hp) hthen hf.2.1.2 hl.2.1
      hn'.of_append_left).append (Stmt.bound_of_legal elseBranch (hr.of_place hp') helse hf.2.2.2
        hl.2.2 hn'.of_append_right) hn'
    exact ((Expr.bound_of_legal condition hr.class hw hl.1 hn.of_append_left).append hboth hn).imp
      fun far h => Stmt.bound_of_parts (by simp [Stmt.parts]) (by simpa [Stmt.parts] using h)
  | .while condition body, w, hr, hw, hf, hl, hn => by
    have hp := Expr.place_resolve condition w
    have hbody : (Walk.defineAll { condition.resolve w with
        loopDepth := (condition.resolve w).loopDepth + 1 } (Stmt.names [body])).Shows scopes := by
      have hs : (condition.resolve w).Shows scopes := hw.of_place hp
      rw [Stmt.defineAll_branch hf.2.1]
      exact hs
    have hb := Stmt.bound_of_legal body (hr.of_place hp).enterLoop hbody hf.2.2 hl.2
      hn.of_append_right
    exact ((Expr.bound_of_legal condition hr.class hw hl.1 hn.of_append_left).append
      (hb.of_distances rfl rfl) hn).imp fun far h =>
        Stmt.bound_of_parts (by simp [Stmt.parts, Enclosure.isLocal])
          (by simpa [Stmt.parts] using h)
  | .break keyword, w, _, _, _, _, _ =>
    .nil (Walk.distances_reportIf w _ keyword _) fun _ =>
      Stmt.bound_of_parts (by simp [Stmt.parts]) (by simp [Stmt.parts])
  | .function decl, w, hr, hw, hf, hl, hn => by
    have hp := Walk.place_introduce_eq_define w decl.name
    have hd := FunDecl.bound_of_legal .function decl ((hr.define _).of_place hp)
      (hw.of_place hp) hf hl hn
    refine (hd.of_distances (Walk.distances_introduce w decl.name).symm rfl).imp fun far h =>
      Stmt.bound_iff.2 fun opened part ho => ?_
    cases ho with
    | function => exact h
    | stmt hp _ =>
      obtain ⟨-, rfl⟩ := Prod.mk.inj (List.mem_singleton.1 hp)
      exact h
  | .return keyword value, w, hr, hw, hf, hl, hn => by
    have hv {u : Walk} (hp : u.place = w.place) :=
      Expr.boundOption_of_legal value (hr.of_place hp).class (hw.of_place hp) hl.2.2 hn
    exact ((hv (by simp)).of_distances (by simp) rfl).imp fun far h =>
      Stmt.bound_of_parts (by simp [Stmt.parts]) (by simpa [Stmt.parts] using h)
  | .class name superclass methods, w, hr, hw, hf, hl, hn => by
    have hp := Walk.place_introduce_eq_define { w with classContext := .class } name
    have hs : (Walk.define { w with classContext := .class } name.lexeme).Shows scopes := by
      obtain ⟨ws, _, _, _, _, _⟩ := w
      cases ws <;> exact hw
    have hnamed := hs.of_place hp
    have hsuper := Expr.superclass_bound name hnamed hf.2.1
    have hmethods := FunDecl.boundAll_of_legal methods (hr.inside name superclass)
      (((hnamed.superclass name superclass).openScope).define "this") hf.2.2 hl.2
      hn.of_append_right
    have hall := hsuper.append (hmethods.of_distances (by simp [Walk.openScope]) rfl) hn
    refine (hall.of_distances (Walk.distances_introduce _ name).symm ?_).imp
      fun far h => Stmt.bound_iff.2 fun opened part ho => ?_
    · simp only [Stmt.resolve]
      split <;> rfl
    · cases ho with
      | method hf =>
        have hm := h.2 _ hf
        cases superclass <;> exact hm
      | stmt hp hlocal =>
        rcases List.mem_append.1 hp with hp | hp
        · obtain ⟨e, he, ⟨⟩⟩ := List.mem_map.1 hp
          exact h.1 e (Option.mem_toList.1 he)
        · obtain ⟨f, -, ⟨⟩⟩ := List.mem_map.1 hp
          exact absurd (hlocal (.method f) (by simp)) (by simp [Enclosure.isLocal])

theorem Stmt.boundAll_of_legal {c : Surroundings} {own : List String} {outer : Scopes} :
    ∀ (ss : List Stmt) {w : Walk}, w.Reaches c → w.Shows (own :: outer) →
      Stmt.FormedAll good ss → Stmt.LegalAll c ss → (Stmt.idsAll ss).Nodup →
      Finds (Stmt.idsAll ss) w (Stmt.resolveAll ss w) fun far =>
        ∀ before s after, ss = before ++ s :: after →
          (Node.stmt s).Bound far ((own ++ Stmt.names (before ++ [s])) :: outer)
  | [], _, _, _, _, _, _ => .nil rfl fun _ => by simp
  | s :: ss, w, hr, hw, hf, hl, hn => by
    have hp := (Stmt.place_resolve s w hf.1).trans (Walk.place_defineAll w (Stmt.names [s])).symm
    have hs := hw.names s
    refine ((Stmt.bound_of_legal s hr hs hf.1 hl.1 hn.of_append_left).append
      (Stmt.boundAll_of_legal ss ((hr.defineAll _).of_place hp) (hs.of_place hp) hf.2 hl.2
        hn.of_append_right) hn).imp fun far h before t after he => ?_
    cases before with
    | nil =>
      obtain ⟨rfl, -⟩ := List.cons.inj he
      exact h.1
    | cons b before =>
      obtain ⟨rfl, hrest⟩ := List.cons.inj he
      have ht := h.2 before t after hrest
      rwa [List.append_assoc, ← Stmt.names_cons] at ht

theorem FunDecl.bound_of_legal {c : Surroundings} {scopes : Scopes} (context : FunctionContext) :
    ∀ (f : FunDecl) {w : Walk}, w.Reaches c → w.Shows scopes → f.Formed good →
      f.Legal c context → f.ids.Nodup →
      Finds f.ids w (f.resolve context w) fun far => (Node.decl f).Bound far scopes
  | ⟨name, params, body⟩, w, hr, hw, hf, hl, hn => by
    have hp := Walk.place_foldl_introduce_eq_defineAll
      (Walk.openScope { w with functionContext := context, loopDepth := 0 }) params
    have hin := (hr.enterFunction context).openScope.defineAll (params.map (·.lexeme))
    have hs : Shows { w with functionContext := context, loopDepth := 0 } scopes := hw
    have hparams := (hs.openScope.defineAll (params.map (·.lexeme))).of_place hp
    rw [Scopes.declare_all, List.append_nil] at hparams
    have hbody := Stmt.boundAll_of_legal body (hin.of_place hp)
      (hparams.congr fun _ => List.mem_reverse) hf.2.2 hl.2 hn
    exact (hbody.of_distances (Walk.distances_foldl_introduce _ params).symm rfl).imp
      fun far h => FunDecl.bound_iff.2 h

theorem FunDecl.boundAll_of_legal {c : Surroundings} {scopes : Scopes} :
    ∀ (fs : List FunDecl) {w : Walk}, w.Reaches c → w.Shows scopes → FunDecl.FormedAll good fs →
      FunDecl.LegalAll c fs → (FunDecl.idsAll fs).Nodup →
      Finds (FunDecl.idsAll fs) w (FunDecl.resolveAll fs w) fun far =>
        ∀ f ∈ fs, (Node.decl f).Bound far scopes
  | [], _, _, _, _, _, _ => .nil rfl fun _ => by simp
  | f :: fs, w, hr, hw, hf, hl, hn => by
    have hp := FunDecl.place_resolve f.methodContext f w
    exact ((FunDecl.bound_of_legal f.methodContext f hr hw hf.1 hl.1 hn.of_append_left).append
      (FunDecl.boundAll_of_legal fs (hr.of_place hp) (hw.of_place hp) hf.2 hl.2
        hn.of_append_right) hn).imp fun _ h => List.forall_mem_cons.2 h

end

/-- The top level is no scope. -/
theorem Stmt.bound_of_legalAll {c : Surroundings} :
    ∀ (ss : List Stmt) {w : Walk}, w.Reaches c → w.Shows [] → Stmt.FormedAll good ss →
      Stmt.LegalAll c ss → (Stmt.idsAll ss).Nodup →
      Finds (Stmt.idsAll ss) w (Stmt.resolveAll ss w) fun far =>
        ∀ s ∈ ss, (Node.stmt s).Bound far []
  | [], _, _, _, _, _, _ => .nil rfl fun _ => by simp
  | s :: ss, w, hr, hw, hf, hl, hn => by
    have hp := (Stmt.place_resolve s w hf.1).trans (Walk.place_defineAll w (Stmt.names [s])).symm
    have hs := hw.defineAll (Stmt.names [s])
    rw [List.foldl_fixed' (by simp [Scopes.declare])] at hs
    exact ((Stmt.bound_of_legal s hr hs hf.1 hl.1 hn.of_append_left).append
      (Stmt.bound_of_legalAll ss ((hr.defineAll _).of_place hp) (hs.of_place hp) hf.2 hl.2
        hn.of_append_right) hn).imp fun _ h => List.forall_mem_cons.2 h

/-! ### Whole programs -/

theorem Scopes.distance?_of_innermost {x : String} {scope : List String} {inner outer : Scopes}
    (hi : ∀ names ∈ inner, x ∉ names) (hx : x ∈ scope) :
    Scopes.distance? (inner ++ scope :: outer) x = some inner.length := by
  induction inner with
  | nil => simp [Scopes.distance?_cons, hx]
  | cons names inner ih =>
    have h := List.forall_mem_cons.1 hi
    simp [Scopes.distance?_cons, h.1, ih h.2]

theorem Scopes.distance?_of_nowhere {x : String} {scopes : Scopes}
    (h : ∀ names ∈ scopes, x ∉ names) : scopes.distance? x = none := by
  simpa [Scopes.distance?, List.findIdx?_eq_none_iff] using h

/-- Where there is one note about each occurrence at most, the last one is the only one. -/
theorem Scope.Walk.notes_about {notes : List (NodeId × Nat)} (h : (notes.map Prod.fst).Nodup)
    (id : NodeId) : notes.filter (·.1 = id) =
      ((notes.reverse.lookup id).map fun d => (id, d)).toList := by
  induction notes with
  | nil => rfl
  | cons note notes ih =>
    obtain ⟨key, d⟩ := note
    obtain ⟨hk, hn⟩ := List.nodup_cons.1 h
    rw [List.reverse_cons, List.lookup_append, List.filter_cons, ih hn]
    by_cases hid : key = id
    · subst hid
      have hnone : notes.reverse.lookup key = none :=
        @Finds.lookup_eq_none (notes.map Prod.fst) notes key
          (fun p hp => List.mem_map_of_mem hp) hk
      simp [hnone]
    · have hne : (id == key) = false := by simpa using Ne.symm hid
      simp [hid, List.lookup_cons, hne]

/-- The notes of a silent walk about an occurrence of a name in a parsed program: when some scope
around it has the name, the number of scopes inside the innermost one that has it, once, and none
when no scope has it. -/
theorem Scope.distances_static {tokens : List Token} {first : Nat} {program : List Stmt}
    (hp : (Parser.program tokens first).1 = .ok program) (he : (resolve program).errors = #[])
    {s : Stmt} (hs : s ∈ program) {scopes : Scopes} {e : Expr} {id : NodeId} {x : String}
    (hstands : (Node.stmt s).Stands scopes (.expr e)) (hn : e.named? = some (id, x)) :
    (∀ inner names outer, scopes = inner ++ names :: outer → x ∈ names →
      (∀ between ∈ inner, x ∉ between) →
      (resolve program).distances.toList.filter (·.1 = id) = [(id, inner.length)]) ∧
    ((∀ names ∈ scopes, x ∉ names) →
      (resolve program).distances.toList.filter (·.1 = id) = []) := by
  obtain ⟨hf, hids⟩ := (@Parser.program_made (fun _ => True) tokens first (by simp)).2 program hp
  obtain ⟨notes, hd, hk⟩ := Stmt.notedOnceAll program .start
  obtain ⟨notes', hd', -, hfinds⟩ := Stmt.bound_of_legalAll program Walk.reaches_start shows_start
    hf ((errors_resolve_eq hf).1 he) hids.1
  have hnotes : (resolve program).distances.toList = notes' := by
    rw [resolve, hd', Walk.start]
    simp
  have hsame : notes = notes' := by simpa [Walk.start] using hd.symm.trans hd'
  obtain ⟨keys, hperm, hsub⟩ := hk
  have honce := Walk.notes_about (hperm.nodup_iff.1 (hids.1.sublist hsub)) id
  have hfar := hfinds (fun id d => notes'.reverse.lookup id = d) (fun _ _ => rfl) s hs
    scopes e id x hstands hn
  rw [List.append_nil] at hfar
  rw [hsame, hfar] at honce
  rw [hnotes, honce]
  constructor
  · rintro inner names outer rfl hx hi
    rw [Scopes.distance?_of_innermost hi hx]
    rfl
  · intro hx
    rw [Scopes.distance?_of_nowhere hx]
    rfl

/-- A parameter that a block in the body reads. -/
theorem Scope.distances_static_parameter :
    ∃ tokens program s scopes e id, (Parser.program tokens 0).1 = .ok program ∧
      (resolve program).errors = #[] ∧ s ∈ program ∧ (Node.stmt s).Stands scopes (.expr e) ∧
      e.named? = some (id, "a") ∧
      (resolve program).distances.toList.filter (·.1 = id) = [(id, 1)] := by
  have hp : (Parser.program [⟨.keyword .fun, "fun", 1⟩, ⟨.identifier, "f", 1⟩,
      ⟨.punct .leftParen, "(", 1⟩, ⟨.identifier, "a", 1⟩, ⟨.punct .rightParen, ")", 1⟩,
      ⟨.punct .leftBrace, "\x7b", 1⟩, ⟨.punct .leftBrace, "\x7b", 1⟩, ⟨.identifier, "a", 1⟩,
      ⟨.punct .semicolon, ";", 1⟩, ⟨.punct .rightBrace, "\x7d", 1⟩,
      ⟨.punct .rightBrace, "\x7d", 1⟩] 0).1 =
      .ok [.function ⟨⟨.identifier, "f", 1⟩, [⟨.identifier, "a", 1⟩],
        [.block [.expression (.variable ⟨0⟩ ⟨.identifier, "a", 1⟩)]]⟩] := by
    rfl
  have hstands : (Node.stmt (.function ⟨⟨.identifier, "f", 1⟩, [⟨.identifier, "a", 1⟩],
      [.block [.expression (.variable ⟨0⟩ ⟨.identifier, "a", 1⟩)]]⟩)).Stands [[], ["a"]]
      (.expr (.variable ⟨0⟩ ⟨.identifier, "a", 1⟩)) :=
    @Node.Stands.inside _ _ _ _ [[], ["a"]] (.function _) <|
    @Node.Stands.inside _ _ _ _ [[]] (.body _ _ [] _ []) <|
    @Node.Stands.inside _ _ _ _ [] (.block [] _ []) <|
    @Node.Stands.inside _ _ _ _ [] (@Node.Opens.stmt _ [] _ (by simp [Stmt.parts]) (by simp))
      (.self _)
  exact ⟨_, _, _, _, _, _, hp, by decide, by simp, hstands, rfl,
    (distances_static hp (by decide) (by simp) hstands rfl).1 [[]] ["a"] [] rfl (by simp)
      (by simp)⟩

end Lox

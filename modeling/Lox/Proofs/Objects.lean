import Lox.Proofs.Variables

/-!
# Twins' objects

Closures and the lists they capture are made side by side, and classes and instances are the same
in both machines. Whatever a class finds among its methods waits for `this`.
-/

namespace Lox

/-- The methods of a class by name, when `n` closures are there before them. -/
def methodTable (n : Nat) : List FunDecl → Bindings ClosureId → Bindings ClosureId
  | [], table => table
  | f :: fs, table => methodTable (n + 1) fs (table.insert f.name.lexeme ⟨n⟩)

def methodClosures (methods : List FunDecl) (e : FrameId) : Array Closure :=
  (methods.map fun f => ⟨f, e, f.isInitializer⟩).toArray

theorem find?_methodTable {n : Nat} {methods : List FunDecl} {table : Bindings ClosureId}
    {x : String} {f : ClosureId} (h : (methodTable n methods table).find? x = some f) :
    table.find? x = some f ∨
      ∃ (i : Nat) (hi : i < methods.length), f = ⟨n + i⟩ ∧ methods[i].name.lexeme = x := by
  induction methods generalizing n table with
  | nil => exact .inl h
  | cons decl methods ih =>
    rcases ih h with h | ⟨i, hi, rfl, hx⟩
    · rw [Bindings.find?_insert] at h
      split at h
      · next hx =>
        cases h
        exact .inr ⟨0, by simp, rfl, hx⟩
      · exact .inl h
    · exact .inr ⟨i + 1, by simpa using hi, by rw [Nat.add_assoc, Nat.add_comm 1], hx⟩

theorem Exec.newClass_eq (name : String) (superclass : Option ClassId) (methods : List FunDecl)
    (e : FrameId) (m : Machine) :
    Exec.newClass name superclass methods e m =
      .ok (.class ⟨m.heap.classes.size⟩) { m with heap := { m.heap with
        closures := m.heap.closures ++ methodClosures methods e
        classes := m.heap.classes.push
          ⟨name, superclass, methodTable m.heap.closures.size methods .empty⟩ } } := by
  have hfold : ∀ (methods : List FunDecl) (made : Bindings ClosureId × Heap),
      methods.foldl (fun made decl =>
        (made.1.insert decl.name.lexeme ⟨made.2.closures.size⟩,
          (made.2.newClosure ⟨decl, e, decl.isInitializer⟩).2)) made =
      (methodTable made.2.closures.size methods made.1,
        { made.2 with closures := made.2.closures ++ methodClosures methods e }) := by
    intro methods
    induction methods with
    | nil => intro made; simp [methodTable, methodClosures]
    | cons f fs ih =>
      intro made
      rw [List.foldl_cons]
      refine (ih _).trans ?_
      simp [methodTable, methodClosures, Heap.newClosure]
  exact congrArg (fun made : Bindings ClosureId × Heap =>
    EStateM.Result.ok (Value.class ⟨made.2.classes.size⟩)
      { m with heap := (made.2.newClass ⟨name, superclass, made.1⟩).2 })
    (hfold methods (.empty, m.heap))

theorem Heap.field?_newInstance (h : Heap) (c : ClassId) (o : InstanceId) (x : String) :
    (h.newInstance c).2.field? o x = h.field? o x := by
  simp only [field?, instanceAt, newInstance, Array.getD_eq_getD_getElem?, Array.getElem?_push]
  split
  · next ho => simp [ho, Bindings.find?_empty]
  · rfl

theorem Heap.field?_setField {h : Heap} {o p : InstanceId} {x y : String} {v w : Value}
    (hw : (h.setField o x v).field? p y = some w) : w = v ∨ h.field? p y = some w := by
  simp only [field?, instanceAt, setField, Array.getD_eq_getD_getElem?,
    Array.getElem?_modify] at hw ⊢
  split at hw
  · rcases hp : h.instances[p.index]? with _ | i
    · simp [hp, Bindings.find?_empty] at hw
    · simp only [hp, Option.map_some, Option.getD_some, Bindings.find?_insert] at hw ⊢
      split at hw
      · exact .inl (Option.some.inj hw).symm
      · exact .inr hw
  · exact .inr hw

namespace Lexical.Twin

/-- New closures with what they captured, and any change to classes and instances. -/
def pushClosures (t : Twin) (fs : Array Closure) (ls : Array Locals) (classes : Array Class)
    (instances : Array Instance) : Twin :=
  let m : Machine := { t.machine with heap := { t.machine.heap with
    closures := t.machine.heap.closures ++ fs, classes, instances } }
  { t with machine := m
           lexical := { t.lexical with machine := m.withoutLocals
                                       captured := t.lexical.captured ++ ls } }

theorem pushClosures_leads {t : Twin} (ht : t.Sound) (fs : Array Closure) (ls : Array Locals)
    (classes : Array Class) (instances : Array Instance) :
    Leads false t (t.pushClosures fs ls classes instances) := by
  refine .of_same rfl rfl rfl rfl rfl rfl (by simp [pushClosures, heap]) fun f hf => ?_
  have hc : f.index < t.lexical.captured.size := ht.size ▸ hf
  have hf' : f.index < t.machine.heap.closures.size := hf
  have : f.index < t.machine.heap.closures.size + fs.size := by omega
  have : f.index < t.lexical.captured.size + ls.size := by omega
  constructor
  · simp [pushClosures, heap, Heap.closure, Array.getElem_append_left, *]
  · simp [pushClosures, captured, Array.getElem_append_left, *]

theorem Sound.pushClosures {t : Twin} (ht : t.Sound) {fs : Array Closure} {ls : Array Locals}
    {classes : Array Class} {instances : Array Instance} (hs : ls.size = fs.size)
    (hfields : ∀ {o x v}, (t.pushClosures fs ls classes instances).heap.field? o x = some v →
      t.Holds v)
    (hmethods : ∀ {k x f}, ((t.pushClosures fs ls classes instances).heap.classAt k).methods.find? x
      = some f → (t.pushClosures fs ls classes instances).Method x f) :
    (t.pushClosures fs ls classes instances).Sound :=
  have hl := pushClosures_leads ht fs ls classes instances
  ht.of_same hl rfl rfl rfl rfl
    (by have := ht.size; simp_all [Twin.pushClosures, heap])
    (fun h => hl.holds (hfields h)) hmethods

/-- The closure that stands at a new index. -/
theorem closure_pushClosures (t : Twin) (fs : Array Closure) (ls : Array Locals)
    (classes : Array Class) (instances : Array Instance) {i : Nat} (hi : i < fs.size) :
    (t.pushClosures fs ls classes instances).heap.closure ⟨t.heap.closures.size + i⟩ = fs[i] := by
  simp [pushClosures, heap, Heap.closure, hi]

theorem captured_pushClosures {t : Twin} (ht : t.Sound) (fs : Array Closure) (ls : Array Locals)
    (classes : Array Class) (instances : Array Instance) {i : Nat} (hi : i < ls.size) :
    (t.pushClosures fs ls classes instances).captured ⟨t.heap.closures.size + i⟩ = ls[i] := by
  rw [← ht.size]
  simp [pushClosures, captured, hi]

theorem Sound.method_of_findMethod? {t : Twin} (ht : t.Sound) (c : ClassId) (x : String)
    {f : ClosureId} (h : t.heap.findMethod? c x = some f) : t.Method x f := by
  fun_induction t.heap.findMethod? c x with
  | case1 c g hg => cases h; exact ht.methods hg
  | case2 => cases h
  | case3 c hg s hs _ ih => exact ih h

end Lexical.Twin

end Lox

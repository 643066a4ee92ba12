/-!
# Bindings

Values under names, each name once. A new name goes to the end, a known one keeps its place, and
`find?_insert` says all there is to know about reading after writing.
-/

namespace Lox

structure Bindings (α : Type) where
  entries : List (String × α)

namespace Bindings

variable {α : Type}

def empty : Bindings α := ⟨[]⟩

def lookup (name : String) : List (String × α) → Option α
  | [] => none
  | (x, v) :: rest => if x = name then some v else lookup name rest

def put (name : String) (value : α) : List (String × α) → List (String × α)
  | [] => [(name, value)]
  | (x, v) :: rest => if x = name then (x, value) :: rest else (x, v) :: put name value rest

def find? (b : Bindings α) (name : String) : Option α := lookup name b.entries

def insert (b : Bindings α) (name : String) (value : α) : Bindings α :=
  ⟨put name value b.entries⟩

def contains (b : Bindings α) (name : String) : Bool := (b.find? name).isSome

def names (b : Bindings α) : List String := b.entries.map (·.1)

/-- By code points. -/
def sortedNames (b : Bindings α) : List String := b.names.mergeSort fun x y => decide (x ≤ y)

theorem find?_empty (x : String) : (empty : Bindings α).find? x = none := rfl

theorem lookup_put (x y : String) (v : α) :
    ∀ es : List (String × α), lookup y (put x v es) = if x = y then some v else lookup y es
  | [] => by simp [put, lookup]
  | (z, w) :: es => by
    have ih := lookup_put x y v es
    unfold put
    split
    · next h => subst h; simp only [lookup]; split <;> rfl
    · next h =>
      simp only [lookup, ih]
      by_cases hz : z = y
      · simp [hz, show x ≠ y from fun e => h (hz.trans e.symm)]
      · simp [hz]

theorem find?_insert (b : Bindings α) (x y : String) (v : α) :
    (b.insert x v).find? y = if x = y then some v else b.find? y :=
  lookup_put x y v b.entries

theorem find?_insert_self (b : Bindings α) (x : String) (v : α) :
    (b.insert x v).find? x = some v := by simp [find?_insert]

theorem find?_insert_ne (b : Bindings α) {x y : String} (v : α) (h : x ≠ y) :
    (b.insert x v).find? y = b.find? y := by simp [find?_insert, h]

theorem put_put (x : String) (v w : α) :
    ∀ es : List (String × α), put x w (put x v es) = put x w es
  | [] => by simp [put]
  | (y, u) :: es => by
    have ih := put_put x v w es
    by_cases h : y = x <;> simp [put, h, ih]

theorem insert_insert (b : Bindings α) (x : String) (v w : α) :
    (b.insert x v).insert x w = b.insert x w := by
  simp [insert, put_put]

theorem contains_insert (b : Bindings α) (x y : String) (v : α) :
    (b.insert x v).contains y = (x == y || b.contains y) := by
  by_cases h : x = y <;> simp [contains, find?_insert, h]

end Bindings

end Lox

import Lox.Store.Heap
import Lox.Text.Quoted

/-!
# Objects seen from inside

Texts for a developer: what kind of value it is and what it is made of. Tables show their names
alone, sorted, because the values in them may lead back to where they are.
-/

namespace Lox

/-- A float never looks like an integer, and very large and very small ones have an exponent. -/
def inspectLayout : Decimal.Layout :=
  { Decimal.plain with positional := fun e => -4 ≤ e ∧ e < 16, pointZero := true }

/-- A form with a name and named parts, one beside the other. -/
def inspectForm (name : String) (parts : List (String × String)) : String :=
  name ++ " \x7b " ++ ", ".intercalate (parts.map fun (part, text) => part ++ ": " ++ text) ++
    " \x7d"

def inspectNames (names : List String) : String :=
  "[" ++ ", ".intercalate (names.map Text.quoted) ++ "]"

namespace Heap

def inspectFrame (h : Heap) (e : FrameId) : String :=
  inspectForm "Environment"
    [("names", inspectNames (h.frame e).bindings.sortedNames),
      ("enclosing", toString (h.enclosing? e).isSome)]

def inspectClass (h : Heap) (c : ClassId) : String :=
  let superclass := match (h.classAt c).superclass with
    | none => "None"
    | some s => "Some(" ++ Text.quoted (h.classAt s).name ++ ")"
  inspectForm "LoxClass"
    [("name", Text.quoted (h.classAt c).name), ("superclass", superclass),
      ("methods", inspectNames (h.classAt c).methods.sortedNames)]

def inspectInstance (h : Heap) (o : InstanceId) : String :=
  inspectForm "LoxInstance"
    [("class", Text.quoted (h.classAt (h.instanceAt o).classId).name),
      ("fields", inspectNames (h.instanceAt o).fields.sortedNames)]

def inspect (h : Heap) : Value → String
  | .nil => "Nil"
  | .bool b => "Bool(" ++ toString b ++ ")"
  | .number x => "Number(" ++ inspectLayout.write x ++ ")"
  | .string s => "String(" ++ Text.quoted s ++ ")"
  | .native n =>
    "Callable(Native(NativeFunction(" ++ (h.native n).name ++ "/" ++
      toString (h.native n).arity ++ ")))"
  | .function f => "Callable(Function(<fn " ++ (h.closure f).decl.name.lexeme ++ ">))"
  | .class c => "Callable(Class(" ++ h.inspectClass c ++ "))"
  | .instance o => "Instance(" ++ inspectForm "RefCell" [("value", h.inspectInstance o)] ++ ")"

end Heap

end Lox

import Lox.Syntax

/-!
# Trees as JSON values

A node is an object with one field, named for its form. A form with one unnamed part has that part
as the field's value, the others an object of their parts.
-/

namespace Lox

def Literal.toJson : Literal → Json
  | .nil => .string "Nil"
  | .bool true => .string "True"
  | .bool false => .string "False"
  | .number x => .object [("Number", .float x)]
  | .string s => .object [("Str", .string s)]

def Json.node (form : String) (parts : List (String × Json)) : Json :=
  .object [(form, .object parts)]

mutual

def Expr.toJson : Expr → Json
  | .literal value => .object [("Literal", value.toJson)]
  | .grouping inner => .object [("Grouping", inner.toJson)]
  | .unary operator right =>
    .node "Unary" [("operator", operator.toJson), ("right", right.toJson)]
  | .binary left operator right =>
    .node "Binary"
      [("left", left.toJson), ("operator", operator.toJson), ("right", right.toJson)]
  | .logical left operator right =>
    .node "Logical"
      [("left", left.toJson), ("operator", operator.toJson), ("right", right.toJson)]
  | .variable id name => .node "Variable" [("id", .nat id.index), ("name", name.toJson)]
  | .assign id name value =>
    .node "Assign" [("id", .nat id.index), ("name", name.toJson), ("value", value.toJson)]
  | .call callee paren arguments =>
    .node "Call"
      [("callee", callee.toJson), ("paren", paren.toJson),
        ("arguments", .array (Expr.toJsons arguments))]
  | .get object name => .node "Get" [("object", object.toJson), ("name", name.toJson)]
  | .set object name value =>
    .node "Set" [("object", object.toJson), ("name", name.toJson), ("value", value.toJson)]
  | .this id keyword => .node "This" [("id", .nat id.index), ("keyword", keyword.toJson)]
  | .super id keyword method =>
    .node "Super" [("id", .nat id.index), ("keyword", keyword.toJson), ("method", method.toJson)]

def Expr.toJsons : List Expr → List Json
  | [] => []
  | e :: es => e.toJson :: Expr.toJsons es

end

def optionJson : Option Expr → Json
  | none => .null
  | some e => e.toJson

mutual

def Stmt.toJson : Stmt → Json
  | .expression value => .object [("Expression", value.toJson)]
  | .print value => .object [("Print", value.toJson)]
  | .var name initializer =>
    .node "Var" [("name", name.toJson), ("initializer", optionJson initializer)]
  | .block body => .object [("Block", .array (Stmt.toJsons body))]
  | .if condition thenBranch none =>
    .node "If"
      [("condition", condition.toJson), ("then_branch", thenBranch.toJson),
        ("else_branch", .null)]
  | .if condition thenBranch (some elseBranch) =>
    .node "If"
      [("condition", condition.toJson), ("then_branch", thenBranch.toJson),
        ("else_branch", elseBranch.toJson)]
  | .while condition body =>
    .node "While" [("condition", condition.toJson), ("body", body.toJson)]
  | .break keyword => .node "Break" [("keyword", keyword.toJson)]
  | .function decl => .object [("Function", decl.toJson)]
  | .return keyword value =>
    .node "Return" [("keyword", keyword.toJson), ("value", optionJson value)]
  | .class name superclass methods =>
    .node "Class"
      [("name", name.toJson), ("superclass", optionJson superclass),
        ("methods", .array (FunDecl.toJsons methods))]

def Stmt.toJsons : List Stmt → List Json
  | [] => []
  | s :: ss => s.toJson :: Stmt.toJsons ss

def FunDecl.toJson : FunDecl → Json
  | ⟨name, params, body⟩ =>
    .object
      [("name", name.toJson), ("params", .array (params.map (·.toJson))),
        ("body", .array (Stmt.toJsons body))]

def FunDecl.toJsons : List FunDecl → List Json
  | [] => []
  | f :: fs => f.toJson :: FunDecl.toJsons fs

end

end Lox

import Lox.Text.Json

/-!
# Tokens

A token is a kind, the text it was made from and the line it ends on. Strings and numbers carry
their value in the kind; every other kind is told by its name alone.
-/

namespace Lox

inductive Punct
  | leftParen | rightParen | leftBrace | rightBrace
  | comma | dot | minus | plus | semicolon | slash | star
  | bang | bangEqual | equal | equalEqual | greater | greaterEqual | less | lessEqual
  deriving DecidableEq, Repr

namespace Punct

/-- Longer spellings stand before their own beginnings. -/
def all : List Punct :=
  [bangEqual, equalEqual, greaterEqual, lessEqual, leftParen, rightParen, leftBrace, rightBrace,
    comma, dot, minus, plus, semicolon, slash, star, bang, equal, greater, less]

theorem mem_all (p : Punct) : p ∈ all := by cases p <;> decide

def chars : Punct → List Char
  | leftParen => ['(']
  | rightParen => [')']
  | leftBrace => ['{']
  | rightBrace => ['}']
  | comma => [',']
  | dot => ['.']
  | minus => ['-']
  | plus => ['+']
  | semicolon => [';']
  | slash => ['/']
  | star => ['*']
  | bang => ['!']
  | bangEqual => ['!', '=']
  | equal => ['=']
  | equalEqual => ['=', '=']
  | greater => ['>']
  | greaterEqual => ['>', '=']
  | less => ['<']
  | lessEqual => ['<', '=']

def name : Punct → String
  | leftParen => "LEFT_PAREN"
  | rightParen => "RIGHT_PAREN"
  | leftBrace => "LEFT_BRACE"
  | rightBrace => "RIGHT_BRACE"
  | comma => "COMMA"
  | dot => "DOT"
  | minus => "MINUS"
  | plus => "PLUS"
  | semicolon => "SEMICOLON"
  | slash => "SLASH"
  | star => "STAR"
  | bang => "BANG"
  | bangEqual => "BANG_EQUAL"
  | equal => "EQUAL"
  | equalEqual => "EQUAL_EQUAL"
  | greater => "GREATER"
  | greaterEqual => "GREATER_EQUAL"
  | less => "LESS"
  | lessEqual => "LESS_EQUAL"

theorem chars_ne_nil (p : Punct) : p.chars ≠ [] := by cases p <;> simp [chars]

end Punct

inductive Keyword
  | and | «break» | «class» | «else» | «false» | «fun» | «for» | «if» | nil
  | or | print | «return» | super | this | «true» | var | «while»
  deriving DecidableEq, Repr

namespace Keyword

def all : List Keyword :=
  [.and, .break, .class, .else, .false, .fun, .for, .if, .nil,
    .or, .print, .return, .super, .this, .true, .var, .while]

theorem mem_all (k : Keyword) : k ∈ all := by cases k <;> decide

def spelling : Keyword → String
  | .and => "and"
  | .break => "break"
  | .class => "class"
  | .else => "else"
  | .false => "false"
  | .fun => "fun"
  | .for => "for"
  | .if => "if"
  | .nil => "nil"
  | .or => "or"
  | .print => "print"
  | .return => "return"
  | .super => "super"
  | .this => "this"
  | .true => "true"
  | .var => "var"
  | .while => "while"

def name (k : Keyword) : String := k.spelling.map Char.toUpper

end Keyword

/-- Numbers and strings are kinds of their own for each value. -/
inductive Kind
  | punct (p : Punct)
  | keyword (k : Keyword)
  | identifier
  | string (contents : String)
  | number (value : Float)
  | eof
  deriving DecidableEq, Repr

def Kind.name : Kind → String
  | .punct p => p.name
  | .keyword k => k.name
  | .identifier => "IDENTIFIER"
  | .string _ => "STRING"
  | .number _ => "NUMBER"
  | .eof => "EOF"

structure Token where
  kind : Kind
  lexeme : String
  line : Nat
  deriving DecidableEq, Repr

namespace Token

/-- Where a complaint about the token says it is. -/
def location (t : Token) : String :=
  if t.kind = .eof then " at end" else " at '" ++ t.lexeme ++ "'"

/-- Whole numbers that fit in 64 bits are written as integers, so zero loses its sign; the others
have all their digits and no mark of being whole. -/
def numberText (x : Float) : String :=
  match Decimal.whole? x with
  | some (negative, n) =>
    if n = 0 then "0.0"
    else if n < Nat.pow 2 63 then Decimal.sign negative ++ toString n ++ ".0"
    else Decimal.plain.write x
  | none => Decimal.plain.write x

def literalText (t : Token) : String :=
  match t.kind with
  | .string s => s
  | .number x => numberText x
  | _ => "null"

def text (t : Token) : String := t.kind.name ++ " " ++ t.lexeme ++ " " ++ t.literalText

def kindJson : Kind → Json
  | .string s => .object [("STRING", .string s)]
  | .number x => .object [("NUMBER", .float x)]
  | k => .string k.name

def toJson (t : Token) : Json :=
  .object [("token_type", kindJson t.kind), ("lexeme", .string t.lexeme), ("line", .nat t.line)]

end Token

end Lox

import Mathlib.Data.List.Forall2
import Lox.Proofs.Recognition
import Lox.Proofs.Renaming

/-!
# Writing expressions down

A tree is written by its tokens in order, with the parentheses, dots, commas and equals signs that
it leaves out put back. Only a tree whose operands bind as tightly as their places ask can be
written so: what binds looser is in parentheses, which are a node of their own. Parsing is the
inverse of writing, up to the ids of the nodes.
-/

namespace Lox

open Grammar

/-! ### Symbols -/

/-- A token that a tree keeps, or the kind of one that it leaves out. -/
inductive Symbol
  | kept (t : Token)
  | restored (kind : Kind)

def Symbol.kind : Symbol → Kind
  | .kept t => t.kind
  | .restored kind => kind

/-- The token may stand where the symbol is. -/
def Symbol.Allows : Symbol → Token → Prop
  | .kept t, t' => t' = t
  | .restored kind, t' => t'.kind = kind

/-- The tokens, in order, are what the symbols stand for. -/
def Symbol.Spell (ts : List Token) (symbols : List Symbol) : Prop :=
  List.Forall₂ (fun t symbol => Symbol.Allows symbol t) ts symbols

namespace Symbol

variable {ts us : List Token} {t : Token} {xs ys : List Symbol} {x : Symbol}

theorem Allows.kind_eq (h : x.Allows t) : t.kind = x.kind := by
  cases x with
  | kept t' => exact congrArg Token.kind h
  | restored kind => exact h

theorem Spell.nil : Spell [] [] := List.Forall₂.nil

theorem Spell.cons (h : x.Allows t) (hs : Spell ts xs) : Spell (t :: ts) (x :: xs) :=
  List.Forall₂.cons h hs

theorem Spell.append (h : Spell ts xs) (k : Spell us ys) : Spell (ts ++ us) (xs ++ ys) :=
  List.rel_append h k

theorem spell_nil_iff : Spell ts [] ↔ ts = [] := List.forall₂_nil_right_iff

theorem spell_cons_iff :
    Spell ts (x :: xs) ↔ ∃ t us, x.Allows t ∧ Spell us xs ∧ ts = t :: us :=
  List.forall₂_cons_right_iff

theorem spell_single_iff : Spell ts [x] ↔ ∃ t, x.Allows t ∧ ts = [t] := by
  constructor
  · intro h
    obtain ⟨t, us, ht, hus, rfl⟩ := spell_cons_iff.1 h
    rw [spell_nil_iff.1 hus]
    exact ⟨t, ht, rfl⟩
  · rintro ⟨t, ht, rfl⟩
    exact .cons ht .nil

theorem spell_append_iff :
    Spell ts (xs ++ ys) ↔ ∃ us vs, ts = us ++ vs ∧ Spell us xs ∧ Spell vs ys := by
  constructor
  · intro h
    exact ⟨ts.take xs.length, ts.drop xs.length, (List.take_append_drop _ ts).symm,
      List.forall₂_take_append ts xs ys h, List.forall₂_drop_append ts xs ys h⟩
  · rintro ⟨us, vs, rfl, hu, hv⟩
    exact hu.append hv

theorem Spell.kinds_eq (h : Spell ts xs) : xs.map Symbol.kind = ts.map Token.kind := by
  induction h with
  | nil => rfl
  | cons hx _ ih => rw [List.map_cons, List.map_cons, ih, hx.kind_eq]

end Symbol

/-! ### Trees as they are written -/

/-- The kind of the token that a literal is read from. -/
def Literal.kind : Literal → Kind
  | .nil => .keyword .nil
  | .bool true => .keyword .true
  | .bool false => .keyword .false
  | .number x => .number x
  | .string s => .string s

mutual

def Expr.symbols : Expr → List Symbol
  | .literal value => [.restored value.kind]
  | .grouping inner =>
    .restored (.punct .leftParen) :: inner.symbols ++ [.restored (.punct .rightParen)]
  | .unary operator right => .kept operator :: right.symbols
  | .binary left operator right => left.symbols ++ .kept operator :: right.symbols
  | .logical left operator right => left.symbols ++ .kept operator :: right.symbols
  | .variable _ name => [.kept name]
  | .assign _ name value => .kept name :: .restored (.punct .equal) :: value.symbols
  | .call callee paren arguments =>
    callee.symbols ++ .restored (.punct .leftParen) :: Expr.symbolsAll arguments ++ [.kept paren]
  | .get object name => object.symbols ++ [.restored (.punct .dot), .kept name]
  | .set object name value =>
    object.symbols ++
      .restored (.punct .dot) :: .kept name :: .restored (.punct .equal) :: value.symbols
  | .this _ keyword => [.kept keyword]
  | .super _ keyword method => [.kept keyword, .restored (.punct .dot), .kept method]

/-- Expressions with commas between them. -/
def Expr.symbolsAll : List Expr → List Symbol
  | [] => []
  | [e] => e.symbols
  | e :: e' :: es => e.symbols ++ .restored (.punct .comma) :: Expr.symbolsAll (e' :: es)

end

/-- The kinds of the tokens that a tree is written with. -/
def Expr.kinds (e : Expr) : List Kind := e.symbols.map Symbol.kind

/-- How tightly an infix operator binds. -/
def Kind.rank : Kind → Nat
  | .keyword .or => 1
  | .keyword .and => 2
  | .punct .bangEqual | .punct .equalEqual => 3
  | .punct .greater | .punct .greaterEqual | .punct .less | .punct .lessEqual => 4
  | .punct .minus | .punct .plus => 5
  | .punct .star | .punct .slash => 6
  | _ => 0

/-- How tightly a tree binds: an assignment most loosely, then the infix operators in their order,
then the prefix operators, and most tightly what stands by itself or before an argument list or a
dot. -/
def Expr.rank : Expr → Nat
  | .assign .. | .set .. => 0
  | .logical _ operator _ | .binary _ operator _ => operator.kind.rank
  | .unary .. => 7
  | _ => 8

mutual

/-- The tree is one that can be written down: its tokens are of the kinds that its nodes ask for,
and its operands bind as tightly as their places ask. On the left of an infix operator that is as
tightly as the operator itself, so that operators of one level associate to the left, and on its
right more tightly. -/
def Expr.Written : Expr → Prop
  | .literal _ => True
  | .grouping inner => inner.Written
  | .unary operator right => Negates operator.kind ∧ right.Written ∧ 7 ≤ right.rank
  | .binary left operator right =>
    (∃ level, ¬ IsLogical level ∧ Joins level operator.kind) ∧
      (left.Written ∧ operator.kind.rank ≤ left.rank) ∧
      right.Written ∧ operator.kind.rank < right.rank
  | .logical left operator right =>
    (∃ level, IsLogical level ∧ Joins level operator.kind) ∧
      (left.Written ∧ operator.kind.rank ≤ left.rank) ∧
      right.Written ∧ operator.kind.rank < right.rank
  | .variable _ name => name.kind = .identifier
  | .assign _ name value => name.kind = .identifier ∧ value.Written
  | .call callee paren arguments =>
    (callee.Written ∧ 8 ≤ callee.rank) ∧ paren.kind = .punct .rightParen ∧
      arguments.length ≤ maxArity ∧ Expr.WrittenAll arguments
  | .get object name => (object.Written ∧ 8 ≤ object.rank) ∧ name.kind = .identifier
  | .set object name value =>
    (object.Written ∧ 8 ≤ object.rank) ∧ name.kind = .identifier ∧ value.Written
  | .this _ keyword => keyword.kind = .keyword .this
  | .super _ keyword method => keyword.kind = .keyword .super ∧ method.kind = .identifier

def Expr.WrittenAll : List Expr → Prop
  | [] => True
  | e :: es => e.Written ∧ Expr.WrittenAll es

end

/-- Forgets the ids. -/
def Renaming.forget : Renaming := ⟨fun _ => ⟨0⟩, id⟩

namespace Grammar

open Lox.Parser (Level)
open Lox.Symbol (Spell)

/-! ### Derived trees are written -/

theorem Joins.rank_eq {level : Level} {kind : Kind} (h : Joins level kind) :
    kind.rank = level.rank + 1 := by
  cases h <;> rfl

theorem Denotes.kind_eq {kind : Kind} {value : Literal} (h : Denotes kind value) :
    kind = value.kind := by
  cases h <;> rfl

theorem denotes_kind (value : Literal) : Denotes value.kind value := by
  rcases value with _ | (_ | _) | _ | _ <;> constructor

/-- The tokens are how the tree is written, and the tree binds at least so tightly. -/
structure Writes (rank : Nat) (ts : List Token) (e : Expr) : Prop where
  written : e.Written
  rank_le : rank ≤ e.rank
  spell : Spell ts e.symbols

theorem Writes.operands {level : Level} {operator : Token} {ts us : List Token}
    {left right : Expr} (h : Writes (level.rank + 1) ts left) (hj : Joins level operator.kind)
    (k : Writes (level.rank + 2) us right) :
    (left.Written ∧ operator.kind.rank ≤ left.rank) ∧
      right.Written ∧ operator.kind.rank < right.rank := by
  have hrank := hj.rank_eq
  exact ⟨⟨h.written, hrank.trans_le h.rank_le⟩, k.written, hrank.trans_lt k.rank_le⟩

/-- The same of a list of arguments. -/
structure WritesAll (ts : List Token) (es : List Expr) : Prop where
  written : Expr.WrittenAll es
  spell : Spell ts (Expr.symbolsAll es)

mutual

theorem Expression.writes {a b : Nat} {ts : List Token} {e : Expr} :
    Expression a ts e b → Writes 0 ts e
  | .operation h => ⟨h.writes.written, Nat.zero_le _, h.writes.spell⟩
  | .assign hk he hv => ⟨⟨hk, hv.writes.written⟩, le_rfl, .cons rfl (.cons he hv.writes.spell)⟩
  | .set ho hd hk he hv =>
    ⟨⟨⟨ho.writes.written, ho.writes.rank_le⟩, hk, hv.writes.written⟩, le_rfl,
      ho.writes.spell.append (.cons hd (.cons rfl (.cons he hv.writes.spell)))⟩

theorem Operation.writes {level : Level} {a b : Nat} {ts : List Token} {e : Expr} :
    Operation level a ts e b → Writes (level.rank + 1) ts e
  | .operand h => ⟨h.writes.written, (Nat.le_succ _).trans h.writes.rank_le, h.writes.spell⟩
  | .logical hl h hj k =>
    ⟨⟨⟨level, hl, hj⟩, h.writes.operands hj k.writes⟩, hj.rank_eq.ge,
      h.writes.spell.append (.cons rfl k.writes.spell)⟩
  | .binary hl h hj k =>
    ⟨⟨⟨level, hl, hj⟩, h.writes.operands hj k.writes⟩, hj.rank_eq.ge,
      h.writes.spell.append (.cons rfl k.writes.spell)⟩

theorem Operand.writes {level : Level} {a b : Nat} {ts : List Token} {e : Expr} :
    Operand level a ts e b → Writes (level.rank + 2) ts e
  | .and h => h.writes
  | .equality h => h.writes
  | .comparison h => h.writes
  | .term h => h.writes
  | .factor h => h.writes
  | .unary h => h.writes

theorem Unary.writes {a b : Nat} {ts : List Token} {e : Expr} : Unary a ts e b → Writes 7 ts e
  | .operator hn h =>
    ⟨⟨hn, h.writes.written, h.writes.rank_le⟩, le_rfl, .cons rfl h.writes.spell⟩
  | .call h => ⟨h.writes.written, (Nat.le_succ 7).trans h.writes.rank_le, h.writes.spell⟩

theorem Call.writes {a b : Nat} {ts : List Token} {e : Expr} : Call a ts e b → Writes 8 ts e
  | .primary h => h.writes
  | .arguments hc ho ha hp hl =>
    ⟨⟨⟨hc.writes.written, hc.writes.rank_le⟩, hp, hl, ha.writes.written⟩, le_rfl,
      .append (.append hc.writes.spell (.cons ho ha.writes.spell)) (.cons rfl .nil)⟩
  | .property ho hd hk =>
    ⟨⟨⟨ho.writes.written, ho.writes.rank_le⟩, hk⟩, le_rfl,
      ho.writes.spell.append (.cons hd (.cons rfl .nil))⟩

theorem Arguments.writes {a b : Nat} {ts : List Token} {es : List Expr} :
    Arguments a ts es b → WritesAll ts es
  | .none => ⟨trivial, .nil⟩
  | .some h => h.writes

theorem ArgumentList.writes {a b : Nat} {ts : List Token} {es : List Expr} :
    ArgumentList a ts es b → WritesAll ts es
  | .last h => ⟨⟨h.writes.written, trivial⟩, h.writes.spell⟩
  | @ArgumentList.more _ _ _ _ _ _ _ es h hc hs => by
    obtain ⟨hw, hspell⟩ := hs.writes
    rcases es with _ | ⟨e', es⟩
    · cases hs
    · exact ⟨⟨h.writes.written, hw⟩, h.writes.spell.append (.cons hc hspell)⟩

theorem Primary.writes {a b : Nat} {ts : List Token} {e : Expr} : Primary a ts e b → Writes 8 ts e
  | .literal hd => ⟨trivial, le_rfl, .cons hd.kind_eq .nil⟩
  | .this hk => ⟨hk, le_rfl, .cons rfl .nil⟩
  | .super hk hd hm => ⟨⟨hk, hm⟩, le_rfl, .cons rfl (.cons hd (.cons rfl .nil))⟩
  | .variable hk => ⟨hk, le_rfl, .cons rfl .nil⟩
  | .grouping ho h hc =>
    ⟨h.writes.written, le_rfl, .append (.cons ho h.writes.spell) (.cons hc .nil)⟩

end

/-! ### Written trees are derived -/

/-- The phrases whose trees bind at least so tightly. -/
def Phrase : (rank : Nat) → Nat → List Token → Expr → Nat → Prop
  | 0 => Expression
  | 1 => Operation .or
  | 2 => Operation .and
  | 3 => Operation .equality
  | 4 => Operation .comparison
  | 5 => Operation .term
  | 6 => Operation .factor
  | 7 => Unary
  | _ => Call

namespace Phrase

variable {a b rank rank' : Nat} {ts : List Token} {e : Expr}

theorem loosen (h : Phrase (rank + 1) a ts e b) : Phrase rank a ts e b := by
  rcases rank with _ | _ | _ | _ | _ | _ | _ | _ | rank
  · exact .operation h
  · exact .operand (.and h)
  · exact .operand (.equality h)
  · exact .operand (.comparison h)
  · exact .operand (.term h)
  · exact .operand (.factor h)
  · exact .operand (.unary h)
  · exact .call h
  · exact h

theorem of_le (h : Phrase rank a ts e b) (hr : rank' ≤ rank) : Phrase rank' a ts e b := by
  induction hr with
  | refl => exact h
  | step _ ih => exact ih h.loosen

theorem operation {level : Level} (h : Phrase (level.rank + 1) a ts e b) :
    Operation level a ts e b := by
  cases level <;> exact h

theorem of_operation {level : Level} (h : Operation level a ts e b) :
    Phrase (level.rank + 1) a ts e b := by
  cases level <;> exact h

theorem operand {level : Level} (h : Phrase (level.rank + 2) a ts e b) :
    Operand level a ts e b := by
  cases level with
  | or => exact .and h
  | and => exact .equality h
  | equality => exact .comparison h
  | comparison => exact .term h
  | term => exact .factor h
  | factor => exact .unary h

end Phrase

/-- The tree has a phrase with these tokens, whose ids count from any number. -/
def HasPhrase (rank : Nat) (ts : List Token) (e : Expr) : Prop :=
  ∀ a, ∃ e' b, Phrase rank a ts e' b ∧ e'.rename .forget = e.rename .forget

theorem HasPhrase.of_le {rank rank' : Nat} {ts : List Token} {e : Expr} (h : HasPhrase rank ts e)
    (hr : rank' ≤ rank) : HasPhrase rank' ts e := by
  intro a
  obtain ⟨e', b, hp, he⟩ := h a
  exact ⟨e', b, hp.of_le hr, he⟩

theorem rename_node (r : Renaming) (level : Level) (left : Expr) (operator : Token) (right : Expr) :
    (level.node left operator right).rename r =
      level.node (left.rename r) (operator.relabel r.line) (right.rename r) := by
  cases level <;> simp only [Level.node, Expr.rename]

theorem rank_node (level : Level) (left : Expr) (operator : Token) (right : Expr) :
    (level.node left operator right).rank = operator.kind.rank := by
  cases level <;> rfl

theorem HasPhrase.operation {level : Level} {operator : Token} {ts us : List Token}
    {left right : Expr} (hj : Joins level operator.kind)
    (h : HasPhrase operator.kind.rank ts left) (k : HasPhrase (operator.kind.rank + 1) us right) :
    HasPhrase (level.node left operator right).rank (ts ++ operator :: us)
      (level.node left operator right) := by
  rw [rank_node, hj.rank_eq]
  rw [hj.rank_eq] at h k
  intro a
  obtain ⟨left', b, hp, he⟩ := h a
  obtain ⟨right', c, hp', he'⟩ := k b
  refine ⟨level.node left' operator right', c, .of_operation ?_, ?_⟩
  · exact Parser.operation_node hp.operation hj hp'.operand
  · rw [rename_node, rename_node, he, he']

theorem node_of_logical {level : Level} (h : IsLogical level) : level.node = .logical := by
  rcases h with rfl | rfl <;> rfl

theorem node_of_not_logical {level : Level} (h : ¬ IsLogical level) : level.node = .binary := by
  cases level with
  | or => exact absurd (.inl rfl) h
  | and => exact absurd (.inr rfl) h
  | _ => rfl

mutual

theorem hasPhrase_of_written : ∀ (e : Expr) {ts : List Token}, e.Written → Spell ts e.symbols →
    HasPhrase e.rank ts e
  | .literal value, ts, _, hs => by
    obtain ⟨t, ht, rfl⟩ := Symbol.spell_single_iff.1 hs
    have hd : Denotes t.kind value := by
      rw [ht.kind_eq]
      exact denotes_kind value
    exact fun a => ⟨_, a, .primary (.literal hd), rfl⟩
  | .grouping inner, ts, hw, hs => by
    obtain ⟨us, vs, rfl, hus, hvs⟩ := Symbol.spell_append_iff.1 hs
    obtain ⟨opening, us, ho, hinner, rfl⟩ := Symbol.spell_cons_iff.1 hus
    obtain ⟨closing, hc, rfl⟩ := Symbol.spell_single_iff.1 hvs
    intro a
    obtain ⟨e', b, hp, he⟩ := (hasPhrase_of_written inner hw hinner).of_le (Nat.zero_le _) a
    exact ⟨_, b, .primary (.grouping ho hp hc), congrArg Expr.grouping he⟩
  | .unary operator right, ts, ⟨hn, hw, hr⟩, hs => by
    obtain ⟨t, us, rfl, hus, rfl⟩ := Symbol.spell_cons_iff.1 hs
    intro a
    obtain ⟨e', b, hp, he⟩ := (hasPhrase_of_written right hw hus).of_le hr a
    exact ⟨_, b, .operator hn hp, congrArg (Expr.unary _) he⟩
  | .binary left operator right, ts, ⟨⟨level, hl, hj⟩, ⟨hw, hr⟩, hw', hr'⟩, hs => by
    obtain ⟨us, vs, rfl, hleft, hvs⟩ := Symbol.spell_append_iff.1 hs
    obtain ⟨t, vs, rfl, hright, rfl⟩ := Symbol.spell_cons_iff.1 hvs
    rw [← node_of_not_logical hl]
    -- The left operand may be of this level itself, the right one binds more tightly.
    have h := (hasPhrase_of_written left hw hleft).of_le hr
    exact h.operation hj ((hasPhrase_of_written right hw' hright).of_le hr')
  | .logical left operator right, ts, ⟨⟨level, hl, hj⟩, ⟨hw, hr⟩, hw', hr'⟩, hs => by
    obtain ⟨us, vs, rfl, hleft, hvs⟩ := Symbol.spell_append_iff.1 hs
    obtain ⟨t, vs, rfl, hright, rfl⟩ := Symbol.spell_cons_iff.1 hvs
    rw [← node_of_logical hl]
    have h := (hasPhrase_of_written left hw hleft).of_le hr
    exact h.operation hj ((hasPhrase_of_written right hw' hright).of_le hr')
  | .variable id name, ts, hk, hs => by
    obtain ⟨t, rfl, rfl⟩ := Symbol.spell_single_iff.1 hs
    exact fun a => ⟨_, a + 1, .primary (.variable hk), rfl⟩
  | .assign id name value, ts, ⟨hk, hw⟩, hs => by
    obtain ⟨t, us, rfl, hus, rfl⟩ := Symbol.spell_cons_iff.1 hs
    obtain ⟨equals, us, heq, hvalue, rfl⟩ := Symbol.spell_cons_iff.1 hus
    intro a
    obtain ⟨e', b, hp, he⟩ := (hasPhrase_of_written value hw hvalue).of_le (Nat.zero_le _) (a + 1)
    exact ⟨_, b + 1, .assign hk heq hp, congrArg (Expr.assign _ _) he⟩
  | .call callee paren arguments, ts, ⟨⟨hw, hr⟩, hk, hl, hws⟩, hs => by
    obtain ⟨us, vs, rfl, hus, hvs⟩ := Symbol.spell_append_iff.1 hs
    obtain ⟨us, ws, rfl, hcallee, hws'⟩ := Symbol.spell_append_iff.1 hus
    obtain ⟨opening, ws, ho, harguments, rfl⟩ := Symbol.spell_cons_iff.1 hws'
    obtain ⟨t, rfl, rfl⟩ := Symbol.spell_single_iff.1 hvs
    intro a
    obtain ⟨f, b, hp, he⟩ := (hasPhrase_of_written callee hw hcallee).of_le hr a
    obtain ⟨es, c, hp', hes⟩ := hasArguments_of_written arguments hws harguments b
    have hlength : es.length = arguments.length := by
      simpa [Expr.renameAll_eq_map] using congrArg List.length hes
    refine ⟨.call f t es, c, .arguments hp ho hp' hk (hlength.trans_le hl), ?_⟩
    simp only [Expr.rename, he, hes]
  | .get object name, ts, ⟨⟨hw, hr⟩, hk⟩, hs => by
    obtain ⟨us, vs, rfl, hobject, hvs⟩ := Symbol.spell_append_iff.1 hs
    obtain ⟨dot, vs, hd, hname, rfl⟩ := Symbol.spell_cons_iff.1 hvs
    obtain ⟨t, rfl, rfl⟩ := Symbol.spell_single_iff.1 hname
    intro a
    obtain ⟨e', b, hp, he⟩ := (hasPhrase_of_written object hw hobject).of_le hr a
    refine ⟨.get e' t, b, .property hp hd hk, ?_⟩
    simp only [Expr.rename, he]
  | .set object name value, ts, ⟨⟨hw, hr⟩, hk, hw'⟩, hs => by
    obtain ⟨us, vs, rfl, hobject, hvs⟩ := Symbol.spell_append_iff.1 hs
    obtain ⟨dot, vs, hd, hname, rfl⟩ := Symbol.spell_cons_iff.1 hvs
    obtain ⟨t, vs, rfl, hequals, rfl⟩ := Symbol.spell_cons_iff.1 hname
    obtain ⟨equals, vs, heq, hvalue, rfl⟩ := Symbol.spell_cons_iff.1 hequals
    intro a
    obtain ⟨o, b, hp, he⟩ := (hasPhrase_of_written object hw hobject).of_le hr a
    obtain ⟨v, c, hp', he'⟩ := (hasPhrase_of_written value hw' hvalue).of_le (Nat.zero_le _) b
    refine ⟨.set o t v, c, .set hp hd hk heq hp', ?_⟩
    simp only [Expr.rename, he, he']
  | .this id keyword, ts, hk, hs => by
    obtain ⟨t, rfl, rfl⟩ := Symbol.spell_single_iff.1 hs
    exact fun a => ⟨_, a + 1, .primary (.this hk), rfl⟩
  | .super id keyword method, ts, ⟨hk, hm⟩, hs => by
    obtain ⟨t, us, rfl, hus, rfl⟩ := Symbol.spell_cons_iff.1 hs
    obtain ⟨dot, us, hd, hmethod, rfl⟩ := Symbol.spell_cons_iff.1 hus
    obtain ⟨t', rfl, rfl⟩ := Symbol.spell_single_iff.1 hmethod
    exact fun a => ⟨_, a + 1, .primary (.super hk hd hm), rfl⟩

theorem hasArguments_of_written : ∀ (es : List Expr) {ts : List Token}, Expr.WrittenAll es →
    Spell ts (Expr.symbolsAll es) → ∀ a, ∃ es' b, Arguments a ts es' b ∧
      Expr.renameAll .forget es' = Expr.renameAll .forget es
  | [], ts, _, hs, a => by
    obtain rfl := Symbol.spell_nil_iff.1 hs
    exact ⟨[], a, .none, rfl⟩
  | [e], ts, ⟨hw, _⟩, hs, a => by
    obtain ⟨e', b, hp, he⟩ := (hasPhrase_of_written e hw hs).of_le (Nat.zero_le _) a
    refine ⟨[e'], b, .some (.last hp), ?_⟩
    simp only [Expr.renameAll, he]
  | e :: e₁ :: es, ts, ⟨hw, hws⟩, hs, a => by
    obtain ⟨us, vs, rfl, hus, hvs⟩ := Symbol.spell_append_iff.1 hs
    obtain ⟨comma, vs, hc, hrest, rfl⟩ := Symbol.spell_cons_iff.1 hvs
    obtain ⟨e', b, hp, he⟩ := (hasPhrase_of_written e hw hus).of_le (Nat.zero_le _) a
    obtain ⟨es', c, hp', hes⟩ := hasArguments_of_written (e₁ :: es) hws hrest b
    cases hp' with
    | none => simp [Expr.renameAll] at hes
    | some hp' =>
      refine ⟨e' :: es', c, .some (.more hp hc hp'), ?_⟩
      rw [Expr.renameAll, he, hes]
      rfl

end

end Grammar

/-! ### Parsing -/

namespace Parser

open Lox.Symbol (Spell)

variable {eof : Token}

theorem expressionOnly_eq_ok_iff {ts : List Token} (hts : ∀ t ∈ ts, t.kind ≠ .eof)
    (heof : eof.kind = .eof) (first : Nat) (e : Expr) (next : Nat) :
    expressionOnly (ts ++ [eof]) first = (.ok e, next) ↔ Expression first ts e next := by
  simp only [expressionOnly, ofList_append hts heof]
  constructor
  · intro h
    rcases hx : expression (fuelFor ts) ⟨ts, eof, first⟩ with ⟨e', s⟩ | ⟨error, s⟩
    · obtain ⟨us, hus, he⟩ := takes_expression _ _ e' s hx
      rw [bind_ok hx] at h
      rcases hs : s.ahead with _ | ⟨t, rest⟩
      · simp only [Bind.bind, EStateM.bind, atEnd, hs, List.isEmpty_nil, if_true] at h
        obtain ⟨he', rfl⟩ := Prod.mk.inj h
        cases he'
        obtain rfl : ts = us := by simpa [hs] using hus
        exact he
      · simp only [Bind.bind, EStateM.bind, atEnd, hs, List.isEmpty_cons, Bool.false_eq_true,
          if_false] at h
        cases h
    · simp only [Bind.bind, EStateM.bind, hx] at h
      cases h
  · intro h
    have hread : expression (fuelFor ts) ⟨ts ++ [], eof, first⟩ = .ok e ⟨[], eof, next⟩ :=
      h.read _ [] (by simp only [fuelFor]; omega) .nil
    rw [List.append_nil] at hread
    rw [bind_ok hread]
    rfl

/-- Parsing an expression is the inverse of writing one down. Exactly what the grammar allows has a
tree, and the tree is written with the tokens that it was read from; and of every tree that can be
written with those tokens it is the same tree up to ids. -/
theorem expressionOnly_inverts_writing {ts : List Token} (hts : ∀ t ∈ ts, t.kind ≠ .eof)
    (heof : eof.kind = .eof) (first : Nat) :
    ((∃ e, (expressionOnly (ts ++ [eof]) first).1 = .ok e) ↔
      ∃ e next, Expression first ts e next) ∧
    (∀ e next, expressionOnly (ts ++ [eof]) first = (.ok e, next) →
      Expression first ts e next ∧ e.Written ∧ Spell ts e.symbols ∧
        e.kinds = ts.map Token.kind) ∧
    ∀ e : Expr, e.Written → Spell ts e.symbols →
      ∃ e' next, expressionOnly (ts ++ [eof]) first = (.ok e', next) ∧
        e'.rename .forget = e.rename .forget := by
  have hiff := expressionOnly_eq_ok_iff hts heof first
  refine ⟨⟨?_, ?_⟩, fun e next h => ?_, fun e hw hs => ?_⟩
  · rintro ⟨e, h⟩
    exact ⟨e, _, (hiff e _).1 (Prod.ext h rfl)⟩
  · rintro ⟨e, next, h⟩
    exact ⟨e, congrArg Prod.fst ((hiff e next).2 h)⟩
  · have hderived := (hiff e next).1 h
    obtain ⟨hw, -, hs⟩ := hderived.writes
    exact ⟨hderived, hw, hs, hs.kinds_eq⟩
  · obtain ⟨e', next, hp, he⟩ := (hasPhrase_of_written e hw hs).of_le (Nat.zero_le _) first
    exact ⟨e', next, (hiff e' next).2 hp, he⟩

/-- The tree of `a.b = c - d - e`. -/
theorem expressionOnly_inverts_writing_set :
    let name (text : String) : Token := ⟨.identifier, text, 1⟩
    let mark (p : Punct) (text : String) : Token := ⟨.punct p, text, 1⟩
    let eof : Token := ⟨.eof, "", 1⟩
    let ts := [name "a", mark .dot ".", name "b", mark .equal "=", name "c", mark .minus "-",
      name "d", mark .minus "-", name "e"]
    let occurrence (text : String) : Expr := .variable ⟨0⟩ (name text)
    (∀ t ∈ ts, t.kind ≠ .eof) ∧ eof.kind = .eof ∧
      ∃ e next, expressionOnly (ts ++ [eof]) 7 = (.ok e, next) ∧ e.rename .forget =
        .set (occurrence "a") (name "b") (.binary
          (.binary (occurrence "c") (mark .minus "-") (occurrence "d")) (mark .minus "-")
          (occurrence "e")) := by
  intro name mark eof ts occurrence
  have hts : ∀ t ∈ ts, t.kind ≠ .eof := by simp [ts, name, mark]
  have hminus : ∃ level, ¬ IsLogical level ∧ Joins level (mark .minus "-").kind :=
    ⟨.term, by simp [IsLogical], .minus⟩
  have hinner : (Expr.binary (occurrence "c") (mark .minus "-") (occurrence "d")).Written :=
    ⟨hminus, ⟨rfl, by decide⟩, rfl, by decide⟩
  have hvalue : (Expr.binary (.binary (occurrence "c") (mark .minus "-") (occurrence "d"))
      (mark .minus "-") (occurrence "e")).Written :=
    ⟨hminus, ⟨hinner, le_rfl⟩, rfl, by decide⟩
  have hspell : Spell ts (Expr.set (occurrence "a") (name "b") (.binary
      (.binary (occurrence "c") (mark .minus "-") (occurrence "d")) (mark .minus "-")
      (occurrence "e"))).symbols :=
    .cons rfl (.cons rfl (.cons rfl (.cons rfl (.cons rfl (.cons rfl (.cons rfl (.cons rfl
      (.cons rfl .nil))))))))
  have hinverts := (expressionOnly_inverts_writing hts (rfl : eof.kind = .eof) 7).2.2
  have hset := hinverts (.set (occurrence "a") (name "b") _) ⟨⟨rfl, le_rfl⟩, rfl, hvalue⟩ hspell
  exact ⟨hts, rfl, hset⟩

end Parser

end Lox

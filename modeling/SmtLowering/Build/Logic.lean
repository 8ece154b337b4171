import SmtLowering.Build.Basic

/-!
# Connectives, choice and comparison

A truth value that decides a connective decides it whatever the other operand is, also one of
another scope. On words the connectives work bit by bit.
-/

namespace SmtLowering.Build

section Connectives

/-- The operand of a connective is a truth value or a word. -/
def requireBits (op : String) (a : Value) : Build Unit :=
  require op a (a.kind.isBool || a.kind.isBitVec)

def not (a : Value) : Build Value := do
  requireBits "not" a
  unary .not a a.kind

def and (a b : Value) : Build Value := do
  sameKind "and" a b
  requireBits "and" a
  match a.asBool?, b.asBool? with
  | some false, _ | _, some false => pure (.bool false)
  | some true, _ => pure b
  | _, some true => pure a
  | none, none => binary .and a b a.kind

def or (a b : Value) : Build Value := do
  sameKind "or" a b
  requireBits "or" a
  match a.asBool?, b.asBool? with
  | some true, _ | _, some true => pure (.bool true)
  | some false, _ => pure b
  | _, some false => pure a
  | none, none => binary .or a b a.kind

def xor (a b : Value) : Build Value := do
  sameKind "xor" a b
  requireBits "xor" a
  match a.asBool?, b.asBool? with
  | some x, some y => pure (.bool (x != y))
  | some false, none => pure b
  | none, some false => pure a
  | some true, none => not b
  | none, some true => not a
  | none, none => binary .xor a b a.kind

def implies (a b : Value) : Build Value := do
  sameKind "implies" a b
  require "implies" a a.kind.isBool
  binary .implies a b .bool

/-- The conjunction of the values. -/
def all (vs : List Value) : Build Value := vs.foldlM and (.bool true)

end Connectives

/-- `t` if the condition holds and `e` otherwise. Branches that are equal need no condition. -/
def ite (c t e : Value) : Build Value := do
  require "ite" c c.kind.isBool
  sameKind "ite" t e
  match c.asBool? with
  | some true => pure t
  | some false => pure e
  | none =>
    if t.equal e then pure t
    else
      let nc ← materialize c
      let nt ← materialize t
      let ne ← materialize e
      intern ⟨.ite, t.kind, [nc, nt, ne]⟩ t.kind

section Comparison

def eq (a b : Value) : Build Value := do
  sameKind "==" a b
  binary .eq a b .bool

def neq (a b : Value) : Build Value := do
  sameKind "!=" a b
  binary .neq a b .bool

def ordering (op : Op) (name : String) (a b : Value) : Build Value := do
  sameKind name a b
  require name a (a.kind.isNumeric || a.kind.isFloat)
  binary op a b .bool

def lt (a b : Value) : Build Value := ordering .lt "<" a b

def le (a b : Value) : Build Value := ordering .le "<=" a b

def gt (a b : Value) : Build Value := ordering .gt ">" a b

def ge (a b : Value) : Build Value := ordering .ge ">=" a b

end Comparison

end SmtLowering.Build

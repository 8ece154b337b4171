import SmtLowering.Error
import SmtLowering.Fold
import SmtLowering.Session

/-!
# Building values in a scope

A `Build` step may grow the scope and may fail; what it added before failing stays. `unary` and
`binary` fold literals where `Fold` can and otherwise make a node. A value of another scope is
refused as soon as it would become an operand (`materialize`).
-/

namespace SmtLowering

abbrev Build := ExceptT (Fault ValueError) (StateM Scope)

namespace Build

section Checks

def fail {α : Type} (e : ValueError) : Build α := throw (.error e)

def sameKind (op : String) (a b : Value) : Build Unit :=
  if a.kind = b.kind then pure () else fail (.kindMismatch op a.kind b.kind)

def require (op : String) (a : Value) (ok : Bool) : Build Unit :=
  if ok then pure () else fail (.invalidOperand op a.kind)

/-- The width of an operand that has to be a word. -/
def wordWidth (op : String) (a : Value) : Build Nat :=
  match a.kind.width? with
  | some w => pure w
  | none => fail (.invalidOperand op a.kind)

end Checks

section Nodes

/-- The node of a value, a literal becoming a constant. -/
def materialize (v : Value) : Build NodeId :=
  match v with
  | .concrete c => modifyGet (·.constant c)
  | .symbolic node _ scope => do
    let s ← get
    if scope = s.number then pure node else fail (.foreignValue node scope s.number)

def intern (e : Expr) (k : Kind) : Build Value := modifyGet (·.intern e k)

/-- The literal that a unary operator gives on a literal. -/
def foldUnary? (op : Op) (a : Value) (result : Kind) : Option Literal :=
  match a with
  | .concrete c => foldUnary op c result
  | .symbolic .. => none

/-- The literal that a binary operator gives on literals. -/
def foldBinary? (op : Op) (a b : Value) (result : Kind) : Option Literal :=
  match a, b with
  | .concrete c, .concrete d => foldBinary op c d result
  | _, _ => none

def unary (op : Op) (a : Value) (result : Kind) : Build Value :=
  match foldUnary? op a result with
  | some c => pure (.concrete c)
  | none => do
    let n ← materialize a
    intern ⟨op, a.kind, [n]⟩ result

def binary (op : Op) (a b : Value) (result : Kind) : Build Value :=
  match foldBinary? op a b result with
  | some c => pure (.concrete c)
  | none => do
    let n ← materialize a
    let m ← materialize b
    intern ⟨op, a.kind, [n, m]⟩ result

/-- A fresh input. -/
def input (role : InputRole) (name : String) (k : Kind) : Build Value :=
  modifyGet fun s =>
    let (n, s) := s.freshNode k
    (.symbolic n k s.number, { s with inputs := s.inputs ++ [⟨n, name, k, role⟩] })

/-- The element of an array at an index. -/
def select (array index : Value) : Build Value :=
  match array.kind with
  | .array key value =>
    if key = index.kind then binary .select array index value
    else fail (.kindMismatch "select" key index.kind)
  | kind => fail (.invalidOperand "select" kind)

end Nodes

end Build

end SmtLowering

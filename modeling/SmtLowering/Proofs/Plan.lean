import Mathlib.Tactic.SplitIfs
import SmtLowering.Build.Arithmetic
import SmtLowering.Build.Logic
import SmtLowering.Work

/-!
# What an operation does

`outcome` runs a step. An operation on values looks at its operands and then does one of three
things: it gives a value, refuses, or makes the node of an expression over its operands
(`Plan`). Which one does not depend on the scope: `Primitive.plan` reads it off the operands, and
`Primitive.build_eq` says that the operation is its plan, carried out.
-/

namespace SmtLowering

section Outcome

variable {σ α β : Type}

/-- The result of a step and the state it leaves. -/
def outcome (m : ExceptT (Fault ValueError) (StateM σ) α) (s : σ) :
    Except (Fault ValueError) α × σ := m.run.run s

@[simp]
theorem outcome_pure (a : α) (s : σ) :
    outcome (pure a : ExceptT (Fault ValueError) (StateM σ) α) s = (.ok a, s) := rfl

theorem outcome_bind (m : ExceptT (Fault ValueError) (StateM σ) α)
    (f : α → ExceptT (Fault ValueError) (StateM σ) β) (s : σ) :
    outcome (m >>= f) s =
      match outcome m s with
      | (.ok a, s') => outcome (f a) s'
      | (.error e, s') => (.error e, s') := by
  simp only [outcome, ExceptT.run_bind, StateT.run_bind]
  rcases m.run.run s with ⟨_ | _, _⟩ <;> rfl

theorem outcome_bind_ok {m : ExceptT (Fault ValueError) (StateM σ) α}
    {f : α → ExceptT (Fault ValueError) (StateM σ) β} {s s' : σ} {a : α}
    (h : outcome m s = (.ok a, s')) : outcome (m >>= f) s = outcome (f a) s' := by
  rw [outcome_bind, h]

@[simp]
theorem outcome_get (s : σ) :
    outcome (get : ExceptT (Fault ValueError) (StateM σ) σ) s = (.ok s, s) := rfl

/-- A step of the scope leaves the session alone. -/
theorem outcome_build (m : Build α) (w : Workspace) :
    outcome (Work.build m : Work α) w =
      ((outcome m w.scope).1, { w with scope := (outcome m w.scope).2 }) := rfl

end Outcome

/-- What an operation does with its operands. -/
inductive Plan
  | give (v : Value)
  | refuse (f : Fault ValueError)
  /-- The node of an operator over the operands, under a kind. -/
  | node (op : Op) (domain : Kind) (operands : List Value) (kind : Kind)

namespace Plan

def exec : Plan → Build Value
  | .give v => pure v
  | .refuse f => throw f
  | .node op domain operands kind => do
    let nodes ← operands.mapM Build.materialize
    Build.intern ⟨op, domain, nodes⟩ kind

section Checks

def sameKind (op : String) (a b : Value) (p : Plan) : Plan :=
  if a.kind = b.kind then p else .refuse (.error (.kindMismatch op a.kind b.kind))

def require (op : String) (a : Value) (ok : Bool) (p : Plan) : Plan :=
  if ok then p else .refuse (.error (.invalidOperand op a.kind))

def wordWidth (op : String) (a : Value) (p : Nat → Plan) : Plan :=
  match a.kind.width? with
  | some w => p w
  | none => .refuse (.error (.invalidOperand op a.kind))

theorem exec_sameKind (op : String) (a b : Value) (p : Plan) :
    (sameKind op a b p).exec = (do Build.sameKind op a b; p.exec) := by
  unfold sameKind Build.sameKind
  split
  · rfl
  · rfl

theorem exec_require (op : String) (a : Value) (ok : Bool) (p : Plan) :
    (require op a ok p).exec = (do Build.require op a ok; p.exec) := by
  unfold require Build.require
  split
  · rfl
  · rfl

theorem exec_wordWidth (op : String) (a : Value) (p : Nat → Plan) :
    (wordWidth op a p).exec = (do let w ← Build.wordWidth op a; (p w).exec) := by
  unfold wordWidth Build.wordWidth
  cases a.kind.width? with
  | some w => simp
  | none => rfl

end Checks

section Folding

def unary (op : Op) (a : Value) (result : Kind) : Plan :=
  match Build.foldUnary? op a result with
  | some c => .give (.concrete c)
  | none => .node op a.kind [a] result

def binary (op : Op) (a b : Value) (result : Kind) : Plan :=
  match Build.foldBinary? op a b result with
  | some c => .give (.concrete c)
  | none => .node op a.kind [a, b] result

theorem exec_unary (op : Op) (a : Value) (result : Kind) :
    (unary op a result).exec = Build.unary op a result := by
  unfold unary Build.unary
  cases Build.foldUnary? op a result with
  | some c => rfl
  | none => simp [exec]

theorem exec_binary (op : Op) (a b : Value) (result : Kind) :
    (binary op a b result).exec = Build.binary op a b result := by
  unfold binary Build.binary
  cases Build.foldBinary? op a b result with
  | some c => rfl
  | none => simp [exec]

end Folding

section Operators

def bits (op : String) (a : Value) (p : Plan) : Plan :=
  require op a (a.kind.isBool || a.kind.isBitVec) p

def not (a : Value) : Plan := bits "not" a (unary .not a a.kind)

def and (a b : Value) : Plan :=
  sameKind "and" a b <| bits "and" a <|
    match a.asBool?, b.asBool? with
    | some false, _ | _, some false => .give (.bool false)
    | some true, _ => .give b
    | _, some true => .give a
    | none, none => binary .and a b a.kind

def or (a b : Value) : Plan :=
  sameKind "or" a b <| bits "or" a <|
    match a.asBool?, b.asBool? with
    | some true, _ | _, some true => .give (.bool true)
    | some false, _ => .give b
    | _, some false => .give a
    | none, none => binary .or a b a.kind

def xor (a b : Value) : Plan :=
  sameKind "xor" a b <| bits "xor" a <|
    match a.asBool?, b.asBool? with
    | some x, some y => .give (.bool (x != y))
    | some false, none => .give b
    | none, some false => .give a
    | some true, none => not b
    | none, some true => not a
    | none, none => binary .xor a b a.kind

def implies (a b : Value) : Plan :=
  sameKind "implies" a b <| require "implies" a a.kind.isBool <| binary .implies a b .bool

def ite (c t e : Value) : Plan :=
  require "ite" c c.kind.isBool <| sameKind "ite" t e <|
    match c.asBool? with
    | some true => .give t
    | some false => .give e
    | none => if t.equal e then .give t else .node .ite t.kind [c, t, e] t.kind

def equality (op : Op) (name : String) (a b : Value) : Plan :=
  sameKind name a b <| binary op a b .bool

def ordering (op : Op) (name : String) (a b : Value) : Plan :=
  sameKind name a b <| require name a (a.kind.isNumeric || a.kind.isFloat) <| binary op a b .bool

def arith (op : Op) (name : String) (a b : Value) : Plan :=
  sameKind name a b <| require name a a.kind.isNumeric <| binary op a b a.kind

def neg (a : Value) : Plan := require "negate" a a.kind.isNumeric <| unary .neg a a.kind

def extend (op : Nat → Op) (name : String) (a : Value) (width : Nat) : Plan :=
  wordWidth name a fun source =>
    if width < source then .refuse (.violation (.narrowing name width source a.kind))
    else if width = source then .give a
    else unary (op (width - source)) a (a.kind.withWidth width)

def extract (a : Value) (hi lo : Nat) : Plan :=
  wordWidth "extract" a fun w => require "extract" a (lo ≤ hi && hi < w) <|
    if lo = 0 ∧ hi + 1 = w ∧ !a.kind.isSigned then .give a
    else unary (.extract hi lo) a (.unsigned (hi - lo + 1))

def testBit (a : Value) (i : Nat) : Plan :=
  wordWidth "test_bit" a fun w => require "test_bit" a (i < w) <| unary (.testBit i) a .bool

def signBit (a : Value) : Plan :=
  wordWidth "sign_bit" a fun w =>
    match w with
    | 0 => .give (.bool false)
    | w + 1 => testBit a w

def native (op : Op) (name : String) (a b : Value) : Plan :=
  sameKind name a b <| wordWidth name a fun _ => binary op a b .bool

def select (array index : Value) : Plan :=
  match array.kind with
  | .array key value =>
    if key = index.kind then binary .select array index value
    else .refuse (.error (.kindMismatch "select" key index.kind))
  | kind => .refuse (.error (.invalidOperand "select" kind))

theorem exec_bits (op : String) (a : Value) (p : Plan) :
    (bits op a p).exec = (do Build.requireBits op a; p.exec) := exec_require op a _ p

theorem exec_not (a : Value) : (not a).exec = Build.not a := by
  simp only [not, exec_bits, exec_unary, Build.not]

theorem exec_and (a b : Value) : (and a b).exec = Build.and a b := by
  simp only [and, exec_sameKind, exec_bits, Build.and]
  rcases a.asBool? with _ | _ | _ <;> rcases b.asBool? with _ | _ | _ <;>
    simp only [exec_binary] <;> rfl

theorem exec_or (a b : Value) : (or a b).exec = Build.or a b := by
  simp only [or, exec_sameKind, exec_bits, Build.or]
  rcases a.asBool? with _ | _ | _ <;> rcases b.asBool? with _ | _ | _ <;>
    simp only [exec_binary] <;> rfl

theorem exec_xor (a b : Value) : (xor a b).exec = Build.xor a b := by
  simp only [xor, exec_sameKind, exec_bits, Build.xor]
  rcases a.asBool? with _ | _ | _ <;> rcases b.asBool? with _ | _ | _ <;>
    simp only [exec_binary, exec_not] <;> rfl

theorem exec_ite (c t e : Value) : (ite c t e).exec = Build.ite c t e := by
  simp only [ite, exec_sameKind, exec_require, Build.ite]
  rcases c.asBool? with _ | _ | _
  · by_cases h : t.equal e = true
    · simp only [h, if_true]; rfl
    · simp [h, exec]
  · rfl
  · rfl

theorem exec_extend (op : Nat → Op) (name : String) (a : Value) (width : Nat) :
    (extend op name a width).exec = Build.extend op name a width := by
  simp only [extend, exec_wordWidth, Build.extend]
  refine bind_congr fun source => ?_
  split_ifs
  · rfl
  · rfl
  · exact exec_unary _ _ _

theorem exec_extract (a : Value) (hi lo : Nat) :
    (extract a hi lo).exec = Build.extract a hi lo := by
  simp only [extract, exec_wordWidth, exec_require, Build.extract]
  refine bind_congr fun w => bind_congr fun _ => ?_
  split_ifs
  · rfl
  · exact exec_unary _ _ _

theorem exec_testBit (a : Value) (i : Nat) : (testBit a i).exec = Build.testBit a i := by
  simp only [testBit, exec_wordWidth, exec_require, exec_unary, Build.testBit]

theorem exec_signBit (a : Value) : (signBit a).exec = Build.signBit a := by
  simp only [signBit, exec_wordWidth, Build.signBit]
  refine bind_congr fun w => ?_
  cases w with
  | zero => rfl
  | succ w => exact exec_testBit a w

theorem exec_select (array index : Value) :
    (select array index).exec = Build.select array index := by
  unfold select Build.select
  cases array.kind with
  | array key value =>
    simp only
    split_ifs
    · exact exec_binary _ _ _ _
    · rfl
  | _ => rfl

end Operators

end Plan

/-- The operations on values that a scope carries out by itself. -/
inductive Primitive
  | not (a : Value)
  | and (a b : Value)
  | or (a b : Value)
  | xor (a b : Value)
  | implies (a b : Value)
  | ite (c t e : Value)
  | eq (a b : Value)
  | neq (a b : Value)
  | lt (a b : Value)
  | le (a b : Value)
  | gt (a b : Value)
  | ge (a b : Value)
  | add (a b : Value)
  | sub (a b : Value)
  | mul (a b : Value)
  | div (a b : Value)
  | neg (a : Value)
  | zeroExtend (a : Value) (width : Nat)
  | signExtend (a : Value) (width : Nat)
  | extract (a : Value) (hi lo : Nat)
  | testBit (a : Value) (i : Nat)
  | signBit (a : Value)
  | umulNoOverflow (a b : Value)
  | smulNoOverflow (a b : Value)
  | smulNoUnderflow (a b : Value)
  | select (array index : Value)

namespace Primitive

def build : Primitive → Build Value
  | .not a => Build.not a
  | .and a b => Build.and a b
  | .or a b => Build.or a b
  | .xor a b => Build.xor a b
  | .implies a b => Build.implies a b
  | .ite c t e => Build.ite c t e
  | .eq a b => Build.eq a b
  | .neq a b => Build.neq a b
  | .lt a b => Build.lt a b
  | .le a b => Build.le a b
  | .gt a b => Build.gt a b
  | .ge a b => Build.ge a b
  | .add a b => Build.add a b
  | .sub a b => Build.sub a b
  | .mul a b => Build.mul a b
  | .div a b => Build.div a b
  | .neg a => Build.neg a
  | .zeroExtend a w => Build.zeroExtend a w
  | .signExtend a w => Build.signExtend a w
  | .extract a hi lo => Build.extract a hi lo
  | .testBit a i => Build.testBit a i
  | .signBit a => Build.signBit a
  | .umulNoOverflow a b => Build.umulNoOverflow a b
  | .smulNoOverflow a b => Build.smulNoOverflow a b
  | .smulNoUnderflow a b => Build.smulNoUnderflow a b
  | .select a i => Build.select a i

def operands : Primitive → List Value
  | .not a | .neg a | .signBit a => [a]
  | .zeroExtend a _ | .signExtend a _ | .extract a _ _ | .testBit a _ => [a]
  | .and a b | .or a b | .xor a b | .implies a b => [a, b]
  | .eq a b | .neq a b | .lt a b | .le a b | .gt a b | .ge a b => [a, b]
  | .add a b | .sub a b | .mul a b | .div a b => [a, b]
  | .umulNoOverflow a b | .smulNoOverflow a b | .smulNoUnderflow a b => [a, b]
  | .select a i => [a, i]
  | .ite c t e => [c, t, e]

def plan : Primitive → Plan
  | .not a => .not a
  | .and a b => .and a b
  | .or a b => .or a b
  | .xor a b => .xor a b
  | .implies a b => .implies a b
  | .ite c t e => .ite c t e
  | .eq a b => .equality .eq "==" a b
  | .neq a b => .equality .neq "!=" a b
  | .lt a b => .ordering .lt "<" a b
  | .le a b => .ordering .le "<=" a b
  | .gt a b => .ordering .gt ">" a b
  | .ge a b => .ordering .ge ">=" a b
  | .add a b => .arith .add "+" a b
  | .sub a b => .arith .sub "-" a b
  | .mul a b => .arith .mul "*" a b
  | .div a b => .arith .div "/" a b
  | .neg a => .neg a
  | .zeroExtend a w => .extend .zeroExtend "zero_extend" a w
  | .signExtend a w => .extend .signExtend "sign_extend" a w
  | .extract a hi lo => .extract a hi lo
  | .testBit a i => .testBit a i
  | .signBit a => .signBit a
  | .umulNoOverflow a b => .native .umulNoOverflow "bvumul_noovfl" a b
  | .smulNoOverflow a b => .native .smulNoOverflow "bvsmul_noovfl" a b
  | .smulNoUnderflow a b => .native .smulNoUnderflow "bvsmul_noudfl" a b
  | .select a i => .select a i

/-- An operation is its plan, carried out. -/
theorem build_eq (p : Primitive) : p.build = p.plan.exec := by
  cases p with
  | not a => exact (Plan.exec_not a).symm
  | and a b => exact (Plan.exec_and a b).symm
  | or a b => exact (Plan.exec_or a b).symm
  | xor a b => exact (Plan.exec_xor a b).symm
  | ite c t e => exact (Plan.exec_ite c t e).symm
  | zeroExtend a w => exact (Plan.exec_extend _ _ a w).symm
  | signExtend a w => exact (Plan.exec_extend _ _ a w).symm
  | extract a hi lo => exact (Plan.exec_extract a hi lo).symm
  | testBit a i => exact (Plan.exec_testBit a i).symm
  | signBit a => exact (Plan.exec_signBit a).symm
  | select a i => exact (Plan.exec_select a i).symm
  | implies a b =>
    simp only [plan, build, Plan.implies, Plan.exec_sameKind, Plan.exec_require, Plan.exec_binary,
      Build.implies]
  | eq a b | neq a b =>
    simp only [plan, build, Plan.equality, Plan.exec_sameKind, Plan.exec_binary, Build.eq,
      Build.neq]
  | lt a b | le a b | gt a b | ge a b =>
    simp only [plan, build, Plan.ordering, Plan.exec_sameKind, Plan.exec_require,
      Plan.exec_binary, Build.lt, Build.le, Build.gt, Build.ge, Build.ordering]
  | add a b | sub a b | mul a b | div a b =>
    simp only [plan, build, Plan.arith, Plan.exec_sameKind, Plan.exec_require, Plan.exec_binary,
      Build.add, Build.sub, Build.mul, Build.div, Build.arith]
  | neg a =>
    simp only [plan, build, Plan.neg, Plan.exec_require, Plan.exec_unary, Build.neg]
  | umulNoOverflow a b | smulNoOverflow a b | smulNoUnderflow a b =>
    simp only [plan, build, Plan.native, Plan.exec_sameKind, Plan.exec_wordWidth,
      Plan.exec_binary, Build.umulNoOverflow, Build.smulNoOverflow, Build.smulNoUnderflow,
      Build.native]

end Primitive

end SmtLowering

import ObjectMachine.Construction

/-!
# Primitives

A method may name a primitive, which is tried before its code. A primitive only
reads the machine. What it wants done is an `Effect`: to answer a value, to
write one element, to allocate an object, to run a block, or nothing when it
declines its operands.
-/

namespace ObjectMachine

inductive Arithmetic where
  | add | subtract | multiply
deriving DecidableEq, Repr

inductive Comparison where
  | equal | less | greater
deriving DecidableEq, Repr

namespace Arithmetic

def sign : Arithmetic → String
  | add => "+"
  | subtract => "-"
  | multiply => "*"

def onInt : Arithmetic → Int → Int → Int
  | add => (· + ·)
  | subtract => (· - ·)
  | multiply => (· * ·)

def onFloat : Arithmetic → Binary64 → Binary64 → Binary64
  | add => Binary64.add
  | subtract => Binary64.sub
  | multiply => Binary64.mul

end Arithmetic

namespace Comparison

def onInt : Comparison → Int → Int → Bool
  | equal => fun a b => a = b
  | less => fun a b => a < b
  | greater => fun a b => b < a

def onFloat : Comparison → Binary64 → Binary64 → Bool
  | equal => Binary64.eq
  | less => Binary64.lt
  | greater => fun a b => b.lt a

end Comparison

inductive Primitive where
  | integerArithmetic (op : Arithmetic)
  | integerComparison (op : Comparison)
  | floatArithmetic (op : Arithmetic)
  | floatDivide
  | floatComparison (op : Comparison)
  | basicClass
  | blockNew
  | blockValue
  | blockValueArg
  | stringSize
  | stringConcat
  | arrayAt
  | arrayAtPut
  | arraySize
  | byteArrayAt
  | byteArrayAtPut
  | byteArraySize
  | basicNew
  | basicNewSized
deriving DecidableEq, Repr

structure PrimitiveRow where
  index : Nat
  name : String
  arity : Nat
  primitive : Primitive

/-- What a primitive wants done. -/
inductive Effect where
  | decline
  | answer (v : Value)
  | putElement (target : Value) (place : Nat) (v : Value)
  | putByte (target : Value) (place : Nat) (byte : UInt8) (v : Value)
  | create (o : HeapObject)
  | call (block : Value) (args : Array Value)

inductive Number where
  | integer (n : Int)
  | float (x : Binary64)

def Number.toBinary64 : Number → Binary64
  | integer n => .ofInt n
  | float x => x

namespace Primitive

def table : List PrimitiveRow :=
  [⟨1, "integer_add", 1, .integerArithmetic .add⟩,
    ⟨2, "integer_mul", 1, .integerArithmetic .multiply⟩,
    ⟨3, "integer_eq", 1, .integerComparison .equal⟩,
    ⟨4, "integer_sub", 1, .integerArithmetic .subtract⟩,
    ⟨5, "basic_class", 0, .basicClass⟩,
    ⟨6, "integer_lt", 1, .integerComparison .less⟩,
    ⟨7, "integer_gt", 1, .integerComparison .greater⟩,
    ⟨10, "float_add", 1, .floatArithmetic .add⟩,
    ⟨11, "float_sub", 1, .floatArithmetic .subtract⟩,
    ⟨12, "float_mul", 1, .floatArithmetic .multiply⟩,
    ⟨13, "float_div", 1, .floatDivide⟩,
    ⟨14, "float_eq", 1, .floatComparison .equal⟩,
    ⟨15, "float_lt", 1, .floatComparison .less⟩,
    ⟨16, "float_gt", 1, .floatComparison .greater⟩,
    ⟨20, "block_new", 0, .blockNew⟩,
    ⟨21, "block_value", 0, .blockValue⟩,
    ⟨22, "block_value_arg", 1, .blockValueArg⟩,
    ⟨30, "string_size", 0, .stringSize⟩,
    ⟨31, "string_concat", 1, .stringConcat⟩,
    ⟨40, "array_at", 1, .arrayAt⟩,
    ⟨41, "array_at_put", 2, .arrayAtPut⟩,
    ⟨42, "array_size", 0, .arraySize⟩,
    ⟨50, "bytearray_at", 1, .byteArrayAt⟩,
    ⟨51, "bytearray_at_put", 2, .byteArrayAtPut⟩,
    ⟨52, "bytearray_size", 0, .byteArraySize⟩,
    ⟨60, "basic_new", 0, .basicNew⟩,
    ⟨61, "basic_new_sized", 1, .basicNewSized⟩]

def row? (index : Nat) : Option PrimitiveRow := table.find? fun row => row.index == index

variable (m : Machine)

/-- Read a numeric operand. An integer is never an object, so an object of the
integer class is a fault. -/
def number (v : Value) : Except Fault (Option Number) :=
  match v with
  | .integer n => .ok (some (.integer n.val))
  | .float x => .ok (some (.float x.toBinary64))
  | .pointer _ => do
    if (← m.classOf v) = m.core.integer then .error (.boxedInteger v) else return none
  | _ => .ok none

def whole (n : Nat) : Except Fault Effect := (Value.ofInt n).map .answer

/-- The zero-based place of a one-based index. -/
def place (what : Indexed) (index : Int) (length : Nat) : Except Fault Nat :=
  if 1 ≤ index ∧ index ≤ length then .ok (index - 1).toNat
  else .error (.elementOutOfBounds what index length)

/-- The operands of an integer primitive, whose receiver must be an integer. -/
def integerOperands (receiver arg : Value) : Except Fault (Option (Int × Number)) := do
  match ← number m receiver with
  | some (.integer a) => return (← number m arg).map fun b => (a, b)
  | _ => return none

/-- The operands of a float primitive, integers promoted. -/
def floatOperands (receiver arg : Value) : Except Fault (Option (Binary64 × Binary64)) := do
  match ← number m receiver with
  | none => return none
  | some a => return (← number m arg).map fun b => (a.toBinary64, b.toBinary64)

/-- Exact integer arithmetic; a result that does not fit is a fault. -/
def integerResult (op : Arithmetic) (a b : Int) : Except Fault Effect :=
  match Value.ofInt? (op.onInt a b) with
  | some v => .ok (.answer v)
  | none => .error (.integerOverflow a op.sign b)

def floatEffect (f : Binary64 → Binary64 → Value) (receiver arg : Value) :
    Except Fault Effect := do
  match ← floatOperands m receiver arg with
  | none => return .decline
  | some (a, b) => return .answer (f a b)

/-- What `p` wants done for a receiver and arguments. A wrong number of
arguments is declined. -/
def effect (p : Primitive) (receiver : Value) (args : List Value) : Except Fault Effect := do
  match p, args with
  | integerArithmetic op, [arg] =>
    match ← integerOperands m receiver arg with
    | none => return .decline
    | some (a, .integer b) => integerResult op a b
    | some (a, .float b) => return .answer (.ofBinary64 (op.onFloat (.ofInt a) b))
  | integerComparison op, [arg] =>
    match ← integerOperands m receiver arg with
    | none => return .decline
    | some (a, .integer b) => return .answer (.bool (op.onInt a b))
    | some (a, .float b) => return .answer (.bool (op.onFloat (.ofInt a) b))
  | floatArithmetic op, [arg] =>
    floatEffect m (fun a b => .ofBinary64 (op.onFloat a b)) receiver arg
  | floatDivide, [arg] => floatEffect m (fun a b => .ofBinary64 (a.div b)) receiver arg
  | floatComparison op, [arg] => floatEffect m (fun a b => .bool (op.onFloat a b)) receiver arg
  | basicClass, [] => return .answer (← m.classOf receiver)
  | blockNew, [] => return .create (.new m.core.block (.block ⟨[], #[], 0, m.active⟩))
  | blockValue, [] =>
    match m.memory.body? receiver with
    | some (.block _) => return .call receiver #[]
    | _ => return .decline
  | blockValueArg, [arg] =>
    match m.memory.body? receiver with
    | some (.block _) => return .call receiver #[arg]
    | _ => return .decline
  | stringSize, [] =>
    match m.characters? receiver with
    | some s => whole s.length
    | none => return .decline
  | stringConcat, [arg] =>
    match m.characters? receiver, m.characters? arg with
    | some a, some b => return .create (.new m.core.string (.string (a ++ b)))
    | _, _ => return .decline
  | arrayAt, [index] =>
    match index, m.memory.body? receiver with
    | .integer i, some (.array elements) =>
      let i ← place .array i.val elements.size
      return .answer (elements[i]?.getD .nil)
    | _, _ => return .decline
  | arrayAtPut, [index, v] =>
    match index, m.memory.body? receiver with
    | .integer i, some (.array elements) =>
      return .putElement receiver (← place .array i.val elements.size) v
    | _, _ => return .decline
  | arraySize, [] =>
    match m.memory.body? receiver with
    | some (.array elements) => whole elements.size
    | _ => return .decline
  | byteArrayAt, [index] =>
    match index, m.memory.body? receiver with
    | .integer i, some (.bytes bytes) =>
      let i ← place .byteArray i.val bytes.size
      return .answer (.integer (.ofByte (bytes[i]?.getD 0)))
    | _, _ => return .decline
  | byteArrayAtPut, [index, v] =>
    match index, v, m.memory.body? receiver with
    | .integer i, .integer n, some (.bytes bytes) =>
      let i ← place .byteArray i.val bytes.size
      if 0 ≤ n.val ∧ n.val ≤ 255 then
        return .putByte receiver i (UInt8.ofNat n.val.toNat) v
      else .error (.byteOutOfRange n.val)
    | _, _, _ => return .decline
  | byteArraySize, [] =>
    match m.memory.body? receiver with
    | some (.bytes bytes) => whole bytes.size
    | _ => return .decline
  | basicNew, [] =>
    if m.isClass receiver then return .create (m.blank receiver 0) else return .decline
  | basicNewSized, [size] =>
    match size with
    | .integer n =>
      if 0 ≤ n.val ∧ m.isClass receiver then return .create (m.blank receiver n.val.toNat)
      else return .decline
    | _ => return .decline
  | _, _ => return .decline

end Primitive

end ObjectMachine

import ObjectMachine.HeapObject

/-!
# Fatal faults and runtime errors

A runtime error ends the running program and leaves the machine usable. A fault
is a broken promise of the code or the host: nothing runs after it. Both are
causes, and their wording is in one function each.
-/

namespace ObjectMachine

/-- Which of the two indexable shapes a bound belongs to. -/
inductive Indexed where
  | array | byteArray
deriving DecidableEq, Repr

def Indexed.name : Indexed → String
  | array => "Array"
  | byteArray => "ByteArray"

inductive SettingsProblem where
  | noCapacity | notAFraction | smallFactor
deriving DecidableEq, Repr

def SettingsProblem.message : SettingsProblem → String
  | noCapacity => "initial_capacity must be > 0"
  | notAFraction => "Fractions must be between 0.0 and 1.0"
  | smallFactor => "growth_factor must be >= 2"

inductive Fault where
  | integerOutOfRange (n : Int)
  | settings (problem : SettingsProblem)
  | outsideList (length index : Nat)
  | outsideBuffer (stop length : Nat)
  | subtractionOverflow
  | multiplicationOverflow
  | stackUnderflow (pc : Nat)
  | stackShortage (pc need available : Nat)
  | danglingReference (v : Value)
  | husk (v : Value)
  | danglingEdge (v edge : Value)
  | notAnObject (v : Value)
  | classOfDangling (v : Value)
  | classless (kind : BodyKind) (v : Value)
  | corruptMethods (className : String) (kind : BodyKind)
  | defineOutsideClass (kind : BodyKind)
  | defineInCorrupt (kind : BodyKind)
  | entryNotMethod (selector : String) (kind : BodyKind)
  | notCode (kind : BodyKind)
  | noActivation
  | unknownPrimitive (index : Nat)
  | integerOverflow (a : Int) (op : String) (b : Int)
  | boxedInteger (v : Value)
  | elementOutOfBounds (what : Indexed) (index : Int) (length : Nat)
  | byteOutOfRange (n : Int)
deriving DecidableEq

namespace Fault

def message : Fault → String
  | integerOutOfRange n => s!"integer {n} does not fit the immediate encoding"
  | settings problem => s!"Invalid Heap Settings: \"{problem.message}\""
  | outsideList length index =>
    s!"index out of bounds: the len is {length} but the index is {index}"
  | outsideBuffer stop length =>
    s!"range end index {stop} out of range for slice of length {length}"
  | subtractionOverflow => "attempt to subtract with overflow"
  | multiplicationOverflow => "attempt to multiply with overflow"
  | stackUnderflow pc => s!"stack underflow at pc {pc}"
  | stackShortage pc need available =>
    s!"stack underflow at pc {pc}: need {need}, have {available}"
  | danglingReference v => s!"gc: dangling reference {v.describe}"
  | husk v => s!"{v.describe} is a forwarding husk"
  | danglingEdge v edge => s!"{v.describe} has dangling edge {edge.describe}"
  | notAnObject v => s!"not a heap object: {v.describe}"
  | classOfDangling v => s!"class_of: dangling reference {v.describe}"
  | classless kind v => s!"class_of: {kind.name} object {v.describe} has no class"
  | corruptMethods className kind =>
    s!"lookup: {className} has a corrupt method dictionary ({kind.name})"
  | defineOutsideClass kind => s!"define_method: {kind.name} is not a class"
  | defineInCorrupt kind => s!"define_method: corrupt method dictionary ({kind.name})"
  | entryNotMethod selector kind => s!"method dictionary entry for #{selector} is a {kind.name}"
  | notCode kind => s!"context code is a {kind.name}"
  | noActivation => "no active context"
  | unknownPrimitive index => s!"unknown primitive index {index}"
  | integerOverflow a op b => s!"integer overflow: {a} {op} {b}"
  | boxedInteger v => s!"non-immediate integer {v.describe}"
  | elementOutOfBounds what index length =>
    s!"{what.name} index {index} out of bounds 1..={length}"
  | byteOutOfRange n => s!"ByteArray value {n} out of range 0..=255"

end Fault

/-- An integer as a value; one that does not fit is a fault. -/
def Value.ofInt (n : Int) : Except Fault Value :=
  match Value.ofInt? n with
  | some v => .ok v
  | none => .error (.integerOutOfRange n)

/-- Which kind of code was expected where another value was found. -/
inductive CodeKind where
  | method | block
deriving DecidableEq, Repr

def CodeKind.name : CodeKind → String
  | method => "Method"
  | block => "Block"

inductive RuntimeError where
  | literalOutOfBounds (index length : Nat)
  | instanceVariableOutOfBounds (index length : Nat)
  | temporaryOutOfBounds (index : Nat)
  | jumpOutOfBounds (target : Int) (length : Nat)
  | decode (error : DecodeError)
  | selectorNotSymbol (got : Value)
  | type (expected : CodeKind) (got : Value)
  | methodNotFound (className selector : String)
  | nilReceiver (selector : String)
  | depthExceeded (limit : Nat)
deriving DecidableEq

namespace RuntimeError

def message : RuntimeError → String
  | literalOutOfBounds index length =>
    s!"literal index {index} out of bounds (literal table has {length})"
  | instanceVariableOutOfBounds index length =>
    s!"instance variable index {index} out of bounds (object has {length})"
  | temporaryOutOfBounds index => s!"temporary variable index out of bounds: {index}"
  | jumpOutOfBounds target length => s!"jump target {target} outside bytecode of length {length}"
  | decode error => s!"malformed bytecode: {error.message}"
  | selectorNotSymbol got => s!"selector literal is not a symbol: {got.describe}"
  | type expected got => s!"expected {expected.name}, got {got.describe}"
  | methodNotFound className selector => s!"method not found: {className}>>{selector}"
  | nilReceiver selector => s!"nil receiver for #{selector}"
  | depthExceeded limit => s!"activation depth limit of {limit} exceeded"

end RuntimeError

end ObjectMachine

import ObjectMachine.Decimal

/-!
# Values and their words

A value is a reference to an object or an immediate: an integer of 62 bits, a
float of 62 bits, nil, a truth value. `Value.toWord` packs it into a 64-bit
word whose two low bits are a tag, and `Value.ofWord` reads every word. Words
with the tag of nil that are none of the three special ones act as nil but stay
distinct words, so they are values of their own.
-/

namespace ObjectMachine

/-- The integers that fit beside a tag: from `-2 ^ 61` to `2 ^ 61 - 1`. -/
structure SmallInteger where
  val : Int
  min_le : -0x2000000000000000 ≤ val
  le_max : val ≤ 0x1FFFFFFFFFFFFFFF
deriving DecidableEq

namespace SmallInteger

def ofInt? (n : Int) : Option SmallInteger :=
  if h : -0x2000000000000000 ≤ n ∧ n ≤ 0x1FFFFFFFFFFFFFFF then some ⟨n, h.1, h.2⟩ else none

def ofByte (b : UInt8) : SmallInteger :=
  ⟨b.toNat, by have := b.toNat_lt; omega, by have := b.toNat_lt; omega⟩

/-- Two's complement reading of 62 bits. -/
def ofBits (n : Nat) (h : n < 0x4000000000000000) : SmallInteger :=
  ⟨if n < 0x2000000000000000 then n else n - 0x4000000000000000,
    by split <;> omega, by split <;> omega⟩

end SmallInteger

/-- A double whose two lowest fraction bits are zero. -/
structure ShortFloat where
  bits : UInt64
  aligned : bits &&& 3 = 0
deriving DecidableEq

namespace ShortFloat

def truncate (x : Binary64) : ShortFloat :=
  ⟨x.bits &&& ~~~3, by rw [UInt64.and_assoc]; exact UInt64.and_zero⟩

def toBinary64 (x : ShortFloat) : Binary64 := ⟨x.bits⟩

end ShortFloat

/-- A word that carries the tag of nil without being a special value. -/
structure ReservedWord where
  bits : UInt64
  tagged : bits &&& 3 = 1
  ne_nil : bits ≠ 1
  ne_true : bits ≠ 5
  ne_false : bits ≠ 9
deriving DecidableEq

inductive Value where
  | pointer (index : Nat)
  | integer (n : SmallInteger)
  | float (x : ShortFloat)
  | nil
  | bool (b : Bool)
  | reserved (w : ReservedWord)
deriving DecidableEq

/-- What a value is taken for. -/
inductive ValueKind where
  | pointer (index : Nat)
  | integer (n : Int)
  | float (x : Binary64)
  | nil
  | bool (b : Bool)
deriving DecidableEq

/-- The text that names a value in messages. -/
def ValueKind.describe : ValueKind → String
  | pointer i => s!"Pointer({i})"
  | integer n => s!"SmallInteger({n})"
  | float x => "Float(" ++ x.text .plain ++ ")"
  | nil => "Nil"
  | bool true => "True"
  | bool false => "False"

/-- What the two low bits of a word say. -/
inductive Tag where
  | pointer | special | float | integer
deriving DecidableEq, Repr

namespace Tag

def name : Tag → String
  | pointer => "Pointer"
  | special => "Special"
  | float => "Float"
  | integer => "Integer"

def ofWord (w : UInt64) : Tag :=
  if w &&& 3 = 0 then pointer
  else if w &&& 3 = 1 then special
  else if w &&& 3 = 2 then float
  else integer

end Tag

namespace Value

instance : Inhabited Value := ⟨nil⟩

def tag : Value → Tag
  | pointer _ => .pointer
  | integer _ => .integer
  | float _ => .float
  | nil | bool _ | reserved _ => .special

def isPointer : Value → Bool
  | pointer _ => true
  | _ => false

def isImmediate (v : Value) : Bool := !v.isPointer

def isInteger : Value → Bool
  | integer _ => true
  | _ => false

def isFloat : Value → Bool
  | float _ => true
  | _ => false

/-- Reserved words act as nil. -/
def isNil : Value → Bool
  | nil | reserved _ => true
  | _ => false

def isTrue : Value → Bool
  | bool b => b
  | _ => false

def isFalse : Value → Bool
  | bool b => !b
  | _ => false

def index? : Value → Option Nat
  | pointer i => some i
  | _ => none

def integer? : Value → Option Int
  | integer n => some n.val
  | _ => none

def float? : Value → Option Binary64
  | float x => some x.toBinary64
  | _ => none

def ofInt? (n : Int) : Option Value := (SmallInteger.ofInt? n).map integer

def ofBinary64 (x : Binary64) : Value := float (.truncate x)

def toWord : Value → UInt64
  | pointer i => UInt64.ofNat i <<< 2
  | integer n => UInt64.ofInt n.val <<< 2 ||| 3
  | float x => x.bits ||| 2
  | nil => 1
  | bool true => 5
  | bool false => 9
  | reserved w => w.bits

def ofWord (w : UInt64) : Value :=
  if w &&& 3 = 0 then pointer (w.toNat / 4)
  else if hs : w &&& 3 = 1 then
    if hn : w = 1 then nil
    else if ht : w = 5 then bool true
    else if hf : w = 9 then bool false
    else reserved ⟨w, hs, hn, ht, hf⟩
  else if w &&& 3 = 2 then float (.truncate ⟨w⟩)
  else integer (.ofBits (w.toNat / 4) (by have := w.toNat_lt; omega))

/-- A reference to the object at `index`, as far as a word can hold one. -/
def ofIndex (index : Nat) : Value := ofWord (UInt64.ofNat index <<< 2)

/-- A reserved word is taken for nil. -/
def kind : Value → ValueKind
  | pointer i => .pointer i
  | integer n => .integer n.val
  | float x => .float x.toBinary64
  | nil | reserved _ => .nil
  | bool b => .bool b

def describe (v : Value) : String := v.kind.describe

end Value

end ObjectMachine

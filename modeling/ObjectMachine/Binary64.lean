/-!
# Double-precision numbers by their bits

A number is its 64-bit pattern: a sign, eleven exponent bits and fifty-two
fraction bits. A finite magnitude is `significand * 2 ^ scale`. Arithmetic is
that of the host's doubles; what it leaves open, the pattern of a result that
is not a number, is fixed here.
-/

namespace ObjectMachine

/-- A double-precision number, given by its bit pattern. -/
structure Binary64 where
  bits : UInt64
deriving DecidableEq, Inhabited, Repr

namespace Binary64

def negative (x : Binary64) : Bool := 0x8000000000000000 ≤ x.bits.toNat

def exponentField (x : Binary64) : Nat := x.bits.toNat / 0x10000000000000 % 0x800

def fraction (x : Binary64) : Nat := x.bits.toNat % 0x10000000000000

def isNaN (x : Binary64) : Bool := x.exponentField == 2047 && x.fraction != 0

def isInfinite (x : Binary64) : Bool := x.exponentField == 2047 && x.fraction == 0

/-- The fraction with its leading one, which the smallest exponent lacks. -/
def significand (x : Binary64) : Nat :=
  if x.exponentField = 0 then x.fraction else 0x10000000000000 + x.fraction

/-- The power of two that the significand counts. -/
def scale (x : Binary64) : Int := (max x.exponentField 1 : Nat) - 1075

def toFloat (x : Binary64) : Float := Float.ofBits x.bits

def ofFloat (f : Float) : Binary64 := ⟨f.toBits⟩

/-- The nearest double, a half going to the even neighbour. -/
def ofInt (n : Int) : Binary64 := ofFloat (Float.ofInt n)

def quiet (x : Binary64) : Binary64 := ⟨x.bits ||| 0x8000000000000⟩

/-- What an operation without a meaningful result answers. -/
def invalid : Binary64 := ⟨0xFFF8000000000000⟩

/-- Apply an operation of the host. An operand that is not a number passes
through, the left one first. -/
def lift (op : Float → Float → Float) (a b : Binary64) : Binary64 :=
  if a.isNaN then a.quiet
  else if b.isNaN then b.quiet
  else
    let r := ofFloat (op a.toFloat b.toFloat)
    if r.isNaN then invalid else r

def add : Binary64 → Binary64 → Binary64 := lift (· + ·)

def sub : Binary64 → Binary64 → Binary64 := lift (· - ·)

def mul : Binary64 → Binary64 → Binary64 := lift (· * ·)

def div : Binary64 → Binary64 → Binary64 := lift (· / ·)

/-- Numeric equality: the two zeros are equal and no NaN equals anything. -/
def eq (a b : Binary64) : Bool := a.toFloat == b.toFloat

def lt (a b : Binary64) : Bool := decide (a.toFloat < b.toFloat)

/-- A number from zero to one. Minus zero counts as zero. -/
def isFraction (x : Binary64) : Bool :=
  x.bits == 0x8000000000000000 || x.bits.toNat ≤ 0x3FF0000000000000

/-- The nearest whole number whose significand fits a double, a half going to
the even neighbour. -/
def roundNat (n : Nat) : Nat :=
  if n < 0x20000000000000 then n
  else
    let unit := Nat.pow 2 (n.log2 - 52)
    let low := n / unit
    let rest := 2 * (n % unit)
    if unit < rest ∨ (rest = unit ∧ low % 2 = 1) then (low + 1) * unit else low * unit

/-- `whole * part` as a double product for a `part` between zero and one, in
units of `2 ^ part.scale`. -/
def scaledPart (whole : Nat) (part : Binary64) : Nat :=
  roundNat (roundNat whole * part.significand)

/-- `count` as a double, in units of `2 ^ part.scale`. -/
def scaledCount (count : Nat) (part : Binary64) : Nat :=
  roundNat count * Nat.pow 2 (-part.scale).toNat

end Binary64

end ObjectMachine

import ObjectMachine.Binary64

/-!
# Decimal text of doubles

`Decimal.shortest` finds the fewest digits that read back as the same double
and, of those, the nearest to it. It tests the two neighbours of the number on
each decimal grid in exact arithmetic. A `DecimalLayout` then says how the
digits are written down.
-/

namespace ObjectMachine

/-- The number `digits * 10 ^ exponent`. -/
structure Decimal where
  digits : Nat
  exponent : Int
deriving DecidableEq, Repr

namespace Decimal

/-- `b ^ e` as a numerator when `e` is not negative. -/
def powAbove (b : Nat) (e : Int) : Nat := Nat.pow b e.toNat

/-- `b ^ (-e)` as a denominator when `e` is negative. -/
def powBelow (b : Nat) (e : Int) : Nat := Nat.pow b (-e).toNat

/-- `10 ^ k ≤ m * 2 ^ q`. -/
def tenPowLe (k : Int) (m : Nat) (q : Int) : Bool :=
  powAbove 10 k * powBelow 2 q ≤ m * powAbove 2 q * powBelow 10 k

/-- The exponent of the leading decimal digit of `m * 2 ^ q`. -/
def leadingExponent (m : Nat) (q : Int) : Int :=
  let guess := ((m.log2 + q) * 30103).fdiv 100000
  if tenPowLe (guess + 1) m q then guess + 1
  else if tenPowLe guess m q then guess
  else guess - 1

def trim : Nat → Decimal → Decimal
  | 0, d => d
  | fuel + 1, d =>
    if d.digits ≠ 0 ∧ d.digits % 10 = 0 then trim fuel ⟨d.digits / 10, d.exponent + 1⟩ else d

/-- The multiple of `10 ^ u` that stands for `m * 2 ^ q`, if one of its two
neighbours lies among the reals that round to it. Lengths are counted in
quarters of the last binary place. A tie between two neighbours goes up. -/
def onGrid (m : Nat) (q : Int) (narrowBelow : Bool) (u : Int) : Option Nat :=
  let a := powAbove 2 (q - 2) * powBelow 10 u
  let b := powBelow 2 (q - 2) * powAbove 10 u
  let value := 4 * m * a
  let high := (4 * m + 2) * a
  let low := (if narrowBelow then 4 * m - 1 else 4 * m - 2) * a
  let inside (c : Nat) : Bool :=
    if m % 2 = 0 then low ≤ c * b && c * b ≤ high else low < c * b && c * b < high
  let c := value / b
  match inside c, inside (c + 1) with
  | true, true => some (if 2 * (value - c * b) < b then c else c + 1)
  | true, false => some c
  | false, true => some (c + 1)
  | false, false => none

/-- The shortest decimal that reads back as `m * 2 ^ q`. The gap below a power
of two is half the gap above it, which `narrowBelow` says. -/
def shortest (m : Nat) (q : Int) (narrowBelow : Bool) : Decimal :=
  let p := leadingExponent m q
  let onCount (n : Nat) : Option Decimal :=
    (onGrid m q narrowBelow (p - n)).map fun c => trim 20 ⟨c, p - n⟩
  ((List.range 17).findSome? onCount).getD ⟨m, q⟩

end Decimal

/-- How a decimal is written: which exponents of the leading digit are
positional, and whether a whole number keeps a point. -/
structure DecimalLayout where
  positional : Int → Bool
  keepsPoint : Bool

namespace DecimalLayout

def plain : DecimalLayout := ⟨fun _ => true, false⟩

/-- Exponent form below `10 ^ -4` and from `10 ^ 16` on; a point otherwise. -/
def printed : DecimalLayout := ⟨fun e => -4 ≤ e && e < 16, true⟩

def zeros (n : Nat) : String := String.ofList (List.replicate n '0')

def write (layout : DecimalLayout) (d : Decimal) : String :=
  let ds := (Nat.toDigits 10 d.digits)
  let lead := d.exponent + ds.length - 1
  if layout.positional lead then
    if 0 ≤ d.exponent then
      String.ofList ds ++ zeros d.exponent.toNat ++ (if layout.keepsPoint then ".0" else "")
    else
      let places := (-d.exponent).toNat
      if places < ds.length then
        String.ofList (ds.take (ds.length - places)) ++ "."
          ++ String.ofList (ds.drop (ds.length - places))
      else
        "0." ++ zeros (places - ds.length) ++ String.ofList ds
  else
    let tail := ds.drop 1
    String.ofList (ds.take 1) ++ (if tail.isEmpty then "" else "." ++ String.ofList tail)
      ++ "e" ++ toString lead

end DecimalLayout

def Binary64.text (layout : DecimalLayout) (x : Binary64) : String :=
  if x.isNaN then "NaN"
  else
    let sign := if x.negative then "-" else ""
    if x.isInfinite then sign ++ "inf"
    else if x.significand = 0 then sign ++ layout.write ⟨0, 0⟩
    else
      let narrowBelow := x.fraction == 0 && 1 < x.exponentField
      sign ++ layout.write (Decimal.shortest x.significand x.scale narrowBelow)

end ObjectMachine

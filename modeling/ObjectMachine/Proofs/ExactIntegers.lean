import ObjectMachine.Proofs.SendRules
import ObjectMachine.Proofs.Words

/-!
# Exact integers

The integer primitives compute with whole numbers: an answer is the exact result,
and a result that does not fit beside a tag is a fault. Computed in 64-bit words
that notice when they overflow, the results are the same ones, since whatever leaves
64 bits does not fit beside a tag either.
-/

namespace ObjectMachine

namespace Arithmetic

def onWords : Arithmetic → BitVec 64 → BitVec 64 → BitVec 64
  | add => (· + ·)
  | subtract => (· - ·)
  | multiply => (· * ·)

/-- The exact result leaves the words. -/
def overflows : Arithmetic → BitVec 64 → BitVec 64 → Bool
  | add => BitVec.saddOverflow
  | subtract => BitVec.ssubOverflow
  | multiply => BitVec.smulOverflow

/-- The operation on words, which notices when it overflows. -/
def checked (op : Arithmetic) (x y : BitVec 64) : Option (BitVec 64) :=
  if op.overflows x y then none else some (op.onWords x y)

variable {op : Arithmetic} {x y : BitVec 64}

theorem overflows_iff (op : Arithmetic) (x y : BitVec 64) : op.overflows x y = true ↔
    0x8000000000000000 ≤ op.onInt x.toInt y.toInt ∨
      op.onInt x.toInt y.toInt < -0x8000000000000000 := by
  cases op with
  | add => simp [overflows, onInt, BitVec.saddOverflow]
  | subtract => simp [overflows, onInt, BitVec.ssubOverflow]
  | multiply => simp [overflows, onInt, BitVec.smulOverflow]

theorem toInt_onWords (h : ¬op.overflows x y = true) :
    (op.onWords x y).toInt = op.onInt x.toInt y.toInt := by
  cases op with
  | add => exact BitVec.toInt_add_of_not_saddOverflow h
  | subtract => exact BitVec.toInt_sub_of_not_ssubOverflow h
  | multiply => exact BitVec.toInt_mul_of_not_smulOverflow h

/-- What leaves the words does not fit beside a tag, so that the words lose nothing. -/
theorem ofInt?_of_checked (op : Arithmetic) (x y : BitVec 64) :
    ((op.checked x y).bind fun r => Value.ofInt? r.toInt) =
      Value.ofInt? (op.onInt x.toInt y.toInt) := by
  rw [checked]
  split_ifs with h
  · have hrange := (overflows_iff op x y).mp h
    rw [Value.ofInt?_eq_none (by omega), Option.bind_none]
  · rw [Option.bind_some, toInt_onWords h]

end Arithmetic

/-- The word of a small integer shifted past its tag. -/
def SmallInteger.payload (n : SmallInteger) : BitVec 64 :=
  ((Value.integer n).toWord.toInt64 >>> 2).toBitVec

theorem SmallInteger.toInt_payload (n : SmallInteger) : n.payload.toInt = n.val := by
  have hread := congrArg Profile.integer? (Value.profile_toWord (v := .integer n) trivial)
  change (if _ then some n.payload.toInt else none) = some n.val at hread
  exact (Option.ite_none_right_eq_some.mp hread).2 |> Option.some.inj

namespace Primitive

variable {op : Arithmetic} {a b : Int}

theorem integerResult_eq {k : SmallInteger} (hk : k.val = op.onInt a b) :
    integerResult op a b = .ok (.answer (.integer k)) := by
  rw [integerResult, Value.ofInt?_eq_some_iff.mpr ⟨k, hk, rfl⟩]

theorem integerResult_eq_error
    (h : op.onInt a b < -0x2000000000000000 ∨ 0x1FFFFFFFFFFFFFFF < op.onInt a b) :
    integerResult op a b = .error (.integerOverflow a op.sign b) := by
  rw [integerResult, Value.ofInt?_eq_none h]

end Primitive

namespace Machine

variable (m : Machine) (index : Nat) (a b : SmallInteger)

/-- The primitive stops and names the operands. The machine stays as it is. -/
def Overflows (sign : String) : Prop :=
  ∃ f, tryPrimitive index (.integer a) #[.integer b] m = .error (.fault f) m ∧
    f.message = s!"integer overflow: {a.val} {sign} {b.val}"

/-- The primitive answers the exact result `r` where that fits beside a tag, and stops
where it does not. The machine stays as it is. -/
def Computes (sign : String) (r : Int) : Prop :=
  if -0x2000000000000000 ≤ r ∧ r ≤ 0x1FFFFFFFFFFFFFFF then
    ∃ v, tryPrimitive index (.integer a) #[.integer b] m = .ok (.answered v) m ∧
      (Value.ofWord v.toWord).integer? = some r
  else m.Overflows index a b sign

/-- The primitive answers whether `p` holds. The machine stays as it is. -/
def Decides (p : Prop) : Prop :=
  ∃ answer : Bool, tryPrimitive index (.integer a) #[.integer b] m =
    .ok (.answered (.bool answer)) m ∧ (answer = true ↔ p)

variable {index}

theorem computes (op : Arithmetic) (h : (Primitive.row? index).map PrimitiveRow.primitive =
    some (.integerArithmetic op)) : m.Computes index a b op.sign (op.onInt a.val b.val) := by
  obtain ⟨row, hrow, hprimitive⟩ := Option.map_eq_some_iff.mp h
  have heffect : row.primitive.effect m (.integer a) [.integer b] =
      Primitive.integerResult op a.val b.val := by
    rw [hprimitive]
    rfl
  unfold Computes
  split_ifs with hfits
  · let k : SmallInteger := ⟨op.onInt a.val b.val, hfits.1, hfits.2⟩
    have hwants : Wants m index (.integer a) #[.integer b] (.ok (.answer (.integer k))) :=
      ⟨row, hrow, heffect.trans (Primitive.integerResult_eq rfl)⟩
    refine ⟨.integer k, tryPrimitive_eq m index _ _ hwants, ?_⟩
    rw [Value.ofWord_toWord (v := .integer k) trivial]
    rfl
  · have hwants : Wants m index (.integer a) #[.integer b]
        (.error (.integerOverflow a.val op.sign b.val)) :=
      ⟨row, hrow, heffect.trans (Primitive.integerResult_eq_error (by omega))⟩
    exact ⟨_, tryPrimitive_eq_error m index _ _ hwants, rfl⟩

theorem decides (op : Comparison) (h : (Primitive.row? index).map PrimitiveRow.primitive =
    some (.integerComparison op)) {p : Prop} (hp : op.onInt a.val b.val = true ↔ p) :
    m.Decides index a b p := by
  obtain ⟨row, hrow, hprimitive⟩ := Option.map_eq_some_iff.mp h
  have hwants : Wants m index (.integer a) #[.integer b]
      (.ok (.answer (.bool (op.onInt a.val b.val)))) := by
    refine ⟨row, hrow, ?_⟩
    rw [hprimitive]
    rfl
  exact ⟨_, tryPrimitive_eq m index _ _ hwants, hp⟩

end Machine

/-- On every machine the integer primitives are exact or fatal for all small integers,
and leave the machine as it is. Equal integers are equal words. A product that leaves
64 bits is among the fatal ones, and 64-bit words would have given every result that
is answered. -/
theorem integer_primitives_are_exact_or_fatal (m : Machine) (a b : SmallInteger) :
    m.Computes 1 a b "+" (a.val + b.val) ∧
      m.Computes 4 a b "-" (a.val - b.val) ∧
      m.Computes 2 a b "*" (a.val * b.val) ∧
      m.Decides 3 a b (a.val = b.val) ∧
      m.Decides 3 a b ((Value.integer a).toWord = (Value.integer b).toWord) ∧
      m.Decides 6 a b (a.val < b.val) ∧
      m.Decides 7 a b (b.val < a.val) ∧
      (a.payload.smulOverflow b.payload = true → m.Overflows 2 a b "*") ∧
      ∀ op : Arithmetic, ((op.checked a.payload b.payload).bind fun r => Value.ofInt? r.toInt) =
        Value.ofInt? (op.onInt a.val b.val) := by
  have hproduct : m.Computes 2 a b "*" (a.val * b.val) := m.computes a b .multiply rfl
  have hwords : (Value.integer a).toWord = (Value.integer b).toWord ↔ a.val = b.val := by
    have hfits : ∀ n : SmallInteger, (Value.integer n).Fits := fun _ => trivial
    rw [Value.toWord_inj (hfits a) (hfits b), Value.integer.injEq]
    exact ⟨congrArg _, SmallInteger.eq_of_val⟩
  refine ⟨m.computes a b .add rfl, m.computes a b .subtract rfl, hproduct,
    m.decides a b .equal rfl (by simp [Comparison.onInt]),
    m.decides a b .equal rfl (by simp [Comparison.onInt, hwords]),
    m.decides a b .less rfl (by simp [Comparison.onInt]),
    m.decides a b .greater rfl (by simp [Comparison.onInt]), fun hover => ?_, fun op => ?_⟩
  · have hrange := (Arithmetic.overflows_iff .multiply _ _).mp hover
    rw [a.toInt_payload, b.toInt_payload] at hrange
    change 0x8000000000000000 ≤ a.val * b.val ∨ a.val * b.val < -0x8000000000000000 at hrange
    rwa [Machine.Computes, if_neg (by omega)] at hproduct
  · rw [Arithmetic.ofInt?_of_checked, a.toInt_payload, b.toInt_payload]

end ObjectMachine

import ObjectMachine.Fault
import Mathlib.Tactic.SplitIfs

/-!
# Words and what is read from them

A word can be read in two ways: by a test of its own bits for each question, or by
decoding it into a value and asking that. The two agree on every word. Writing a
value gives a word that reads as that value, and writing what a word was taken for
gives the word back unless it is a reserved one, which is then nil.
-/

namespace ObjectMachine

/-- Everything that is asked of a value: its tag, six tests, and three readings. -/
structure Profile where
  tag : Tag
  isImmediate : Bool
  isPointer : Bool
  isInteger : Bool
  isFloat : Bool
  isNil : Bool
  isTrue : Bool
  isFalse : Bool
  index? : Option Nat
  integer? : Option Int
  float? : Option Binary64
deriving DecidableEq

def Profile.tests (p : Profile) : List Bool :=
  [p.isPointer, p.isInteger, p.isFloat, p.isNil, p.isTrue, p.isFalse]

def Value.profile (v : Value) : Profile :=
  ⟨v.tag, v.isImmediate, v.isPointer, v.isInteger, v.isFloat, v.isNil, v.isTrue, v.isFalse,
    v.index?, v.integer?, v.float?⟩

namespace ValueKind

/-- What a value of this kind has to answer. -/
def profile : ValueKind → Profile
  | pointer i => ⟨.pointer, false, true, false, false, false, false, false, some i, none, none⟩
  | integer n => ⟨.integer, true, false, true, false, false, false, false, none, some n, none⟩
  | float x => ⟨.float, true, false, false, true, false, false, false, none, none, some x⟩
  | nil => ⟨.special, true, false, false, false, true, false, false, none, none, none⟩
  | bool b => ⟨.special, true, false, false, false, false, b, !b, none, none, none⟩

/-- The value that is made for a kind; only an integer may have none. -/
def value? : ValueKind → Option Value
  | pointer i => some (.ofIndex i)
  | integer n => Value.ofInt? n
  | float x => some (.ofBinary64 x)
  | nil => some .nil
  | bool b => some (.bool b)

/-- Exactly one of the six tests holds. -/
theorem count_tests_profile (k : ValueKind) : k.profile.tests.count true = 1 := by
  cases k with
  | bool b => cases b <;> rfl
  | _ => rfl

end ValueKind

theorem Value.profile_eq_profile_kind (v : Value) : v.profile = v.kind.profile := by
  cases v with
  | bool b => cases b <;> rfl
  | _ => rfl

namespace Word

/-- What the bits of a word say, each question asked of the bits alone. Integers
are read by a shift that keeps the sign. -/
def profile (w : UInt64) : Profile where
  tag := Tag.ofWord w
  isImmediate := w &&& 3 != 0
  isPointer := w &&& 3 == 0
  isInteger := w &&& 3 == 3
  isFloat := w &&& 3 == 2
  isNil := w &&& 3 == 1 && w != 5 && w != 9
  isTrue := w == 5
  isFalse := w == 9
  index? := if w &&& 3 = 0 then some (w >>> 2).toNat else none
  integer? := if w &&& 3 = 3 then some (w.toInt64 >>> 2).toInt else none
  float? := if w &&& 3 = 2 then some ⟨w &&& ~~~3⟩ else none

/-- A word with the tag of nil that is none of the three special ones. -/
def isReserved (w : UInt64) : Bool := w &&& 3 == 1 && w != 1 && w != 5 && w != 9

theorem toNat_and_three (w : UInt64) : (w &&& 3).toNat = w.toNat % 4 := by
  rw [UInt64.toNat_and]
  exact Nat.and_two_pow_sub_one_eq_mod w.toNat 2

theorem toNat_shiftLeft_two (w : UInt64) :
    (w <<< 2).toNat = w.toNat * 4 % 0x10000000000000000 := by
  rw [UInt64.toNat_shiftLeft]
  simp [Nat.shiftLeft_eq]

theorem toNat_shiftRight_two (w : UInt64) : (w >>> 2).toNat = w.toNat / 4 := by
  rw [UInt64.toNat_shiftRight]
  exact Nat.shiftRight_eq_div_pow w.toNat 2

theorem toNat_and_not_three (w : UInt64) : (w &&& ~~~3).toNat = w.toNat / 4 * 4 := by
  have hshift : w &&& ~~~(3 : UInt64) = (w >>> 2) <<< (2 : UInt64) :=
    UInt64.toBitVec_inj.mp (BitVec.shiftLeft_ushiftRight (x := w.toBitVec) (n := 2)).symm
  have hlt := w.toNat_lt
  rw [hshift, toNat_shiftLeft_two, toNat_shiftRight_two]
  omega

/-- A tag goes into two free bits. -/
theorem toNat_or {w t : UInt64} (hw : w.toNat % 4 = 0) (ht : t.toNat < 4) :
    (w ||| t).toNat = w.toNat + t.toNat := by
  have hfree : w.toNat = (w.toNat / 4) <<< 2 := by
    rw [Nat.shiftLeft_eq]
    omega
  rw [UInt64.toNat_or, hfree, Nat.shiftLeft_add_eq_or_of_lt ht]

theorem toNat_ofInt (n : Int) : (UInt64.ofInt n).toNat = (n % 0x10000000000000000).toNat := by
  rw [UInt64.ofInt, UInt64.toNat_ofNat']
  omega

theorem toNat_div_four_lt (w : UInt64) : w.toNat / 4 < 0x4000000000000000 := by
  have hlt := w.toNat_lt
  omega

/-- The shift divides by four and rounds down, below zero too. -/
theorem toInt_shiftRight_two (w : UInt64) :
    (w.toInt64 >>> 2).toInt =
      if w.toNat < 0x8000000000000000 then (w.toNat / 4 : Int)
      else w.toNat / 4 - 0x4000000000000000 := by
  have hshift : (w.toInt64 >>> 2).toInt = w.toBitVec.toInt / 4 := by
    change (w.toBitVec.sshiftRight 2).toInt = _
    rw [BitVec.toInt_sshiftRight, Int.shiftRight_eq_div_pow]
    rfl
  rw [hshift, BitVec.toInt_eq_toNat_cond, UInt64.toNat_toBitVec]
  split_ifs <;> omega

theorem and_three_eq_iff (w t : UInt64) : w &&& 3 = t ↔ w.toNat % 4 = t.toNat := by
  rw [← UInt64.toNat_inj, toNat_and_three]

theorem and_three_cases (w : UInt64) :
    w &&& 3 = 0 ∨ w &&& 3 = 1 ∨ w &&& 3 = 2 ∨ w &&& 3 = 3 := by
  simp only [and_three_eq_iff, UInt64.reduceToNat]
  omega

/-- True and false carry the tag of nil. -/
theorem ne_of_tag_ne_special {w : UInt64} (h : w &&& 3 ≠ 1) : w ≠ 5 ∧ w ≠ 9 := by
  constructor
  · rintro rfl
    exact h rfl
  · rintro rfl
    exact h rfl

end Word

theorem SmallInteger.eq_of_val {a b : SmallInteger} (h : a.val = b.val) : a = b := by
  obtain ⟨_, _, _⟩ := a
  obtain ⟨_, _, _⟩ := b
  simpa using h

theorem ShortFloat.eq_of_bits {x y : ShortFloat} (h : x.bits = y.bits) : x = y := by
  obtain ⟨_, _⟩ := x
  obtain ⟨_, _⟩ := y
  simpa using h

theorem ShortFloat.toNat_bits_truncate (x : Binary64) :
    (truncate x).bits.toNat = x.bits.toNat / 4 * 4 :=
  Word.toNat_and_not_three x.bits

theorem ShortFloat.truncate_toBinary64 (x : ShortFloat) : truncate x.toBinary64 = x := by
  have haligned : x.bits.toNat % 4 = 0 := (Word.and_three_eq_iff x.bits 0).mp x.aligned
  apply eq_of_bits
  rw [← UInt64.toNat_inj, toNat_bits_truncate]
  change x.bits.toNat / 4 * 4 = x.bits.toNat
  omega

namespace Value

open Word

variable {w : UInt64}

theorem ofWord_of_pointer (h : w &&& 3 = 0) : ofWord w = pointer (w.toNat / 4) := by
  simp [ofWord, h]

theorem ofWord_of_float (h : w &&& 3 = 2) : ofWord w = float (.truncate ⟨w⟩) := by
  simp [ofWord, h]

theorem ofWord_of_integer (h : w &&& 3 = 3) :
    ofWord w = integer (.ofBits (w.toNat / 4) (toNat_div_four_lt w)) := by
  simp [ofWord, h]

theorem kind_ofWord_of_special (h : w &&& 3 = 1) :
    (ofWord w).kind = if w = 5 then .bool true else if w = 9 then .bool false else .nil := by
  unfold ofWord
  split_ifs <;> simp_all [kind]

theorem kind_ofWord_of_integer (h : w &&& 3 = 3) :
    (ofWord w).kind = .integer (w.toInt64 >>> 2).toInt := by
  have hlt := toNat_div_four_lt w
  have hval : (SmallInteger.ofBits (w.toNat / 4) hlt).val = (w.toInt64 >>> 2).toInt := by
    rw [toInt_shiftRight_two]
    simp only [SmallInteger.ofBits]
    split_ifs <;> omega
  rw [ofWord_of_integer h, kind, hval]

/-- The two readings of a word agree. -/
theorem profile_kind_ofWord (w : UInt64) : (ofWord w).kind.profile = Word.profile w := by
  rcases and_three_cases w with h | h | h | h
  · have hne : w ≠ 5 ∧ w ≠ 9 := ne_of_tag_ne_special (by simp [h])
    simp [ofWord_of_pointer h, kind, ValueKind.profile, Word.profile, Tag.ofWord, h, hne,
      ← toNat_shiftRight_two]
  · rw [kind_ofWord_of_special h]
    split_ifs with h5 h9
    · subst h5
      rfl
    · subst h9
      rfl
    · simp [h5, h9, h, ValueKind.profile, Word.profile, Tag.ofWord]
  · have hne : w ≠ 5 ∧ w ≠ 9 := ne_of_tag_ne_special (by simp [h])
    simp [ofWord_of_float h, kind, ValueKind.profile, Word.profile, Tag.ofWord, h, hne,
      ShortFloat.truncate, ShortFloat.toBinary64]
  · have hne : w ≠ 5 ∧ w ≠ 9 := ne_of_tag_ne_special (by simp [h])
    simp [kind_ofWord_of_integer h, ValueKind.profile, Word.profile, Tag.ofWord, h, hne]

theorem toNat_toWord_pointer (i : Nat) :
    (pointer i).toWord.toNat = i * 4 % 0x10000000000000000 := by
  rw [toWord, toNat_shiftLeft_two, UInt64.toNat_ofNat']
  omega

theorem toNat_toWord_integer (n : SmallInteger) :
    (integer n).toWord.toNat = (n.val % 0x4000000000000000).toNat * 4 + 3 := by
  have hshift : (UInt64.ofInt n.val <<< 2).toNat = (n.val % 0x4000000000000000).toNat * 4 := by
    rw [toNat_shiftLeft_two, toNat_ofInt]
    omega
  rw [toWord, toNat_or (by omega) (by decide), hshift]
  rfl

theorem toNat_toWord_float (x : ShortFloat) : (float x).toWord.toNat = x.bits.toNat + 2 := by
  have haligned := (and_three_eq_iff x.bits 0).mp x.aligned
  rw [toWord, toNat_or haligned (by decide)]
  rfl

/-- Decoding loses nothing. -/
theorem toWord_ofWord (w : UInt64) : (ofWord w).toWord = w := by
  have hlt := w.toNat_lt
  rcases and_three_cases w with h | h | h | h
  · have htag : w.toNat % 4 = 0 := (and_three_eq_iff w 0).mp h
    rw [ofWord_of_pointer h, ← UInt64.toNat_inj, toNat_toWord_pointer]
    omega
  · unfold ofWord
    split_ifs <;> simp_all [toWord]
  · have htag : w.toNat % 4 = 2 := (and_three_eq_iff w 2).mp h
    rw [ofWord_of_float h, ← UInt64.toNat_inj, toNat_toWord_float, ShortFloat.toNat_bits_truncate]
    dsimp only
    omega
  · have htag : w.toNat % 4 = 3 := (and_three_eq_iff w 3).mp h
    rw [ofWord_of_integer h, ← UInt64.toNat_inj, toNat_toWord_integer]
    simp only [SmallInteger.ofBits]
    split_ifs <;> omega

/-- A word can hold the value: only a reference may be too large. -/
def Fits : Value → Prop
  | pointer i => i < 0x4000000000000000
  | _ => True

theorem fits_ofWord (w : UInt64) : (ofWord w).Fits := by
  unfold ofWord
  split_ifs
  · exact toNat_div_four_lt w
  all_goals trivial

/-- Encoding loses nothing that fits. -/
theorem ofWord_toWord {v : Value} (h : v.Fits) : ofWord v.toWord = v := by
  cases v with
  | pointer i =>
    change i < 0x4000000000000000 at h
    have hword := toNat_toWord_pointer i
    have htag : (pointer i).toWord &&& 3 = 0 := by
      rw [and_three_eq_iff, hword, UInt64.toNat_zero]
      omega
    rw [ofWord_of_pointer htag, hword]
    congr 1
    omega
  | integer n =>
    have hword := toNat_toWord_integer n
    have htag : (integer n).toWord &&& 3 = 3 := by
      rw [and_three_eq_iff, hword]
      change _ = 3
      omega
    rw [ofWord_of_integer htag]
    congr 1
    apply SmallInteger.eq_of_val
    have hmin := n.min_le
    have hmax := n.le_max
    simp only [SmallInteger.ofBits, hword]
    split_ifs <;> omega
  | float x =>
    have hword := toNat_toWord_float x
    have haligned : x.bits.toNat % 4 = 0 := (and_three_eq_iff x.bits 0).mp x.aligned
    have htag : (float x).toWord &&& 3 = 2 := by
      rw [and_three_eq_iff, hword]
      change _ = 2
      omega
    rw [ofWord_of_float htag]
    congr 1
    apply ShortFloat.eq_of_bits
    rw [← UInt64.toNat_inj, ShortFloat.toNat_bits_truncate, hword]
    omega
  | nil => rfl
  | bool b => cases b <;> rfl
  | reserved r => simp [toWord, ofWord, r.tagged, r.ne_nil, r.ne_true, r.ne_false]

theorem profile_toWord {v : Value} (h : v.Fits) : Word.profile v.toWord = v.profile := by
  rw [← profile_kind_ofWord, ofWord_toWord h, profile_eq_profile_kind]

theorem toWord_inj {v v' : Value} (h : v.Fits) (h' : v'.Fits) :
    v.toWord = v'.toWord ↔ v = v' := by
  constructor
  · intro heq
    rw [← ofWord_toWord h, heq, ofWord_toWord h']
  · exact congrArg toWord

theorem ofIndex_eq (i : Nat) : ofIndex i = pointer (i % 0x4000000000000000) := by
  have hword : (UInt64.ofNat i <<< 2).toNat = i * 4 % 0x10000000000000000 := toNat_toWord_pointer i
  have htag : UInt64.ofNat i <<< 2 &&& 3 = 0 := by
    rw [and_three_eq_iff, hword, UInt64.toNat_zero]
    omega
  rw [ofIndex, ofWord_of_pointer htag, hword]
  congr 1
  omega

theorem ofInt?_eq_some_iff {n : Int} {v : Value} :
    ofInt? n = some v ↔ ∃ k : SmallInteger, k.val = n ∧ v = integer k := by
  constructor
  · intro h
    obtain ⟨k, hk, rfl⟩ := Option.map_eq_some_iff.mp h
    unfold SmallInteger.ofInt? at hk
    split_ifs at hk
    cases hk
    exact ⟨_, rfl, rfl⟩
  · rintro ⟨k, rfl, rfl⟩
    simp [ofInt?, SmallInteger.ofInt?, k.min_le, k.le_max]

theorem exists_ofInt?_iff {n : Int} :
    (∃ v, ofInt? n = some v) ↔ -0x2000000000000000 ≤ n ∧ n ≤ 0x1FFFFFFFFFFFFFFF := by
  simp only [ofInt?_eq_some_iff]
  constructor
  · rintro ⟨v, k, rfl, -⟩
    exact ⟨k.min_le, k.le_max⟩
  · rintro ⟨hmin, hmax⟩
    exact ⟨_, ⟨n, hmin, hmax⟩, rfl, rfl⟩

theorem ofInt?_eq_none {n : Int} (h : n < -0x2000000000000000 ∨ 0x1FFFFFFFFFFFFFFF < n) :
    ofInt? n = none := by
  rw [Option.eq_none_iff_forall_ne_some]
  intro v hv
  have hfits := exists_ofInt?_iff.mp ⟨v, hv⟩
  omega

/-- The value that is made for what this one is taken for. -/
def canonical : Value → Value
  | reserved _ => nil
  | v => v

theorem value?_kind {v : Value} (h : v.Fits) : v.kind.value? = some v.canonical := by
  cases v with
  | pointer i =>
    change i < 0x4000000000000000 at h
    rw [kind, ValueKind.value?, ofIndex_eq, Nat.mod_eq_of_lt h]
    rfl
  | integer n => exact ofInt?_eq_some_iff.mpr ⟨n, rfl, rfl⟩
  | float x =>
    rw [kind, ValueKind.value?, ofBinary64, ShortFloat.truncate_toBinary64]
    rfl
  | nil | bool b | reserved r => rfl

theorem toWord_canonical_ofWord (w : UInt64) :
    (ofWord w).canonical.toWord = if Word.isReserved w then 1 else w := by
  have hword := toWord_ofWord w
  rcases and_three_cases w with h | h | h | h
  · rw [ofWord_of_pointer h] at hword ⊢
    simpa [isReserved, h, canonical] using hword
  · unfold ofWord
    split_ifs <;> simp_all [isReserved, toWord, canonical]
  · rw [ofWord_of_float h] at hword ⊢
    simpa [isReserved, h, canonical] using hword
  · rw [ofWord_of_integer h] at hword ⊢
    simpa [isReserved, h, canonical] using hword

end Value

namespace ValueKind

variable {k k' : ValueKind} {v v' : Value}

/-- What is made for a kind fits a word and is no reserved word. -/
theorem fits_of_value? (h : k.value? = some v) : v.Fits ∧ v.canonical = v := by
  cases k with
  | pointer i =>
    obtain rfl := Option.some.inj h
    rw [Value.ofIndex_eq]
    exact ⟨Nat.mod_lt i (by decide), rfl⟩
  | integer n =>
    obtain ⟨_, -, rfl⟩ := Value.ofInt?_eq_some_iff.mp h
    exact ⟨trivial, rfl⟩
  | float x | nil | bool b =>
    obtain rfl := Option.some.inj h
    exact ⟨trivial, rfl⟩

/-- What is made for a kind passes the same test as the kind. -/
theorem tests_of_value? (h : k.value? = some v) : v.kind.profile.tests = k.profile.tests := by
  cases k with
  | pointer i =>
    obtain rfl := Option.some.inj h
    rw [Value.ofIndex_eq]
    rfl
  | integer n =>
    obtain ⟨_, -, rfl⟩ := Value.ofInt?_eq_some_iff.mp h
    rfl
  | float x | nil | bool b =>
    obtain rfl := Option.some.inj h
    rfl

theorem toWord_eq_iff_kind_eq (h : k.value? = some v) (h' : k'.value? = some v') :
    v.toWord = v'.toWord ↔ v.kind = v'.kind := by
  obtain ⟨hfits, hsame⟩ := fits_of_value? h
  obtain ⟨hfits', hsame'⟩ := fits_of_value? h'
  constructor
  · intro heq
    rw [(Value.toWord_inj hfits hfits').mp heq]
  · intro heq
    have hagain := Value.value?_kind hfits
    rw [heq, Value.value?_kind hfits', hsame, hsame'] at hagain
    rw [Option.some.inj hagain]

end ValueKind

/-- The word is read in one way only: its bits, the value it decodes to and what that
is taken for agree on every question, and just one of the six tests holds. Nothing is
lost, but a reserved word made again for what it is taken for is nil. -/
structure Word.ReadOneWay (w : UInt64) : Prop where
  value : (Value.ofWord w).profile = profile w
  kind : (Value.ofWord w).kind.profile = profile w
  one : (profile w).tests.count true = 1
  again : (Value.ofWord w).toWord = w
  made : (Value.ofWord w).kind.value?.map Value.toWord = some (if isReserved w then 1 else w)

/-- Every word is read in one way. The integers that fit a word are those from the
smallest to the largest small integer, and they are read back, and so is every index
below `2 ^ 62`. What is made for different kinds has different words, and values
so made have one word exactly when they are taken for the same. -/
theorem words_are_read_as_written :
    (∀ w, Word.ReadOneWay w) ∧
      (∀ n : Int,
        ((∃ v, Value.ofInt? n = some v) ↔ -0x2000000000000000 ≤ n ∧ n ≤ 0x1FFFFFFFFFFFFFFF) ∧
          ∀ v, Value.ofInt? n = some v → (Word.profile v.toWord).integer? = some n) ∧
      (∀ i < 0x4000000000000000, (Word.profile (Value.ofIndex i).toWord).index? = some i) ∧
      ∀ (k k' : ValueKind) (v v' : Value), k.value? = some v → k'.value? = some v' →
        (v.toWord = v'.toWord → k.profile.tests = k'.profile.tests) ∧
          (v.toWord = v'.toWord ↔ v.kind = v'.kind) := by
  refine ⟨fun w => ?_, fun n => ⟨Value.exists_ofInt?_iff, fun v hv => ?_⟩, fun i hi => ?_, ?_⟩
  · have hkind := Value.profile_kind_ofWord w
    constructor
    case value => rw [Value.profile_eq_profile_kind, hkind]
    case kind => exact hkind
    case one => rw [← hkind, ValueKind.count_tests_profile]
    case again => exact Value.toWord_ofWord w
    case made =>
      rw [Value.value?_kind (Value.fits_ofWord w), Option.map_some,
        Value.toWord_canonical_ofWord]
  · obtain ⟨k, rfl, rfl⟩ := Value.ofInt?_eq_some_iff.mp hv
    rw [Value.profile_toWord (v := .integer k) trivial]
    rfl
  · rw [Value.ofIndex_eq, Nat.mod_eq_of_lt hi, Value.profile_toWord (v := .pointer i) hi]
    rfl
  · intro k k' v v' hv hv'
    have hequal := ValueKind.toWord_eq_iff_kind_eq hv hv'
    refine ⟨fun heq => ?_, hequal⟩
    rw [← ValueKind.tests_of_value? hv, ← ValueKind.tests_of_value? hv', hequal.mp heq]

end ObjectMachine

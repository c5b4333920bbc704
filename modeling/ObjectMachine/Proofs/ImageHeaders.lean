import ObjectMachine.Image
import ObjectMachine.Proofs.Decoding

/-!
# Image headers are read as they are written

A header is read back from its own bytes, and bytes that are accepted are the bytes
that the header found in them writes down. What is refused is refused for the first
of three reasons that applies: too few bytes, another magic number, another version.
Reading a file, which looks at no more than a header, comes to the same.
-/

namespace ObjectMachine

/-- The number that bytes spell, most significant first. -/
def spelled (bytes : List UInt8) : Nat := bytes.foldl (fun n b => 256 * n + b.toNat) 0

/-- One more byte, with all of them moved up by `k` bits. -/
theorem shiftLeft_or_byte (n k : Nat) (b : UInt8) :
    n <<< (8 + k) ||| b.toNat <<< k = (256 * n + b.toNat) <<< k := by
  rw [Nat.shiftLeft_add, ← Nat.shiftLeft_or_distrib, ← Nat.shiftLeft_add_eq_or_of_lt b.toNat_lt,
    Nat.shiftLeft_eq n 8, Nat.mul_comm n]

theorem toNat_ofBigEndian (a b c d : UInt8) :
    (ofBigEndian a b c d).toNat = spelled [a, b, c, d] := by
  have ha := a.toNat_lt
  have hb := b.toNat_lt
  have hc := c.toNat_lt
  -- no bit leaves the word, so the shifts are those of numbers
  have hmod : ∀ x k : Nat, x <<< k < 4294967296 → x <<< k % 4294967296 = x <<< k :=
    fun _ _ h => Nat.mod_eq_of_lt h
  have hsum : a.toNat <<< 24 ||| b.toNat <<< 16 ||| c.toNat <<< 8 ||| d.toNat =
      256 * (256 * (256 * a.toNat + b.toNat) + c.toNat) + d.toNat := by
    rw [shiftLeft_or_byte _ 16, shiftLeft_or_byte _ 8]
    exact shiftLeft_or_byte _ 0 d
  simp only [ofBigEndian, UInt32.toNat_or, UInt32.toNat_shiftLeft, UInt8.toNat_toUInt32,
    UInt32.reduceToNat, Nat.reduceMod, Nat.reducePow]
  rw [hmod _ 24 (by rw [Nat.shiftLeft_eq]; omega), hmod _ 16 (by rw [Nat.shiftLeft_eq]; omega),
    hmod _ 8 (by rw [Nat.shiftLeft_eq]; omega), hsum]
  simp [spelled]

namespace ImageHeader

def wordAt (bytes : List UInt8) (i : Nat) : Nat := spelled ((bytes.drop (4 * i)).take 4)

variable {bytes : List UInt8}

theorem words_flatMap_bigEndian (ws : List UInt32) : words (ws.flatMap bigEndian) = ws := by
  induction ws with
  | nil => rfl
  | cons w ws ih =>
    rw [List.flatMap_cons]
    change ofBigEndian .. :: words (ws.flatMap bigEndian) = _
    rw [ofBigEndian_bigEndian, ih]

theorem length_lt_four (h : ∀ a b c d rest, bytes = a :: b :: c :: d :: rest → False) :
    bytes.length < 4 := by
  rcases bytes with _ | ⟨a, _ | ⟨b, _ | ⟨c, _ | ⟨d, rest⟩⟩⟩⟩
  case cons.cons.cons.cons => exact absurd rfl (h a b c d rest)
  all_goals simp

theorem length_words (bytes : List UInt8) : (words bytes).length = bytes.length / 4 := by
  fun_induction words bytes with
  | case1 a b c d rest ih =>
    simp only [List.length_cons, ih]
    omega
  | case2 bytes h =>
    have hlength := length_lt_four h
    rw [List.length_nil]
    omega

/-- The words of some bytes write down all bytes that belong to a whole word. -/
theorem flatMap_bigEndian_words (bytes : List UInt8) :
    (words bytes).flatMap bigEndian = bytes.take (4 * (bytes.length / 4)) := by
  fun_induction words bytes with
  | case1 a b c d rest ih =>
    have hlength : 4 * ((a :: b :: c :: d :: rest).length / 4) = 4 * (rest.length / 4) + 4 := by
      simp only [List.length_cons]
      omega
    rw [List.flatMap_cons, bigEndian_ofBigEndian, ih, hlength]
    rfl
  | case2 bytes h =>
    have hlength := length_lt_four h
    rw [show 4 * (bytes.length / 4) = 0 by omega]
    rfl

theorem toNat_of_getElem?_words {i : Nat} {w : UInt32} (h : (words bytes)[i]? = some w) :
    w.toNat = wordAt bytes i := by
  fun_induction words bytes generalizing i with
  | case1 a b c d rest ih =>
    cases i with
    | zero =>
      obtain rfl := Option.some.inj h
      exact toNat_ofBigEndian a b c d
    | succ i => exact ih h
  | case2 => cases h

theorem wordAt_take {n i : Nat} (h : 4 * i + 4 ≤ n) : wordAt (bytes.take n) i = wordAt bytes i := by
  rw [wordAt, wordAt, List.drop_take, List.take_take, Nat.min_eq_left (by omega)]

theorem parse_toBytes (objects globals root : UInt32) :
    parse (new objects globals root).toBytes = .ok (new objects globals root) := by
  have hlength : (new objects globals root).toBytes.length = size := rfl
  rw [parse, ← hlength, List.take_length, toBytes, words_flatMap_bigEndian]
  rfl

theorem parse_of_short (h : bytes.length < size) :
    parse bytes = .error (.tooSmall bytes.length) := by
  have hwords := length_words bytes
  rw [parse, List.take_of_length_le (Nat.le_of_lt h)]
  split
  next heq =>
    rw [heq] at hwords
    simp only [List.length_cons, List.length_nil, size] at hwords h
    omega
  · rfl

theorem words_of_long (h : size ≤ bytes.length) :
    ∃ magic version objects globals root,
      words (bytes.take size) = [magic, version, objects, globals, root] := by
  have hcount : (words (bytes.take size)).length = 5 := by
    rw [length_words, List.length_take_of_le h]
    rfl
  generalize words (bytes.take size) = ws at hcount
  rcases ws with _ | ⟨a, _ | ⟨b, _ | ⟨c, _ | ⟨d, _ | ⟨e, _ | ⟨f, rest⟩⟩⟩⟩⟩⟩
  case cons.cons.cons.cons.cons.nil => exact ⟨a, b, c, d, e, rfl⟩
  all_goals simp at hcount

/-- Bytes that are enough for a header are those of some header, whose first two words decide. -/
theorem parse_of_long (h : size ≤ bytes.length) :
    ∃ header : ImageHeader, header.toBytes = bytes.take size ∧
      header.magic.toNat = wordAt bytes 0 ∧ header.version.toNat = wordAt bytes 1 ∧
      parse bytes =
        if header.magic ≠ imageMagic then .error (.badMagic header.magic)
        else if header.version ≠ imageVersion then .error (.unsupportedVersion header.version)
        else .ok header := by
  obtain ⟨magic, version, objects, globals, root, hwords⟩ := words_of_long h
  have hbytes : [magic, version, objects, globals, root].flatMap bigEndian = bytes.take size := by
    rw [← hwords, flatMap_bigEndian_words, List.length_take_of_le h, List.take_take]
    rfl
  have hword : ∀ i w, 4 * i + 4 ≤ size → [magic, version, objects, globals, root][i]? = some w →
      w.toNat = wordAt bytes i := by
    intro i w hi hw
    rw [← hwords] at hw
    rw [toNat_of_getElem?_words hw, wordAt_take hi]
  refine ⟨⟨magic, version, objects, globals, root⟩, hbytes, ?_, ?_, ?_⟩
  · exact hword 0 magic (by decide) rfl
  · exact hword 1 version (by decide) rfl
  · rw [parse, hwords]

theorem load_eq_parse (bytes : List UInt8) : load bytes = parse bytes := by
  by_cases h : bytes.length < size
  · rw [load, List.take_of_length_le (Nat.le_of_lt h)]
  · obtain ⟨magic, version, objects, globals, root, hwords⟩ := words_of_long (Nat.le_of_not_lt h)
    rw [load, parse, parse, List.take_take, Nat.min_self, hwords]

/-- A header is read back from what it writes. Bytes are accepted exactly if there are enough
of them and they start with the magic number and the version, and then they start with what
the header writes; otherwise the first thing that is wrong is reported. A file is read as its
content is, and only its first bytes matter. -/
theorem headers_are_read_as_written :
    (∀ objects globals root : UInt32,
      parse (new objects globals root).toBytes = .ok (new objects globals root)) ∧
    ∀ bytes : List UInt8,
      ((∃ header, parse bytes = .ok header) ↔
        20 ≤ bytes.length ∧ wordAt bytes 0 = imageMagic.toNat ∧
          wordAt bytes 1 = imageVersion.toNat) ∧
      (∀ header, parse bytes = .ok header → header.toBytes = bytes.take 20) ∧
      (bytes.length < 20 → parse bytes = .error (.tooSmall bytes.length)) ∧
      (20 ≤ bytes.length → wordAt bytes 0 ≠ imageMagic.toNat →
        ∃ found, found.toNat = wordAt bytes 0 ∧ parse bytes = .error (.badMagic found)) ∧
      (20 ≤ bytes.length → wordAt bytes 0 = imageMagic.toNat →
        wordAt bytes 1 ≠ imageVersion.toNat →
        ∃ found, found.toNat = wordAt bytes 1 ∧
          parse bytes = .error (.unsupportedVersion found)) ∧
      load bytes = parse bytes ∧
      ∀ other : List UInt8, other.take 20 = bytes.take 20 → load other = load bytes := by
  refine ⟨parse_toBytes, fun bytes => ?_⟩
  have hfile : load bytes = parse bytes ∧
      ∀ other : List UInt8, other.take 20 = bytes.take 20 → load other = load bytes :=
    ⟨load_eq_parse bytes, fun other h => congrArg parse h⟩
  rcases Nat.lt_or_ge bytes.length 20 with hshort | hlong
  · have hparse := parse_of_short hshort
    refine ⟨⟨?_, fun h => absurd h.1 (by omega)⟩, ?_, fun _ => hparse, fun h => absurd h (by omega),
      fun h => absurd h (by omega), hfile⟩
    · rintro ⟨header, h⟩
      rw [hparse] at h
      cases h
    · intro header h
      rw [hparse] at h
      cases h
  · obtain ⟨header, hbytes, hmagic, hversion, hparse⟩ := parse_of_long hlong
    rw [← hmagic, ← hversion]
    simp only [ne_eq, UInt32.toNat_inj]
    refine ⟨?_, ?_, fun h => absurd h (by omega), ?_, ?_, hfile⟩
    · by_cases h₀ : header.magic = imageMagic <;> by_cases h₁ : header.version = imageVersion <;>
        simp [hparse, h₀, h₁, hlong]
    · intro found h
      rw [hparse] at h
      split_ifs at h
      cases h
      exact hbytes
    · intro _ h₀
      exact ⟨header.magic, rfl, by rw [hparse, if_pos h₀]⟩
    · intro _ h₀ h₁
      exact ⟨header.version, rfl, by rw [hparse, if_neg (not_not_intro h₀), if_pos h₁]⟩

end ImageHeader

end ObjectMachine

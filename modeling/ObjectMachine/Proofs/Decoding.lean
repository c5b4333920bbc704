import ObjectMachine.Assembly
import ObjectMachine.Proofs.Layout

/-!
# Reading loses and invents nothing

Bytes that can be read as an instruction are the bytes which that instruction writes
down, so an instruction is found wherever its bytes stand. Reading any code comes to
an end: at the end of the code, or at the first bytes that are no instruction. Up to
there the instructions that have been read account for every byte.
-/

namespace ObjectMachine

theorem Opcode.toByte_of_ofByte? {byte : UInt8} {op : Opcode} (h : ofByte? byte = some op) :
    op.toByte = byte := by
  unfold ofByte? at h
  split at h <;> cases h <;> rfl

theorem bigEndian_ofBigEndian (a b c d : UInt8) :
    bigEndian (ofBigEndian a b c d) = [a, b, c, d] := by
  have h24 : (UInt32.toBitVec 24 % 32).toNat = 24 := rfl
  have h16 : (UInt32.toBitVec 16 % 32).toNat = 16 := rfl
  have h8 : (UInt32.toBitVec 8 % 32).toNat = 8 := rfl
  simp only [bigEndian, ofBigEndian, List.cons.injEq, and_true]
  refine ⟨?_, ?_, ?_, ?_⟩ <;>
    refine UInt8.toBitVec_inj.mp (BitVec.eq_of_getLsbD_eq fun i hi => ?_) <;>
    simp only [UInt32.toBitVec_or, UInt32.toBitVec_shiftLeft, UInt8.toBitVec_toUInt32,
      UInt32.toBitVec_toUInt8, UInt32.toBitVec_shiftRight, BitVec.getLsbD_or,
      BitVec.shiftLeft_eq', BitVec.ushiftRight_eq', BitVec.getLsbD_shiftLeft,
      BitVec.getLsbD_setWidth, BitVec.getLsbD_ushiftRight, h24, h16, h8] <;>
    grind

namespace DecodeError

def offset : DecodeError → Nat
  | unknownOpcode _ offset | truncated _ offset _ _ => offset

/-- The same error, met at another offset. -/
def placedAt (offset : Nat) : DecodeError → DecodeError
  | unknownOpcode byte _ => unknownOpcode byte offset
  | truncated op _ needed available => truncated op offset needed available

@[simp] theorem offset_placedAt (offset : Nat) (e : DecodeError) :
    (e.placedAt offset).offset = offset := by
  cases e <;> rfl

def shift (n : Nat) (e : DecodeError) : DecodeError := e.placedAt (n + e.offset)

end DecodeError

namespace Instruction

variable {byte : UInt8} {rest : List UInt8} {offset : Nat} {i : Instruction}

/-- Bytes that are read as an instruction are what it writes down. -/
theorem exists_encode_of_decode (h : decode byte rest offset = .ok i) :
    i.inlined.length < 0x100000000 ∧ ∃ tail, byte :: rest = i.encode ++ tail := by
  unfold decode at h
  split at h
  · cases h
  next op hop =>
    obtain rfl := Opcode.toByte_of_ofByte? hop
    cases op <;> simp only [decodeOperands] at h
    case createBlock =>
      split at h
      next a b c d _ _ _ _ _ _ _ _ tail =>
        split_ifs at h with hshort
        cases h
        have hlength := List.length_take_of_le (Nat.le_of_not_lt hshort)
        refine ⟨?_, tail.drop (ofBigEndian a b c d).toNat, ?_⟩
        · rw [inlined, hlength]
          exact (ofBigEndian a b c d).toNat_lt
        · simp [encode, operands, opcode, hlength, bigEndian_ofBigEndian]
      · cases h
    case pushSelf | returnTop | pop | duplicate =>
      cases h
      exact ⟨Nat.zero_lt_succ _, rest, rfl⟩
    all_goals
      split at h
      next tail =>
        cases h
        refine ⟨Nat.zero_lt_succ _, tail, ?_⟩
        simp [encode, operands, opcode, JumpKind.opcode, bigEndian_ofBigEndian]
      · cases h

/-- What is read does not depend on where it stands, but for the place that an error
names. -/
theorem decode_placedAt (byte : UInt8) (rest : List UInt8) (offset other : Nat) :
    (decode byte rest offset).mapError (.placedAt other) = decode byte rest other := by
  unfold decode
  split
  · rfl
  next op _ =>
    cases op <;> simp only [decodeOperands]
    case createBlock =>
      split
      · split_ifs <;> rfl
      · rfl
    case pushSelf | returnTop | pop | duplicate => rfl
    all_goals split <;> rfl

theorem offset_of_decode {e : DecodeError} (h : decode byte rest offset = .error e) :
    e.offset = offset := by
  have hplace := decode_placedAt byte rest offset offset
  rw [h] at hplace
  rw [← Except.error.inj hplace, DecodeError.offset_placedAt]

theorem decode_add (byte : UInt8) (rest : List UInt8) (n offset : Nat) :
    decode byte rest (n + offset) = (decode byte rest offset).mapError (.shift n) := by
  rw [← decode_placedAt byte rest offset]
  cases h : decode byte rest offset with
  | ok i => rfl
  | error e =>
    simp only [Except.mapError, DecodeError.shift, offset_of_decode h]

end Instruction

namespace Code

variable {code : Code} {pc : Nat} {i : Instruction}

/-- Where an instruction can be fetched, the code has the bytes that it writes down. -/
theorem exists_encode_of_fetch? (h : code.fetch? pc = some (.ok i)) :
    i.inlined.length < 0x100000000 ∧ ∃ tail, code.drop pc = i.encode ++ tail := by
  unfold fetch? at h
  split at h
  · cases h
  next byte rest hdrop =>
    rw [hdrop]
    exact Instruction.exists_encode_of_decode (Option.some.inj h)

theorem take_drop_of_fetch? (h : code.fetch? pc = some (.ok i)) :
    (code.drop pc).take i.size = i.encode := by
  obtain ⟨-, tail, hdrop⟩ := exists_encode_of_fetch? h
  rw [hdrop, ← i.length_encode, List.take_left]

/-- An instruction can be fetched wherever its bytes stand. -/
theorem fetch?_of_bytes (h : code.fetch? pc = some (.ok i)) {other : Code} {place : Nat}
    (hbytes : (other.drop place).take i.size = (code.drop pc).take i.size) :
    other.fetch? place = some (.ok i) := by
  have hinlined := (exists_encode_of_fetch? h).1
  rw [take_drop_of_fetch? h] at hbytes
  have hdrop : other.drop place =
      i.opcode.toByte :: (i.operands ++ (other.drop place).drop i.size) := by
    rw [← List.cons_append]
    exact (List.take_append_drop i.size _).symm.trans (congrArg (· ++ _) hbytes)
  rw [fetch?, hdrop]
  exact congrArg some (i.decode_encode hinlined _ _)

theorem offset_of_fetch? {e : DecodeError} (h : code.fetch? pc = some (.error e)) :
    e.offset = pc := by
  unfold fetch? at h
  split at h
  · cases h
  · exact Instruction.offset_of_decode (Option.some.inj h)

theorem fetch?_append_left (h : code.fetch? pc = some (.ok i)) (after : Code) :
    fetch? (code ++ after) pc = some (.ok i) := by
  have hsize := add_size_le_length h
  apply fetch?_of_bytes h
  rw [List.drop_append_of_le_length (by omega), List.take_append_of_le_length]
  rw [List.length_drop]
  omega

theorem fetch?_append_right (before code : Code) (pc : Nat) :
    fetch? (before ++ code) (before.length + pc) =
      (code.fetch? pc).map (Except.mapError (.shift before.length)) := by
  unfold fetch?
  rw [List.drop_length_add_append]
  split
  · rfl
  · exact congrArg some (Instruction.decode_add ..)

theorem Reads.append {mid last : Nat} {entries entries' : List (Nat × Instruction)}
    (h : code.Reads pc entries mid) (h' : code.Reads mid entries' last) :
    code.Reads pc (entries ++ entries') last := by
  induction h with
  | done => exact h'
  | read hfetch _ ih => exact .read hfetch (ih h')

variable {entries : List (Nat × Instruction)} {last : Nat}

/-- The entries stand one after the other. -/
theorem Reads.eq_layout (h : code.Reads pc entries last) :
    entries = layout pc (entries.map Prod.snd) := by
  induction h with
  | done => rfl
  | read _ _ ih => exact congrArg (List.cons _) ih

theorem Reads.last_eq (h : code.Reads pc entries last) :
    pc + extent (entries.map Prod.snd) = last := by
  induction h with
  | done => rfl
  | read _ _ ih =>
    rw [← ih]
    exact (Nat.add_assoc ..).symm

/-- Writing down what has been read gives the bytes that it was read from. -/
theorem Reads.drop_eq (h : code.Reads pc entries last) :
    code.drop pc = (entries.map Prod.snd).flatMap Instruction.encode ++ code.drop last := by
  induction h with
  | done => rfl
  | @read pc last i entries hfetch _ ih =>
    rw [List.map_cons, List.flatMap_cons, List.append_assoc, ← ih, ← take_drop_of_fetch? hfetch,
      ← List.drop_drop, List.take_append_drop]

theorem Reads.append_left (h : code.Reads pc entries last) (after : Code) :
    Reads (code ++ after) pc entries last := by
  induction h with
  | done pc => exact .done pc
  | read hfetch _ ih => exact .read (fetch?_append_left hfetch after) ih

theorem Reads.append_right (h : code.Reads pc entries last) (before : Code) :
    Reads (before ++ code) (before.length + pc)
      (entries.map fun entry => (before.length + entry.1, entry.2)) (before.length + last) := by
  induction h with
  | done pc => exact .done _
  | read hfetch _ ih =>
    refine .read ?_ (by rwa [Nat.add_assoc])
    rw [fetch?_append_right, hfetch]
    rfl

end Code

def Assembly.emitAll (a : Assembly) (is : List Instruction) : Assembly := is.foldl emit a

theorem Assembly.code_emitAll (a : Assembly) (is : List Instruction) :
    (a.emitAll is).code = a.code ++ is.flatMap Instruction.encode := by
  induction is generalizing a with
  | nil => simp [emitAll]
  | cons i is ih =>
    have hemit : (a.emit i).code = a.code ++ i.encode := rfl
    rw [List.flatMap_cons, ← List.append_assoc, ← hemit, ← ih]
    rfl

namespace Code

variable {code : Code} {entries : List (Nat × Instruction)} {last : Nat}

theorem Reads.code_emitAll (h : code.Reads 0 entries last) :
    (Assembly.empty.emitAll (entries.map Prod.snd)).code = code.take last := by
  have hdrop := h.drop_eq
  rw [List.drop_zero] at hdrop
  generalize hbytes : (entries.map Prod.snd).flatMap Instruction.encode = bytes at hdrop
  have hlength : bytes.length = last := by
    have hsum := congrArg List.length hdrop
    have hlast := h.last_le (Nat.zero_le _)
    rw [List.length_append, List.length_drop] at hsum
    omega
  calc (Assembly.empty.emitAll (entries.map Prod.snd)).code
      = bytes := (Assembly.code_emitAll ..).trans hbytes
    _ = (bytes ++ code.drop last).take last := (List.take_left' hlength).symm
    _ = code.take last := by rw [← hdrop]

/-- After code that can be read to its end, more code is read as if it stood alone. -/
theorem listing_append (h : code.listing.2.error = none) (more : Code) :
    (code ++ more).listing =
      (code.listing.1 ++ more.listing.1.map fun entry => (code.length + entry.1, entry.2),
        ⟨code ++ more, code.length + more.listing.2.offset,
          more.listing.2.error.map (.shift code.length)⟩) := by
  obtain ⟨entries, last, error, hreads, hstop⟩ := exists_reads more 0
  rw [listing_of_reads hreads hstop]
  have hboth := ((listing_reads h).append_left more).append (hreads.append_right code)
  refine listing_of_reads hboth ?_
  rw [fetch?_append_right, hstop]
  cases error <;> rfl

/-- What reading code gives, and the code itself, account for each other. -/
structure Accounts (code : Code) (entries : List (Nat × Instruction)) (last : Cursor) : Prop where
  /-- Reading ends, whatever budget beyond the bytes it is given. -/
  ends : ∀ fuel, code.length < fuel → (Cursor.start code).drain fuel = (entries, last)
  /-- Reading further stays where it has ended. -/
  stays : last.next = (none, last)
  sameCode : last.code = code
  /-- Each instruction is one that stands in the code as a whole. -/
  within : ∀ pc i, (pc, i) ∈ entries →
    1 ≤ i.size ∧ pc + i.size ≤ code.length ∧ code.fetch? pc = some (.ok i)
  /-- The instructions stand one after the other, without a gap. -/
  adjacent : entries = layout 0 (entries.map Prod.snd)
  total : extent (entries.map Prod.snd) = last.offset
  offset_le : last.offset ≤ code.length
  /-- Reading has ended at the end or at an error that it has met there, never both. -/
  stopped : (last.atEnd = true ∧ last.error = none) ↔
    ¬ ∃ e, last.error = some e ∧ e.offset = last.offset ∧
      code.fetch? last.offset = some (.error e)
  /-- Assembling the instructions again gives the bytes that have been read. -/
  rewritten : (Assembly.empty.emitAll (entries.map Prod.snd)).code = code.take last.offset
  /-- An instruction is found wherever its bytes stand. -/
  movable : ∀ pc i (other : Code) (place : Nat), code.fetch? pc = some (.ok i) →
    (other.drop place).take i.size = (code.drop pc).take i.size →
      other.fetch? place = some (.ok i)
  /-- More code after code that is read to its end is read as if it stood alone. -/
  followed : last.error = none → ∀ more : Code,
    (code ++ more).listing =
      (entries ++ more.listing.1.map fun entry => (code.length + entry.1, entry.2),
        ⟨code ++ more, code.length + more.listing.2.offset,
          more.listing.2.error.map (.shift code.length)⟩)

/-- Reading any bytes ends, gives only instructions that stand there, and gives all of
them up to where it ends. -/
theorem reading_loses_and_invents_nothing (code : Code) :
    code.Accounts code.listing.1 code.listing.2 := by
  have hfollowed := @listing_append code
  obtain ⟨entries, last, error, hreads, hstop⟩ := exists_reads code 0
  rw [listing_of_reads hreads hstop] at hfollowed ⊢
  have hlast := hreads.last_le (Nat.zero_le _)
  have hroom : entries.length ≤ code.length := by
    have hlength := hreads.add_length_le
    omega
  constructor
  case ends =>
    intro fuel hfuel
    exact Cursor.drain_of_reads hreads hstop (Nat.lt_of_le_of_lt hroom hfuel)
  case stays => cases error <;> simp [Cursor.next, hstop]
  case sameCode => rfl
  case within =>
    intro pc i hi
    have hfetch := (hreads.entry hi).1
    exact ⟨i.size_pos, add_size_le_length hfetch, hfetch⟩
  case adjacent => exact hreads.eq_layout
  case total => simpa using hreads.last_eq
  case offset_le => exact hlast
  case stopped =>
    cases error with
    | none => simp [Cursor.atEnd, fetch?_eq_none.mp hstop]
    | some e => simp [offset_of_fetch? hstop, hstop]
  case rewritten => exact hreads.code_emitAll
  case movable => exact fun pc i other place hfetch hbytes => fetch?_of_bytes hfetch hbytes
  case followed => exact hfollowed

end Code

end ObjectMachine

import ObjectMachine.Instruction
import Mathlib.Tactic.SplitIfs

/-!
# Reading code

What an instruction writes down is read back from any place in the code. Reading
one instruction after the other either reaches the end or stops at the first one
that is malformed, and the listing has all that can be read. In code without
malformed instructions, the offsets at which execution can stand are the starts
of the listed instructions and the end.
-/

namespace ObjectMachine

theorem ofBigEndian_bigEndian (n : UInt32) :
    ofBigEndian (n >>> 24).toUInt8 (n >>> 16).toUInt8 (n >>> 8).toUInt8 n.toUInt8 = n := by
  have h24 : (UInt32.toBitVec 24 % 32).toNat = 24 := rfl
  have h16 : (UInt32.toBitVec 16 % 32).toNat = 16 := rfl
  have h8 : (UInt32.toBitVec 8 % 32).toNat = 8 := rfl
  refine UInt32.toBitVec_inj.mp (BitVec.eq_of_getLsbD_eq fun i hi => ?_)
  simp only [ofBigEndian, UInt32.toBitVec_or, UInt32.toBitVec_shiftLeft, UInt8.toBitVec_toUInt32,
    UInt32.toBitVec_toUInt8, UInt32.toBitVec_shiftRight, BitVec.getLsbD_or, BitVec.shiftLeft_eq',
    BitVec.ushiftRight_eq', BitVec.getLsbD_shiftLeft, BitVec.getLsbD_setWidth,
    BitVec.getLsbD_ushiftRight, h24, h16, h8]
  -- each bit comes from the byte it stands in
  grind

namespace Instruction

theorem decode_encode (i : Instruction) (h : i.inlined.length < 0x100000000) (rest : List UInt8)
    (offset : Nat) : decode i.opcode.toByte (i.operands ++ rest) offset = .ok i := by
  cases i with
  | jump kind n =>
    cases kind <;>
      simp [decode, opcode, JumpKind.opcode, decodeOperands, operands, bigEndian,
        ofBigEndian_bigEndian]
  | createBlock body literals temporaries =>
    obtain ⟨length, hword, hlength⟩ : ∃ w, w = UInt32.ofNat body.length ∧ w.toNat = body.length :=
      ⟨_, rfl, (UInt32.toNat_ofNat').trans (Nat.mod_eq_of_lt h)⟩
    simp only [operands, ← hword]
    simp [decode, opcode, decodeOperands, bigEndian, ofBigEndian_bigEndian, hlength]
  | _ => simp [decode, opcode, decodeOperands, operands, bigEndian, ofBigEndian_bigEndian]

/-- A successful reading has had all the bytes of its instruction. -/
theorem size_le_of_decode {byte : UInt8} {rest : List UInt8} {offset : Nat} {i : Instruction}
    (h : decode byte rest offset = .ok i) : i.size ≤ rest.length + 1 := by
  unfold decode at h
  split at h
  · cases h
  next op _ =>
    cases op <;> simp only [decodeOperands] at h
    case pushSelf | returnTop | pop | duplicate =>
      cases h
      exact Nat.le_add_left 1 _
    case createBlock =>
      split at h
      · split_ifs at h with hshort
        cases h
        simp only [size, opcode, Opcode.size, inlined, List.length_take, List.length_cons]
        omega
      · cases h
    case send =>
      split at h
      · cases h
        simp [size, opcode, Opcode.size, inlined]
      · cases h
    all_goals
      split at h
      · cases h
        simp [size, opcode, JumpKind.opcode, Opcode.size, inlined]
      · cases h

/-- The body of a block stands after its operands. -/
theorem inlined_eq_of_decode {byte : UInt8} {rest : List UInt8} {offset : Nat} {i : Instruction}
    (h : decode byte rest offset = .ok i) :
    ((byte :: rest).drop i.opcode.size).take i.inlined.length = i.inlined := by
  unfold decode at h
  split at h
  · cases h
  next op _ =>
    cases op <;> simp only [decodeOperands] at h
    case createBlock =>
      split at h
      · split_ifs at h with hshort
        cases h
        simp [opcode, Opcode.size, inlined, Nat.min_eq_left (Nat.le_of_not_lt hshort)]
      · cases h
    case pushSelf | returnTop | pop | duplicate =>
      cases h
      rfl
    all_goals
      split at h
      · cases h
        rfl
      · cases h

end Instruction

namespace Code

variable {code : Code} {pc : Nat} {i : Instruction}

theorem fetch?_eq_none : code.fetch? pc = none ↔ code.length ≤ pc := by
  rw [← List.drop_eq_nil_iff]
  unfold fetch?
  split <;> simp_all

/-- An instruction that stands in the code can be fetched. -/
theorem fetch?_append (before after : Code) (h : i.inlined.length < 0x100000000) :
    fetch? (before ++ i.encode ++ after) before.length = some (.ok i) := by
  simp [fetch?, Instruction.encode, Instruction.decode_encode i h]

/-- An instruction that can be fetched stands in the code as a whole. -/
theorem add_size_le_length (h : code.fetch? pc = some (.ok i)) : pc + i.size ≤ code.length := by
  unfold fetch? at h
  split at h
  · cases h
  next byte rest hdrop =>
    have hsize := Instruction.size_le_of_decode (Option.some.inj h)
    have hlength := congrArg List.length hdrop
    simp only [List.length_drop, List.length_cons] at hlength
    omega

theorem inlined_eq_of_fetch? (h : code.fetch? pc = some (.ok i)) :
    (code.drop (pc + i.opcode.size)).take i.inlined.length = i.inlined := by
  unfold fetch? at h
  split at h
  · cases h
  next byte rest hdrop =>
    rw [← List.drop_drop, hdrop]
    exact Instruction.inlined_eq_of_decode (Option.some.inj h)

/-- Reading instruction after instruction from `pc` gives these entries and ends
at `last`. -/
inductive Reads (code : Code) : Nat → List (Nat × Instruction) → Nat → Prop
  | done (pc : Nat) : Reads code pc [] pc
  | read {pc last : Nat} {i : Instruction} {entries : List (Nat × Instruction)} :
      code.fetch? pc = some (.ok i) → Reads code (pc + i.size) entries last →
      Reads code pc ((pc, i) :: entries) last

theorem Reads.last_le {entries : List (Nat × Instruction)} {last : Nat}
    (h : Reads code pc entries last) (hpc : pc ≤ code.length) : last ≤ code.length := by
  induction h with
  | done pc => exact hpc
  | read hfetch _ ih => exact ih (add_size_le_length hfetch)

theorem Reads.start {entries : List (Nat × Instruction)} {last : Nat}
    (h : Reads code pc entries last) : pc = last ∨ ∃ i, (pc, i) ∈ entries := by
  cases h with
  | done => exact .inl rfl
  | read => exact .inr ⟨_, List.mem_cons_self ..⟩

/-- Each entry can be fetched, and the next one follows it. -/
theorem Reads.entry {entries : List (Nat × Instruction)} {last start : Nat}
    (h : Reads code start entries last) (hmem : (pc, i) ∈ entries) :
    code.fetch? pc = some (.ok i) ∧
      (pc + i.size = last ∨ ∃ next, (pc + i.size, next) ∈ entries) := by
  induction h with
  | done => cases hmem
  | read hfetch hrest ih =>
    rcases List.mem_cons.mp hmem with heq | hmem
    · obtain ⟨rfl, rfl⟩ := Prod.mk.inj heq
      exact ⟨hfetch, hrest.start.imp_right (Exists.imp fun _ => List.mem_cons_of_mem _)⟩
    · obtain ⟨hfetch', hnext⟩ := ih hmem
      exact ⟨hfetch', hnext.imp_right (Exists.imp fun _ => List.mem_cons_of_mem _)⟩

theorem Reads.add_length_le {entries : List (Nat × Instruction)} {last : Nat}
    (h : Reads code pc entries last) : pc + entries.length ≤ last := by
  induction h with
  | done pc => exact Nat.le_refl _
  | @read pc last i entries _ _ ih =>
    have := i.size_pos
    rw [List.length_cons]
    omega

/-- Reading comes to an end, where there are no more bytes or a malformed instruction
stands. -/
theorem exists_reads (code : Code) (pc : Nat) :
    ∃ (entries : _) (last : Nat) (error : Option DecodeError), code.Reads pc entries last ∧
      code.fetch? last = error.map Except.error := by
  cases hfetch : code.fetch? pc with
  | none => exact ⟨[], pc, none, .done pc, hfetch⟩
  | some r =>
    cases r with
    | error e => exact ⟨[], pc, some e, .done pc, hfetch⟩
    | ok i =>
      obtain ⟨entries, last, error, hreads, hstop⟩ := exists_reads code (pc + i.size)
      exact ⟨(pc, i) :: entries, last, error, .read hfetch hreads, hstop⟩
termination_by code.length - pc
decreasing_by
  have := add_size_le_length hfetch
  have := i.size_pos
  omega

end Code

/-- A budget of one reading more than there are instructions finds them all and stays
where they end. -/
theorem Cursor.drain_of_reads {code : Code} {pc last fuel : Nat}
    {entries : List (Nat × Instruction)} {error : Option DecodeError}
    (h : code.Reads pc entries last) (hstop : code.fetch? last = error.map Except.error)
    (hfuel : entries.length < fuel) :
    drain fuel ⟨code, pc, none⟩ = (entries, ⟨code, last, error⟩) := by
  induction h generalizing fuel with
  | done pc =>
    cases fuel with
    | zero => cases hfuel
    | succ fuel => cases error <;> simp [drain, next, hstop]
  | read hfetch _ ih =>
    cases fuel with
    | zero => cases hfuel
    | succ fuel => simp [drain, next, hfetch, ih hstop (Nat.lt_of_succ_lt_succ hfuel)]

namespace Code

variable {code : Code} {pc : Nat} {i : Instruction}

theorem listing_of_reads {entries : List (Nat × Instruction)} {last : Nat}
    {error : Option DecodeError} (h : code.Reads 0 entries last)
    (hstop : code.fetch? last = error.map Except.error) :
    code.listing = (entries, ⟨code, last, error⟩) := by
  have hlength := h.add_length_le
  have hlast := h.last_le (Nat.zero_le _)
  exact Cursor.drain_of_reads h hstop (by omega)

theorem listing_reads (h : code.listing.2.error = none) :
    code.Reads 0 code.listing.1 code.length := by
  obtain ⟨entries, last, error, hreads, hstop⟩ := exists_reads code 0
  rw [listing_of_reads hreads hstop] at h ⊢
  obtain rfl : error = none := h
  obtain rfl : last = code.length :=
    Nat.le_antisymm (hreads.last_le (Nat.zero_le _)) (fetch?_eq_none.mp hstop)
  exact hreads

/-- The start of an instruction of the listing, or the end. -/
def Boundary (code : Code) (pc : Nat) : Prop :=
  pc = code.length ∨ ∃ i, (pc, i) ∈ code.listing.1

/-- Where code is well formed, at a boundary there is the end or an instruction, and
after it another boundary. -/
theorem Boundary.fetch? (hpc : code.Boundary pc) (h : code.listing.2.error = none) :
    code.fetch? pc = none ∨
      ∃ i, code.fetch? pc = some (.ok i) ∧ (pc, i) ∈ code.listing.1 ∧
        code.Boundary (pc + i.size) := by
  rcases hpc with rfl | ⟨i, hi⟩
  · exact .inl (fetch?_eq_none.mpr (Nat.le_refl _))
  · obtain ⟨hfetch, hnext⟩ := (listing_reads h).entry hi
    exact .inr ⟨i, hfetch, hi, hnext⟩

theorem boundary_zero (h : code.listing.2.error = none) : code.Boundary 0 := (listing_reads h).start

end Code

end ObjectMachine

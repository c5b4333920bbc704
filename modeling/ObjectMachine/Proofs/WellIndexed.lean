import ObjectMachine.Proofs.Reading
import Mathlib.Tactic.SplitIfs

/-!
# Well-indexed code

Code is well indexed for some literals and a number of temporaries when all of it
can be read and each instruction finds its literals, its temporaries and the
instruction it jumps to. A block body needs as much for the literals it takes and
for the temporaries around it.
-/

namespace ObjectMachine

/-- An instruction at `pc` stays within the literals, the first `limit` temporaries
and the code. The selector of a send is a literal with a name. -/
def Instruction.Indexed {α : Type} (named : α → Prop) (code : Code) (literals : Array α)
    (limit pc : Nat) : Instruction → Prop
  | pushLiteral index => index.toNat < literals.size
  | pushTemporary index | storeTemporary index => index.toNat < limit
  | send selector _ => ∃ l, literals[selector.toNat]? = some l ∧ named l
  | jump kind offset => ∃ (target : Nat) (i : Instruction),
      ((pc + (jump kind offset).size : Nat) + offset.toInt : Int) = target ∧
        (target, i) ∈ code.listing.1
  | createBlock _ count _ => count.toNat ≤ literals.size
  | _ => True

/-- All of the code can be read, and every instruction stays within its bounds. -/
inductive Code.WellIndexed {α : Type} (named : α → Prop) : Code → Array α → Nat → Prop
  | intro {code : Code} {literals : Array α} {limit : Nat} : code.listing.2.error = none →
      (∀ pc i, (pc, i) ∈ code.listing.1 → i.Indexed named code literals limit pc) →
      (∀ pc body count temporaries,
        (pc, .createBlock body count temporaries) ∈ code.listing.1 →
        WellIndexed named body (literals.take count.toNat) (max limit temporaries.toNat)) →
      WellIndexed named code literals limit

section

variable {α β : Type} {named : α → Prop} {named' : β → Prop} {code : Code} {literals : Array α}
  {limit : Nat}

theorem Instruction.Indexed.transfer {i : Instruction} {pc : Nat}
    (h : i.Indexed named code literals limit pc) {literals' : Array β}
    (hsize : literals'.size = literals.size)
    (hnamed : ∀ (k : Nat) l l', literals[k]? = some l → literals'[k]? = some l' → named l →
      named' l') : i.Indexed named' code literals' limit pc := by
  cases i with
  | pushLiteral index =>
    show index.toNat < literals'.size
    rw [hsize]
    exact h
  | send selector argc =>
    obtain ⟨l, hl, hname⟩ := h
    have hlt : selector.toNat < literals'.size := by
      rw [hsize]
      exact (Array.getElem?_eq_some_iff.mp hl).1
    have hl' := Array.getElem?_eq_getElem hlt
    exact ⟨_, hl', hnamed _ l _ hl hl' hname⟩
  | createBlock body count temporaries =>
    show count.toNat ≤ literals'.size
    rw [hsize]
    exact h
  | pushTemporary | storeTemporary | jump => exact h
  | _ => trivial

theorem getElem?_take {xs : Array α} {n k : Nat} {x : α} (h : (xs.take n)[k]? = some x) :
    xs[k]? = some x := by
  rw [Array.take_eq_extract, Array.getElem?_extract] at h
  split_ifs at h
  simpa using h

namespace Code.WellIndexed

theorem readable (h : code.WellIndexed named literals limit) : code.listing.2.error = none := by
  cases h with
  | intro hread => exact hread

theorem instruction (h : code.WellIndexed named literals limit) {pc : Nat} {i : Instruction}
    (hi : (pc, i) ∈ code.listing.1) : i.Indexed named code literals limit pc := by
  cases h with
  | intro _ hinstructions => exact hinstructions pc i hi

theorem block (h : code.WellIndexed named literals limit) {pc : Nat} {body : Code}
    {count temporaries : UInt32}
    (hi : (pc, .createBlock body count temporaries) ∈ code.listing.1) :
    body.WellIndexed named (literals.take count.toNat) (max limit temporaries.toNat) := by
  cases h with
  | intro _ _ hblocks => exact hblocks pc body count temporaries hi

/-- Literals may be exchanged for others as long as names stay names. -/
theorem transfer (h : code.WellIndexed named literals limit) {literals' : Array β}
    (hsize : literals'.size = literals.size)
    (hnamed : ∀ (k : Nat) l l', literals[k]? = some l → literals'[k]? = some l' → named l →
      named' l') : code.WellIndexed named' literals' limit := by
  induction h generalizing literals' with
  | intro hread hinstructions _ ih =>
    constructor
    · exact hread
    · intro pc i hi
      exact (hinstructions pc i hi).transfer hsize hnamed
    · intro pc body count temporaries hi
      apply ih pc body count temporaries hi
      · simp [hsize]
      · intro k l l' hl hl' hname
        exact hnamed k l l' (getElem?_take hl) (getElem?_take hl') hname

theorem map (h : code.WellIndexed named literals limit) (f : α → β)
    (hnamed : ∀ l ∈ literals, named l → named' (f l)) :
    code.WellIndexed named' (literals.map f) limit := by
  apply h.transfer (by simp)
  intro k l l' hl hl' hname
  rw [Array.getElem?_map, hl] at hl'
  obtain rfl : f l = l' := Option.some.inj hl'
  exact hnamed l (Array.mem_of_getElem? hl) hname

theorem nil (literals : Array α) (limit : Nat) : WellIndexed named [] literals limit := by
  have hlisting : Code.listing [] = ([], ⟨[], 0, none⟩) := rfl
  constructor
  · rw [hlisting]
  · rw [hlisting]
    exact fun _ _ hi => absurd hi List.not_mem_nil
  · rw [hlisting]
    exact fun _ _ _ _ hi => absurd hi List.not_mem_nil

theorem constant (literal : α) (limit : Nat) :
    WellIndexed named (Instruction.encode (.pushLiteral 0) ++ Instruction.encode .returnTop)
      #[literal] limit := by
  have hlisting : Code.listing (Instruction.encode (.pushLiteral 0) ++
      Instruction.encode .returnTop) = ([(0, .pushLiteral 0), (5, .returnTop)], ⟨_, 6, none⟩) := rfl
  constructor
  · rw [hlisting]
  · rw [hlisting]
    intro pc i hi
    rcases List.mem_cons.mp hi with heq | hi
    · cases heq
      exact Nat.zero_lt_one
    · cases List.mem_singleton.mp hi
      trivial
  · rw [hlisting]
    intro pc body count temporaries hi
    rcases List.mem_cons.mp hi with heq | hi
    · cases heq
    · cases List.mem_singleton.mp hi

end Code.WellIndexed

end

section

variable {α : Type} (named : α → Prop) [DecidablePred named] (code : Code) (literals : Array α)
  (limit : Nat)

instance (pc : Nat) : (i : Instruction) → Decidable (i.Indexed named code literals limit pc)
  | .pushLiteral index => inferInstanceAs (Decidable (index.toNat < literals.size))
  | .pushTemporary index | .storeTemporary index =>
    inferInstanceAs (Decidable (index.toNat < limit))
  | .send selector _ => decidable_of_iff ((literals[selector.toNat]?).any fun l => named l) <| by
      simp only [Option.any_eq_true, decide_eq_true_eq]
      exact Iff.rfl
  | .jump kind offset => decidable_of_iff (∃ e ∈ code.listing.1,
      ((pc + (Instruction.jump kind offset).size : Nat) + offset.toInt : Int) = e.1) <| by
      constructor
      · rintro ⟨⟨target, i⟩, hmem, heq⟩
        exact ⟨target, i, heq, hmem⟩
      · rintro ⟨target, i, heq, hmem⟩
        exact ⟨(target, i), hmem, heq⟩
  | .createBlock _ count _ => inferInstanceAs (Decidable (count.toNat ≤ literals.size))
  | .pushInstanceVariable _ | .pushSelf | .storeInstanceVariable _ | .returnTop | .pop
  | .duplicate | .executeBlock _ => isTrue trivial

/-- Whether code is well indexed, looking into blocks less than `depth` deep. -/
def Code.checkIndices : Nat → Code → Array α → Nat → Bool
  | 0, _, _, _ => false
  | depth + 1, code, literals, limit =>
    code.listing.2.error.isNone && code.listing.1.all fun (pc, i) =>
      decide (i.Indexed named code literals limit pc) &&
        match i with
        | .createBlock body count temporaries =>
          checkIndices depth body (literals.take count.toNat) (max limit temporaries.toNat)
        | _ => true

variable {named code literals limit}

/-- The body of a block is shorter than the code around it. -/
theorem Code.length_lt_of_createBlock {pc : Nat} {body : Code} {count temporaries : UInt32}
    (hread : code.listing.2.error = none)
    (hi : (pc, .createBlock body count temporaries) ∈ code.listing.1) :
    body.length < code.length := by
  obtain ⟨hfetch, -⟩ := (listing_reads hread).entry hi
  have hle := add_size_le_length hfetch
  have hpos := (Instruction.createBlock body count temporaries).opcode.size_pos
  have hsize : (Instruction.createBlock body count temporaries).size =
      (Instruction.createBlock body count temporaries).opcode.size + body.length := rfl
  omega

theorem Code.checkIndices_iff {depth : Nat} (h : code.length < depth) :
    checkIndices named depth code literals limit = true ↔
      code.WellIndexed named literals limit := by
  induction depth generalizing code literals limit with
  | zero => omega
  | succ depth ih =>
    have hbody : ∀ {pc : Nat} {body : Code} {count temporaries : UInt32},
        code.listing.2.error = none →
        (pc, .createBlock body count temporaries) ∈ code.listing.1 → body.length < depth := by
      intro pc body count temporaries hread hi
      have hlt := length_lt_of_createBlock hread hi
      omega
    rw [checkIndices, Bool.and_eq_true, Option.isNone_iff_eq_none, List.all_eq_true]
    constructor
    · rintro ⟨hread, hall⟩
      constructor
      · exact hread
      · intro pc i hi
        exact of_decide_eq_true (Bool.and_eq_true_iff.mp (hall (pc, i) hi)).1
      · intro pc body count temporaries hi
        exact (ih (hbody hread hi)).mp (Bool.and_eq_true_iff.mp (hall _ hi)).2
    · intro hcode
      refine ⟨hcode.readable, ?_⟩
      rintro ⟨pc, i⟩ hi
      apply Bool.and_eq_true_iff.mpr
      refine ⟨decide_eq_true (hcode.instruction hi), ?_⟩
      cases i with
      | createBlock body count temporaries =>
        exact (ih (hbody hcode.readable hi)).mpr (hcode.block hi)
      | _ => rfl

instance : Decidable (code.WellIndexed named literals limit) :=
  decidable_of_iff _ (Code.checkIndices_iff (Nat.lt_succ_self code.length))

/-- A jump into the middle of an instruction. -/
example : ¬Code.WellIndexed (fun _ : Nat => True)
    (Instruction.pushSelf.encode ++ (Instruction.jump .always (-3)).encode) #[] 0 := by decide

end

end ObjectMachine

import ObjectMachine.Proofs.Reading

/-!
# Height maps

A height map says for every offset in code how many operands there are when it is
reached. Each instruction finds the operands that it takes, and wherever it leads
the map says what is left of them and what it gives. Code is balanced when it has a
height map, and so has the body of every block that it makes.
-/

namespace ObjectMachine

namespace Instruction

/-- The operands that an instruction needs and uses up. -/
def takes : Instruction → Nat
  | storeInstanceVariable _ | storeTemporary _ | pop | duplicate => 1
  | jump kind _ => if kind = .always then 0 else 1
  | send _ argc | executeBlock argc => argc.toNat + 1
  | _ => 0

/-- The operands that are there in their place, once calls have answered. -/
def gives : Instruction → Nat
  | pushLiteral _ | pushInstanceVariable _ | pushTemporary _ | pushSelf | createBlock _ _ _ => 1
  | storeInstanceVariable _ | storeTemporary _ | send _ _ | executeBlock _ => 1
  | duplicate => 2
  | jump _ _ | pop | returnTop => 0

/-- Whether the instruction may lead to the one after it. -/
def fallsThrough : Instruction → Bool
  | jump kind _ => kind ≠ .always
  | returnTop => false
  | _ => true

/-- How far the instruction may jump. -/
def offset? : Instruction → Option Int32
  | jump _ offset => some offset
  | _ => none

/-- The instruction at `pc` fits the heights `h`. -/
structure Respects (code : Code) (h : Nat → Nat) (pc : Nat) (i : Instruction) : Prop where
  enough : i.takes ≤ h pc
  next : i.fallsThrough = true → h (pc + i.size) + i.takes = h pc + i.gives
  /-- It jumps to an instruction. -/
  target : ∀ offset ∈ i.offset?, ∃ e ∈ code.listing.1,
    ((pc + i.size : Nat) + offset.toInt : Int) = e.1 ∧ h e.1 + i.takes = h pc + i.gives

end Instruction

namespace Code

/-- All of the code can be read, and every instruction fits the heights `h`. -/
structure HeightMap (code : Code) (h : Nat → Nat) : Prop where
  readable : code.listing.2.error = none
  start : h 0 = 0
  respects : ∀ e ∈ code.listing.1, e.2.Respects code h e.1

/-- The code has a height map, and so have the bodies of its blocks. -/
inductive Balanced : Code → Prop
  | intro {code : Code} {h : Nat → Nat} : code.HeightMap h →
      (∀ pc body count temporaries, (pc, .createBlock body count temporaries) ∈ code.listing.1 →
        Balanced body) → Balanced code

variable {code : Code} {h : Nat → Nat}

-- an instruction has at most one offset, so there is one target to look for
theorem respects_iff {pc : Nat} {i : Instruction} : i.Respects code h pc ↔ i.takes ≤ h pc ∧
    (i.fallsThrough = true → h (pc + i.size) + i.takes = h pc + i.gives) ∧
    i.offset?.all (fun offset => ∃ e ∈ code.listing.1,
      ((pc + i.size : Nat) + offset.toInt : Int) = e.1 ∧ h e.1 + i.takes = h pc + i.gives) := by
  simp only [Option.all_eq_true, decide_eq_true_eq]
  constructor
  · exact fun hi => ⟨hi.enough, hi.next, hi.target⟩
  · exact fun hi => ⟨hi.1, hi.2.1, hi.2.2⟩

instance (pc : Nat) (i : Instruction) : Decidable (i.Respects code h pc) :=
  decidable_of_iff' _ respects_iff

instance : Decidable (code.HeightMap h) :=
  decidable_of_iff (code.listing.2.error = none ∧ h 0 = 0 ∧
      ∀ e ∈ code.listing.1, e.2.Respects code h e.1)
    ⟨fun hmap => ⟨hmap.1, hmap.2.1, hmap.2.2⟩,
      fun hmap => ⟨hmap.readable, hmap.start, hmap.respects⟩⟩

namespace Balanced

theorem exists_heightMap (hcode : code.Balanced) : ∃ h, code.HeightMap h := by
  cases hcode with
  | intro hmap => exact ⟨_, hmap⟩

theorem block (hcode : code.Balanced) {pc : Nat} {body : Code} {count temporaries : UInt32}
    (hi : (pc, .createBlock body count temporaries) ∈ code.listing.1) : body.Balanced := by
  cases hcode with
  | intro _ hblocks => exact hblocks pc body count temporaries hi

/-- The bodies of blocks are what code holds inside its instructions. -/
theorem of_inlined (hmap : code.HeightMap h)
    (hbodies : ∀ e ∈ code.listing.1, e.2.inlined.Balanced) : code.Balanced :=
  .intro hmap fun _ _ _ _ hi => hbodies _ hi

theorem nil : Balanced [] := by
  apply of_inlined (h := fun _ => 0)
  · decide
  · exact fun _ hi => absurd hi List.not_mem_nil

theorem of_plain (hmap : code.HeightMap h) (hplain : ∀ e ∈ code.listing.1, e.2.inlined = []) :
    code.Balanced := by
  apply of_inlined hmap
  intro e he
  rw [hplain e he]
  exact nil

theorem constant :
    Balanced (Instruction.encode (.pushLiteral 0) ++ Instruction.encode .returnTop) := by
  apply of_plain (h := fun pc => if pc = 0 then 0 else 1)
  · decide
  · decide

end Balanced

end Code

end ObjectMachine

import ObjectMachine.Proofs.Reading

/-!
# The layout of code

Instructions that are written down one after the other stand each at the offset
that the sizes of the earlier ones add up to, and reading the code lists them
there. A sketch keeps the instructions of an assembly as such, with the places of
its forward jumps; appending an instruction and binding a jump leave the offsets
of the instructions before them as they are.
-/

namespace ObjectMachine

/-- The bytes that instructions take. -/
def extent (is : List Instruction) : Nat := is.foldr (fun i bytes => i.size + bytes) 0

@[simp] theorem extent_cons (i : Instruction) (is : List Instruction) :
    extent (i :: is) = i.size + extent is := rfl

@[simp] theorem extent_append (is js : List Instruction) :
    extent (is ++ js) = extent is + extent js := by
  induction is with
  | nil => simp [extent]
  | cons i is ih =>
    rw [List.cons_append, extent_cons, extent_cons, ih]
    omega

theorem extent_congr {is js : List Instruction}
    (h : is.map Instruction.size = js.map Instruction.size) : extent is = extent js := by
  have hmap : ∀ is, extent is = (is.map Instruction.size).foldr (fun n bytes => n + bytes) 0 :=
    fun is => by simp [extent, List.foldr_map]
  rw [hmap, hmap, h]

theorem size_le_extent {is : List Instruction} {i : Instruction} (h : i ∈ is) :
    i.size ≤ extent is := by
  obtain ⟨before, after, rfl⟩ := List.append_of_mem h
  simp only [extent_append, extent_cons]
  omega

theorem extent_take_le (is : List Instruction) (n : Nat) : extent (is.take n) ≤ extent is := by
  have hsplit := congrArg extent (List.take_append_drop n is)
  rw [extent_append] at hsplit
  omega

theorem length_flatMap_encode (is : List Instruction) :
    (is.flatMap Instruction.encode).length = extent is := by
  induction is with
  | nil => rfl
  | cons i is ih => simp [ih, i.length_encode]

def layout : Nat → List Instruction → List (Nat × Instruction)
  | _, [] => []
  | start, i :: rest => (start, i) :: layout (start + i.size) rest

theorem getElem?_layout (start : Nat) (is : List Instruction) (n : Nat) :
    (layout start is)[n]? = (is[n]?).map fun i => (start + extent (is.take n), i) := by
  induction is generalizing start n with
  | nil => simp [layout]
  | cons i is ih =>
    cases n with
    | zero => simp [layout, extent]
    | succ n => simp [layout, ih, extent, Nat.add_assoc]

theorem length_layout (start : Nat) (is : List Instruction) :
    (layout start is).length = is.length := by
  induction is generalizing start with
  | nil => rfl
  | cons i is ih => simp [layout, ih]

theorem reads_layout (is : List Instruction) (h : ∀ i ∈ is, i.inlined.length < 0x100000000)
    (before : Code) :
    Code.Reads (before ++ is.flatMap Instruction.encode) before.length (layout before.length is)
      (before ++ is.flatMap Instruction.encode).length := by
  induction is generalizing before with
  | nil => simpa [layout] using Code.Reads.done before.length
  | cons i is ih =>
    have hrest := ih (fun j hj => h j (List.mem_cons_of_mem _ hj)) (before ++ i.encode)
    rw [List.length_append, i.length_encode] at hrest
    rw [List.flatMap_cons, ← List.append_assoc]
    exact .read (Code.fetch?_append before _ (h i (List.mem_cons_self ..))) hrest

theorem Instruction.size_jump (kind : JumpKind) (o : Int32) :
    (Instruction.jump kind o).size = Opcode.jump.size := by
  cases kind <;> rfl

/-- A jump with another offset. -/
def Instruction.aim (o : Int32) : Instruction → Instruction
  | jump kind _ => jump kind o
  | i => i

theorem Instruction.size_aim (o : Int32) (i : Instruction) : (i.aim o).size = i.size := by
  cases i with
  | jump kind _ => cases kind <;> rfl
  | _ => rfl

theorem Instruction.inlined_aim (o : Int32) (i : Instruction) :
    (i.aim o).inlined = i.inlined := by
  cases i <;> rfl

/-- The instructions of an assembly, and the places among them of the forward
jumps whose labels have been given out. -/
structure Sketch where
  instructions : Array Instruction
  jumps : Array Nat

namespace Sketch

def empty : Sketch := ⟨#[], #[]⟩

variable (t : Sketch)

def code : Code := t.instructions.toList.flatMap Instruction.encode

def offsetOf (n : Nat) : Nat := extent (t.instructions.toList.take n)

def offset : Nat := extent t.instructions.toList

def emit (i : Instruction) : Sketch := { t with instructions := t.instructions.push i }

def jumpForward (kind : JumpKind) : Sketch :=
  ⟨t.instructions.push (.jump kind 0), t.jumps.push t.instructions.size⟩

def bind (n : Nat) : Sketch :=
  let o := Int32.ofInt (t.offset - t.offsetOf (n + 1))
  { t with instructions := t.instructions.modify n (Instruction.aim o) }

theorem length_code : t.code.length = t.offset := length_flatMap_encode _

/-- The code lists the instructions, if the length of every body fits its word. -/
theorem listing_code_of_short
    (h : ∀ i ∈ t.instructions.toList, i.inlined.length < 0x100000000) :
    t.code.listing = (layout 0 t.instructions.toList, ⟨t.code, t.code.length, none⟩) := by
  have hreads : t.code.Reads 0 (layout 0 t.instructions.toList) t.code.length := by
    simpa [code] using reads_layout t.instructions.toList h []
  exact Code.listing_of_reads hreads (Code.fetch?_eq_none.mpr (Nat.le_refl _))

theorem listing_code (h : t.offset < 0x80000000) :
    t.code.listing = (layout 0 t.instructions.toList, ⟨t.code, t.code.length, none⟩) := by
  apply t.listing_code_of_short
  intro i hi
  have hsize : i.size ≤ t.offset := size_le_extent hi
  rw [Instruction.size] at hsize
  omega

theorem offsetOf_le_offset (n : Nat) : t.offsetOf n ≤ t.offset := extent_take_le ..

theorem offsetOf_size : t.offsetOf t.instructions.size = t.offset := by
  rw [offsetOf, ← Array.length_toList, List.take_length]
  rfl

theorem getElem?_listing (h : t.offset < 0x80000000) (n : Nat) :
    t.code.listing.1[n]? = (t.instructions[n]?).map fun i => (t.offsetOf n, i) := by
  rw [t.listing_code h, getElem?_layout, Array.getElem?_toList]
  simp [offsetOf]

@[simp] theorem instructions_emit (i : Instruction) :
    (t.emit i).instructions = t.instructions.push i := rfl

@[simp] theorem offset_emit (i : Instruction) : (t.emit i).offset = t.offset + i.size := by
  rw [offset, instructions_emit, Array.toList_push, extent_append]
  rfl

theorem getElem?_emit (i : Instruction) {n : Nat} {j : Instruction}
    (h : t.instructions[n]? = some j) : (t.emit i).instructions[n]? = some j := by
  have hlt := (Array.getElem?_eq_some_iff.mp h).1
  rw [instructions_emit, Array.getElem?_push, if_neg (by omega), h]

theorem offsetOf_emit (i : Instruction) {m : Nat} (h : m ≤ t.instructions.size) :
    (t.emit i).offsetOf m = t.offsetOf m := by
  simp [offsetOf, List.take_append_of_le_length, h]

theorem getElem?_bind_of_ne {n m : Nat} (h : n ≠ m) :
    (t.bind n).instructions[m]? = t.instructions[m]? := by
  simp [bind, Array.getElem?_modify, h]

/-- Binding changes the offset of the jump. -/
theorem getElem?_bind {n : Nat} {kind : JumpKind} {o : Int32}
    (h : t.instructions[n]? = some (.jump kind o)) :
    (t.bind n).instructions[n]? =
      some (.jump kind (Int32.ofInt (t.offset - t.offsetOf (n + 1)))) := by
  simp [bind, Array.getElem?_modify, h, Instruction.aim]

theorem size_bind (n : Nat) : (t.bind n).instructions.size = t.instructions.size := by
  simp [bind]

/-- What all instructions keep when a jump is aimed anew, binding keeps. -/
theorem map_bind {α : Type} {f : Instruction → α} (hf : ∀ o i, f (i.aim o) = f i) (n : Nat) :
    (t.bind n).instructions.toList.map f = t.instructions.toList.map f := by
  refine List.ext_getElem? fun m => ?_
  simp only [bind, Array.toList_modify, List.getElem?_map, List.getElem?_modify]
  cases t.instructions.toList[m]? with
  | none => simp
  | some i =>
    by_cases hn : n = m
    · simp [hn, hf]
    · simp [hn]

theorem offsetOf_bind (n m : Nat) : (t.bind n).offsetOf m = t.offsetOf m := by
  refine extent_congr ?_
  rw [List.map_take, List.map_take, map_bind t Instruction.size_aim]

@[simp] theorem offset_bind (n : Nat) : (t.bind n).offset = t.offset :=
  extent_congr (map_bind t Instruction.size_aim n)

end Sketch

end ObjectMachine

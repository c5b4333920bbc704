import ObjectMachine.Assembly
import ObjectMachine.Proofs.Layout

/-!
# Bytes that are written over

An assembly writes its code as it goes, and binding a label writes over four bytes
of it. Beside it stands a sketch of the instructions: the bytes are theirs, and each
label is that of one of the jumps. So the four bytes are the offset of that jump,
and no other instruction is touched or moved.
-/

namespace ObjectMachine

theorem Code.overwrite_append (before old bytes after : List UInt8)
    (h : old.length = bytes.length) :
    Code.overwrite (before ++ (old ++ after)) before.length bytes = before ++ (bytes ++ after) := by
  simp [Code.overwrite, ← h]

theorem Instruction.encode_jump (kind : JumpKind) (o : Int32) :
    (jump kind o).encode = kind.opcode.toByte :: bigEndian o.toUInt32 := rfl

/-- Writing over the four bytes after the opcode of a jump changes its offset and
nothing else. -/
theorem Code.overwrite_jump {is : List Instruction} {n : Nat} {kind : JumpKind} {o : Int32}
    (h : is[n]? = some (.jump kind o)) (o' : Int32) :
    Code.overwrite (is.flatMap Instruction.encode) (extent (is.take n) + 1)
      (bigEndian o'.toUInt32) = (is.modify n (Instruction.aim o')).flatMap Instruction.encode := by
  obtain ⟨hlt, hn⟩ := List.getElem?_eq_some_iff.mp h
  have hsplit : is = is.take n ++ .jump kind o :: is.drop (n + 1) := by
    rw [← hn, ← List.drop_eq_getElem_cons hlt, List.take_append_drop]
  rw [List.modify_eq_take_cons_drop hlt, hn, Instruction.aim]
  generalize is.take n = before, is.drop (n + 1) = after at hsplit
  subst hsplit
  have hplace : extent before + 1 =
      (before.flatMap Instruction.encode ++ [kind.opcode.toByte]).length := by
    rw [List.length_append, length_flatMap_encode, List.length_singleton]
  have hpatch := Code.overwrite_append (before.flatMap Instruction.encode ++ [kind.opcode.toByte])
    (bigEndian o.toUInt32) (bigEndian o'.toUInt32) (after.flatMap Instruction.encode) rfl
  rw [← hplace] at hpatch
  simpa [Instruction.encode_jump] using hpatch

/-- An assembly with the labels it has given out. -/
structure Assembler where
  assembly : Assembly
  labels : Array Label

namespace Sketch

/-- Every label is that of a jump of its own. -/
structure Labelled (t : Sketch) : Prop where
  jumps : ∀ k n : Nat, t.jumps[k]? = some n → ∃ kind o, t.instructions[n]? = some (.jump kind o)
  distinct : ∀ k k' n : Nat, t.jumps[k]? = some n → t.jumps[k']? = some n → k = k'

def label (t : Sketch) (n : Nat) : Label := ⟨t.offsetOf n + 1, t.offsetOf (n + 1)⟩

/-- The assembly has the bytes of the instructions and the labels of the jumps. -/
structure Depicts (t : Sketch) (s : Assembler) : Prop where
  code : s.assembly.code = t.code
  labels : s.labels = t.jumps.map t.label

variable {t : Sketch} {s : Assembler}

theorem labelled_empty : empty.Labelled := by
  constructor <;> simp [empty]

theorem empty_depicts : empty.Depicts ⟨.empty, #[]⟩ := ⟨rfl, by simp [empty]⟩

theorem Labelled.lt_size (h : t.Labelled) {k n : Nat} (hk : t.jumps[k]? = some n) :
    n < t.instructions.size := by
  obtain ⟨kind, o, hjump⟩ := h.jumps k n hk
  exact (Array.getElem?_eq_some_iff.mp hjump).1

/-- Labels stay what they are as long as no instruction moves. -/
theorem Labelled.map_label (h : t.Labelled) {t' : Sketch}
    (hoffset : ∀ m ≤ t.instructions.size, t'.offsetOf m = t.offsetOf m) :
    t.jumps.map t'.label = t.jumps.map t.label := by
  refine Array.map_congr_left fun n hn => ?_
  obtain ⟨k, hk⟩ := Array.mem_iff_getElem?.mp hn
  have hlt := h.lt_size hk
  rw [label, label, hoffset n (Nat.le_of_lt hlt), hoffset (n + 1) hlt]

theorem offsetOf_succ {n : Nat} {i : Instruction} (h : t.instructions[n]? = some i) :
    t.offsetOf (n + 1) = t.offsetOf n + i.size := by
  rw [← Array.getElem?_toList] at h
  rw [offsetOf, offsetOf, List.take_add_one, h, extent_append]
  rfl

namespace Depicts

theorem offset (h : t.Depicts s) : s.assembly.offset = t.offset := by
  rw [Assembly.offset, h.code, t.length_code]

theorem emit (h : t.Depicts s) (hlabelled : t.Labelled) (i : Instruction) :
    (t.emit i).Depicts { s with assembly := s.assembly.emit i } where
  code := by simp [Assembly.emit, Sketch.code, h.code]
  labels := h.labels.trans (hlabelled.map_label fun _ hm => t.offsetOf_emit i hm).symm

theorem jumpForward (h : t.Depicts s) (hlabelled : t.Labelled) (kind : JumpKind) :
    (t.jumpForward kind).Depicts
      ⟨(s.assembly.jumpForward kind).2, s.labels.push (s.assembly.jumpForward kind).1⟩ where
  code := (h.emit hlabelled (.jump kind 0)).code
  labels := by
    have hkept := (h.emit hlabelled (.jump kind 0)).labels
    have hplace : (t.emit (.jump kind 0)).offsetOf t.instructions.size = s.assembly.offset := by
      rw [t.offsetOf_emit _ (Nat.le_refl _), t.offsetOf_size, h.offset]
    have hbase := (t.emit (.jump kind 0)).offsetOf_succ (n := t.instructions.size)
      (i := .jump kind 0) (by simp)
    rw [Instruction.size_jump, hplace] at hbase
    have hnew : (t.emit (.jump kind 0)).label t.instructions.size =
        (s.assembly.jumpForward kind).1 := by
      rw [label, hplace, hbase]
      rfl
    rw [← hnew, hkept]
    exact (Array.map_push ..).symm

/-- Binding the label of a jump succeeds and aims that jump. -/
theorem bind (h : t.Depicts s) (hlabelled : t.Labelled) {k n : Nat}
    (hk : t.jumps[k]? = some n) :
    ∃ a, s.assembly.bind (t.label n) = .ok a ∧
      (t.bind n).Depicts { s with assembly := a } := by
  obtain ⟨kind, o, hjump⟩ := hlabelled.jumps k n hk
  have hbase := offsetOf_succ hjump
  have hle := t.offsetOf_le_offset (n + 1)
  rw [Instruction.size_jump] at hbase
  have hroom : ¬ s.assembly.offset < (t.label n).place + 4 := by
    have hfive : Opcode.jump.size = 5 := rfl
    rw [h.offset]
    change ¬ t.offset < t.offsetOf n + 1 + 4
    omega
  refine ⟨_, if_neg hroom, ?_, ?_⟩
  · rw [← Array.getElem?_toList] at hjump
    rw [Sketch.code, Sketch.bind, Array.toList_modify, ← Code.overwrite_jump hjump, ← h.offset]
    exact congrArg (Code.overwrite · _ _) h.code
  · exact h.labels.trans (hlabelled.map_label fun _ _ => t.offsetOf_bind n _).symm

-- The label has to be one of this assembly. That of a jump at offset one, in code of
-- another assembly, falls across two instructions here: the literal is no longer 7, and
-- the code ends in the middle of an instruction.
example :
    (((Assembly.empty.emit (.pushLiteral 7)).emit .pushSelf).emit .pushSelf).bind
      ((Assembly.empty.emit .pushSelf).jumpForward .always).1 = .ok ⟨[0, 0, 0, 0, 0, 1, 3]⟩ := rfl

end Depicts

end Sketch

end ObjectMachine

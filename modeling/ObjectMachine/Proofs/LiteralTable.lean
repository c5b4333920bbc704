import ObjectMachine.Draft
import Mathlib.Data.List.Forall2

/-!
# The literal table of a draft

Adding a literal, pushing one and sending a message all look for their literal in the
table and add it at the end if it is new. So each literal has one place, and the places
that have been given out keep their meaning.
-/

namespace ObjectMachine

namespace Draft

inductive Edit where
  | addLiteral (literal : Literal)
  | push (literal : Literal)
  | send (selector : String) (argc : UInt32)

namespace Edit

def literal : Edit → Literal
  | addLiteral literal | push literal => literal
  | send selector _ => .symbol selector

/-- What the edit appends when its literal has that place. -/
def emits : Edit → UInt32 → List Instruction
  | addLiteral _, _ => []
  | push _, place => [.pushLiteral place]
  | send _ argc, place => [.send place argc]

/-- Carry out an edit. The answer is the place of its literal. -/
def apply (b : Draft) : Edit → UInt32 × Draft
  | addLiteral literal => b.addLiteral literal
  | push literal => ((b.addLiteral literal).1, b.push literal)
  | send selector argc => ((b.addLiteral (.symbol selector)).1, b.send selector argc)

end Edit

def make (b : Draft) : List Edit → List UInt32 × Draft
  | [] => ([], b)
  | edit :: rest => ((edit.apply b).1 :: ((edit.apply b).2.make rest).1,
      ((edit.apply b).2.make rest).2)

/-- What edits do to a draft: each literal is at the place that was answered for it, if
words of 32 bits are enough for the table; no two places hold equal literals, the places
that were there before are unchanged, and no other literal joins them. -/
structure Tabulates (b : Draft) (edits : List Edit) (places : List UInt32) (b' : Draft) : Prop where
  held : b'.literals.size ≤ 0x100000000 →
    List.Forall₂ (fun edit place => b'.literals[place.toNat]? = some edit.literal) edits places
  apart : b'.literals.toList.Nodup
  kept : b.literals.toList <+: b'.literals.toList
  added : ∀ l ∈ b'.literals, l ∈ b.literals ∨ l ∈ edits.map Edit.literal
  code : b'.assembly.code = b.assembly.code ++
    (List.zipWith Edit.emits edits places).flatten.flatMap Instruction.encode
  rest : b' = { b with literals := b'.literals, assembly := b'.assembly }

variable {b : Draft}

/-- Adding a literal finds its place or makes one at the end. -/
theorem addLiteral_cases (literal : Literal) :
    (∃ place, b.literals[place]? = some literal ∧
        b.addLiteral literal = (UInt32.ofNat place, b)) ∨
      literal ∉ b.literals ∧ b.addLiteral literal =
        (UInt32.ofNat b.literals.size, { b with literals := b.literals.push literal }) := by
  unfold addLiteral
  rw [Array.idxOf?_eq_map_finIdxOf?_val]
  cases hplace : b.literals.finIdxOf? literal with
  | some place =>
    left
    refine ⟨place, ?_, rfl⟩
    rw [Array.getElem?_eq_getElem place.isLt]
    exact congrArg some (Array.finIdxOf?_eq_some_iff.mp hplace).1
  | none => exact .inr ⟨Array.finIdxOf?_eq_none_iff.mp hplace, rfl⟩

/-- A place in a table for which words are enough is read back from its word. -/
theorem getElem?_ofNat {literals : Array Literal} {place : Nat} {l : Literal}
    (h : literals[place]? = some l) (hsize : literals.size ≤ 0x100000000) :
    literals[(UInt32.ofNat place).toNat]? = some l := by
  have hlt := (Array.getElem?_eq_some_iff.mp h).1
  rwa [UInt32.toNat_ofNat_of_lt' (Nat.lt_of_lt_of_le hlt hsize)]

theorem addLiteral_tabulates (hb : b.literals.toList.Nodup) (literal : Literal) :
    Tabulates b [.addLiteral literal] [(b.addLiteral literal).1] (b.addLiteral literal).2 := by
  rcases b.addLiteral_cases literal with ⟨place, hplace, heq⟩ | ⟨hnew, heq⟩
  · rw [heq]
    exact ⟨fun hsize => .cons (getElem?_ofNat hplace hsize) .nil, hb, List.prefix_rfl,
      fun _ => .inl, by simp [Edit.emits], rfl⟩
  · rw [heq]
    refine ⟨fun hsize => .cons (getElem?_ofNat ?_ hsize) .nil, ?_, by simp, fun l hl => ?_,
      by simp [Edit.emits], rfl⟩
    · rw [Array.getElem?_push_size]
      rfl
    · rw [Array.toList_push]
      refine List.nodup_append.mpr ⟨hb, by simp, fun x hx y hy => ?_⟩
      rintro rfl
      exact hnew (List.mem_singleton.mp hy ▸ Array.mem_toList_iff.mp hx)
    · rcases Array.mem_push.mp hl with hl | rfl
      · exact .inl hl
      · exact .inr (List.mem_singleton.mpr rfl)

/-- Pushing and sending add their literal and append one instruction. -/
theorem apply_tabulates (hb : b.literals.toList.Nodup) (edit : Edit) :
    Tabulates b [edit] [(edit.apply b).1] (edit.apply b).2 := by
  have hadd := addLiteral_tabulates hb edit.literal
  have hcode : (b.addLiteral edit.literal).2.assembly.code = b.assembly.code := by
    simpa [Edit.emits] using hadd.code
  cases edit with
  | addLiteral literal => exact hadd
  | push literal =>
    rw [Edit.literal] at hcode
    refine ⟨fun hsize => ?_, hadd.apart, hadd.kept, hadd.added, ?_, ?_⟩
    · exact .cons (List.forall₂_cons.mp (hadd.held hsize)).1 .nil
    · simp [Edit.apply, push, emit, Assembly.emit, Edit.emits, hcode]
    · exact congrArg (emit · _) hadd.rest
  | send selector argc =>
    rw [Edit.literal] at hcode
    refine ⟨fun hsize => ?_, hadd.apart, hadd.kept, hadd.added, ?_, ?_⟩
    · exact .cons (List.forall₂_cons.mp (hadd.held hsize)).1 .nil
    · simp [Edit.apply, send, emit, Assembly.emit, Edit.emits, hcode]
    · exact congrArg (emit · _) hadd.rest

theorem getElem?_of_kept {xs ys : Array Literal} (h : xs.toList <+: ys.toList) {i : Nat}
    {l : Literal} (hl : xs[i]? = some l) : ys[i]? = some l := by
  obtain ⟨zs, hzs⟩ := h
  rw [← Array.getElem?_toList] at hl ⊢
  rw [← hzs, List.getElem?_append_left (List.getElem?_eq_some_iff.mp hl).1, hl]

theorem make_tabulates (hb : b.literals.toList.Nodup) (edits : List Edit) :
    Tabulates b edits (b.make edits).1 (b.make edits).2 := by
  induction edits generalizing b with
  | nil => exact ⟨fun _ => .nil, hb, List.prefix_rfl, fun _ => .inl, by simp [make], rfl⟩
  | cons edit rest ih =>
    have hedit := apply_tabulates hb edit
    have hrest := ih hedit.apart
    refine ⟨fun hsize => ?_, hrest.apart, hedit.kept.trans hrest.kept, fun l hl => ?_, ?_, ?_⟩
    · have hsize' : (edit.apply b).2.literals.size ≤ 0x100000000 :=
        Nat.le_trans hrest.kept.length_le hsize
      obtain ⟨hheld, -⟩ := List.forall₂_cons.mp (hedit.held hsize')
      exact .cons (getElem?_of_kept hrest.kept hheld) (hrest.held hsize)
    · rcases hrest.added l hl with hl | hl
      · refine (hedit.added l hl).imp_right fun hl => ?_
        exact List.mem_cons.mpr (.inl (List.mem_singleton.mp hl))
      · exact .inr (List.mem_cons_of_mem _ hl)
    · rw [make, hrest.code, hedit.code]
      simp
    · rw [make, hrest.rest, hedit.rest]

end Draft

end ObjectMachine

import ObjectMachine.Fault

/-!
# Assembling code

An assembly is code to which instructions are appended. A forward jump is
appended with offset zero and answers a label; binding the label writes the
distance from the jump to the end of the code over that offset.
-/

namespace ObjectMachine

/-- Write `bytes` over those that stand from `place` on. -/
def Code.overwrite (code : Code) (place : Nat) (bytes : List UInt8) : Code :=
  code.take place ++ bytes ++ code.drop (place + bytes.length)

structure Assembly where
  code : Code

/-- A forward jump: where the four bytes of its offset stand, and where the jump
ends. -/
structure Label where
  place : Nat
  base : Nat

namespace Assembly

def empty : Assembly := ⟨[]⟩

instance : Inhabited Assembly := ⟨empty⟩

variable (a : Assembly)

/-- Where the next instruction will start. -/
def offset : Nat := a.code.length

def emit (i : Instruction) : Assembly := ⟨a.code ++ i.encode⟩

/-- Append a jump whose target is not known yet. -/
def jumpForward (kind : JumpKind) : Label × Assembly :=
  (⟨a.offset + 1, a.offset + Opcode.jump.size⟩, a.emit (.jump kind 0))

/-- Make a forward jump land here. Whatever stands at the place of the label is
overwritten. -/
def bind (label : Label) : Except Fault Assembly :=
  let distance : Int := a.offset - label.base
  if a.offset < label.place + 4 then
    .error (.outsideBuffer (label.place + 4) a.offset)
  else
    .ok ⟨a.code.overwrite label.place (bigEndian (Int32.ofInt distance).toUInt32)⟩

/-- The offset of a jump that starts at `here` and goes to `target`. Both its end
and the target are taken as signed words of 32 bits, and so must be their distance. -/
def distanceBack (here target : Nat) : Except Fault Int32 :=
  let base : Int := (Int32.ofNat (here + Opcode.jump.size)).toInt
  let distance := (Int32.ofNat target).toInt - base
  if distance < Int32.minValue.toInt ∨ Int32.maxValue.toInt < distance then
    .error .subtractionOverflow
  else
    .ok (Int32.ofInt distance)

def jumpBack (target : Nat) : Except Fault Assembly :=
  (distanceBack a.offset target).map fun o => a.emit (.jump .always o)

end Assembly

end ObjectMachine

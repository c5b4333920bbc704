import ObjectMachine.Opcode

/-!
# Instructions and their bytes

An instruction is an opcode with its operands, all big-endian words of four
bytes. A block instruction carries the bytes of its body. `Instruction.encode`
writes an instruction down and `Instruction.decode` reads one from the front of
a byte list.
-/

namespace ObjectMachine

/-- Byte code of a method or a block body. -/
abbrev Code := List UInt8

/-- A hexadecimal number filled with zeros to `width`. -/
def hexDigits (width : Nat) (n : Nat) : String :=
  let ds := Nat.toDigits 16 n
  String.ofList (List.replicate (width - ds.length) '0' ++ ds)

def zeroPadded (width : Nat) (n : Nat) : String :=
  let ds := Nat.toDigits 10 n
  String.ofList (List.replicate (width - ds.length) '0' ++ ds)

/-- Four bytes, most significant first. -/
def bigEndian (n : UInt32) : List UInt8 :=
  [(n >>> 24).toUInt8, (n >>> 16).toUInt8, (n >>> 8).toUInt8, n.toUInt8]

/-- The number that four bytes write, most significant first. -/
def ofBigEndian (a b c d : UInt8) : UInt32 :=
  a.toUInt32 <<< 24 ||| b.toUInt32 <<< 16 ||| c.toUInt32 <<< 8 ||| d.toUInt32

inductive JumpKind where
  | always | ifTrue | ifFalse
deriving DecidableEq, Repr

def JumpKind.opcode : JumpKind → Opcode
  | always => .jump
  | ifTrue => .jumpIfTrue
  | ifFalse => .jumpIfFalse

inductive Instruction where
  | pushLiteral (index : UInt32)
  | pushInstanceVariable (index : UInt32)
  | pushTemporary (index : UInt32)
  | pushSelf
  | storeInstanceVariable (index : UInt32)
  | storeTemporary (index : UInt32)
  | send (selector argc : UInt32)
  | returnTop
  | jump (kind : JumpKind) (offset : Int32)
  | pop
  | duplicate
  | createBlock (body : Code) (literals temporaries : UInt32)
  | executeBlock (argc : UInt32)
deriving DecidableEq, Repr

inductive DecodeError where
  | unknownOpcode (byte : UInt8) (offset : Nat)
  | truncated (op : Opcode) (offset needed available : Nat)
deriving DecidableEq, Repr

def DecodeError.message : DecodeError → String
  | unknownOpcode byte offset => s!"unknown opcode 0x{hexDigits 2 byte.toNat} at offset {offset}"
  | truncated op offset needed available =>
    s!"truncated {op.title} at offset {offset}: need {needed} bytes, have {available}"

namespace Instruction

def opcode : Instruction → Opcode
  | pushLiteral _ => .pushLiteral
  | pushInstanceVariable _ => .pushInstanceVariable
  | pushTemporary _ => .pushTemporary
  | pushSelf => .pushSelf
  | storeInstanceVariable _ => .storeInstanceVariable
  | storeTemporary _ => .storeTemporary
  | send _ _ => .send
  | returnTop => .returnTop
  | jump kind _ => kind.opcode
  | pop => .pop
  | duplicate => .duplicate
  | createBlock _ _ _ => .createBlock
  | executeBlock _ => .executeBlock

/-- The code that an instruction carries: the body of a block. -/
def inlined : Instruction → Code
  | createBlock body _ _ => body
  | _ => []

/-- Bytes taken, with the body of a block. -/
def size (i : Instruction) : Nat := i.opcode.size + i.inlined.length

theorem size_pos (i : Instruction) : 0 < i.size :=
  Nat.lt_of_lt_of_le i.opcode.size_pos (Nat.le_add_right _ _)

def operands : Instruction → List UInt8
  | pushLiteral n | pushInstanceVariable n | pushTemporary n
  | storeInstanceVariable n | storeTemporary n | executeBlock n => bigEndian n
  | send selector argc => bigEndian selector ++ bigEndian argc
  | jump _ offset => bigEndian offset.toUInt32
  | createBlock body literals temporaries =>
    bigEndian (UInt32.ofNat body.length) ++ bigEndian literals ++ bigEndian temporaries ++ body
  | pushSelf | returnTop | pop | duplicate => []

def encode (i : Instruction) : List UInt8 := i.opcode.toByte :: i.operands

theorem length_encode (i : Instruction) : i.encode.length = i.size := by
  cases i with
  | jump kind offset => cases kind <;> rfl
  | createBlock body literals temporaries =>
    simp [encode, operands, size, inlined, opcode, Opcode.size, bigEndian]
    omega
  | _ => rfl

/-- Read the operands of `op` from the bytes after it; `offset` is where the
instruction starts. -/
def decodeOperands (op : Opcode) (offset : Nat) (rest : List UInt8) :
    Except DecodeError Instruction :=
  let available := rest.length + 1
  let word (make : UInt32 → Instruction) : Except DecodeError Instruction :=
    match rest with
    | a :: b :: c :: d :: _ => .ok (make (ofBigEndian a b c d))
    | _ => .error (.truncated op offset op.size available)
  match op with
  | .pushSelf => .ok pushSelf
  | .returnTop => .ok returnTop
  | .pop => .ok pop
  | .duplicate => .ok duplicate
  | .pushLiteral => word pushLiteral
  | .pushInstanceVariable => word pushInstanceVariable
  | .pushTemporary => word pushTemporary
  | .storeInstanceVariable => word storeInstanceVariable
  | .storeTemporary => word storeTemporary
  | .executeBlock => word executeBlock
  | .jump => word fun n => jump .always n.toInt32
  | .jumpIfTrue => word fun n => jump .ifTrue n.toInt32
  | .jumpIfFalse => word fun n => jump .ifFalse n.toInt32
  | .send =>
    match rest with
    | a :: b :: c :: d :: e :: f :: g :: h :: _ =>
      .ok (send (ofBigEndian a b c d) (ofBigEndian e f g h))
    | _ => .error (.truncated op offset op.size available)
  | .createBlock =>
    match rest with
    | a :: b :: c :: d :: e :: f :: g :: h :: i :: j :: k :: l :: tail =>
      let length := (ofBigEndian a b c d).toNat
      if tail.length < length then
        .error (.truncated op offset (op.size + length) available)
      else
        .ok (createBlock (tail.take length) (ofBigEndian e f g h) (ofBigEndian i j k l))
    | _ => .error (.truncated op offset op.size available)

/-- Read the instruction that starts with `byte` at `offset` and goes on in
`rest`. -/
def decode (byte : UInt8) (rest : List UInt8) (offset : Nat) : Except DecodeError Instruction :=
  match Opcode.ofByte? byte with
  | none => .error (.unknownOpcode byte offset)
  | some op => decodeOperands op offset rest

/-- A number with its sign, zero counting as positive. -/
def signed (n : Int) : String := if n < 0 then toString n else s!"+{n}"

/-- One line of a listing. -/
def text (i : Instruction) : String :=
  let name := i.opcode.mnemonic
  match i with
  | pushLiteral n | pushInstanceVariable n | pushTemporary n
  | storeInstanceVariable n | storeTemporary n => s!"{name} {n}"
  | send selector argc => s!"{name} #{selector} argc={argc}"
  | jump _ offset => s!"{name} {signed offset.toInt}"
  | createBlock body literals temporaries =>
    s!"{name} size={body.length} literals={literals} temps={temporaries}"
  | executeBlock argc => s!"{name} argc={argc}"
  | pushSelf | returnTop | pop | duplicate => name

end Instruction

/-- The instruction at offset `pc`; `none` past the end. -/
def Code.fetch? (code : Code) (pc : Nat) : Option (Except DecodeError Instruction) :=
  match code.drop pc with
  | [] => none
  | byte :: rest => some (Instruction.decode byte rest pc)

/-- A reading position in code. It stays where the first malformed instruction
starts. -/
structure Cursor where
  code : Code
  offset : Nat
  error : Option DecodeError

namespace Cursor

def start (code : Code) : Cursor := ⟨code, 0, none⟩

def atEnd (c : Cursor) : Bool := c.code.length ≤ c.offset

def next (c : Cursor) : Option (Nat × Instruction) × Cursor :=
  match c.error with
  | some _ => (none, c)
  | none =>
    match c.code.fetch? c.offset with
    | none => (none, c)
    | some (.error e) => (none, { c with error := some e })
    | some (.ok i) => (some (c.offset, i), { c with offset := c.offset + i.size })

def drain : Nat → Cursor → List (Nat × Instruction) × Cursor
  | 0, c => ([], c)
  | fuel + 1, c =>
    match c.next with
    | (none, c) => ([], c)
    | (some entry, c) =>
      let (entries, last) := drain fuel c
      (entry :: entries, last)

end Cursor

/-- All instructions with their offsets, and where reading stopped. Every
instruction takes a byte, so one reading more than there are bytes is enough. -/
def Code.listing (code : Code) : List (Nat × Instruction) × Cursor :=
  (Cursor.start code).drain (code.length + 1)

end ObjectMachine

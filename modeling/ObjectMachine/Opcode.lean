/-!
# Operations of the byte code
-/

namespace ObjectMachine

inductive Opcode where
  | pushLiteral | pushInstanceVariable | pushTemporary | pushSelf
  | storeInstanceVariable | storeTemporary
  | send | returnTop
  | jump | jumpIfTrue | jumpIfFalse
  | pop | duplicate
  | createBlock | executeBlock
deriving DecidableEq, Repr

namespace Opcode

def all : List Opcode :=
  [pushLiteral, pushInstanceVariable, pushTemporary, pushSelf, storeInstanceVariable,
    storeTemporary, send, returnTop, jump, jumpIfTrue, jumpIfFalse, pop, duplicate,
    createBlock, executeBlock]

def toByte : Opcode → UInt8
  | pushLiteral => 0
  | pushInstanceVariable => 1
  | pushTemporary => 2
  | pushSelf => 3
  | storeInstanceVariable => 4
  | storeTemporary => 5
  | send => 6
  | returnTop => 7
  | jump => 8
  | jumpIfTrue => 9
  | jumpIfFalse => 10
  | pop => 11
  | duplicate => 12
  | createBlock => 13
  | executeBlock => 14

def ofByte? : UInt8 → Option Opcode
  | 0 => some pushLiteral
  | 1 => some pushInstanceVariable
  | 2 => some pushTemporary
  | 3 => some pushSelf
  | 4 => some storeInstanceVariable
  | 5 => some storeTemporary
  | 6 => some send
  | 7 => some returnTop
  | 8 => some jump
  | 9 => some jumpIfTrue
  | 10 => some jumpIfFalse
  | 11 => some pop
  | 12 => some duplicate
  | 13 => some createBlock
  | 14 => some executeBlock
  | _ => none

@[simp] theorem ofByte?_toByte (op : Opcode) : ofByte? op.toByte = some op := by
  cases op <;> rfl

/-- Bytes of an instruction, an inlined block body apart. -/
def size : Opcode → Nat
  | pushSelf | returnTop | pop | duplicate => 1
  | send => 9
  | createBlock => 13
  | _ => 5

theorem size_pos (op : Opcode) : 0 < op.size := by
  cases op <;> decide

def isJump : Opcode → Bool
  | jump | jumpIfTrue | jumpIfFalse => true
  | _ => false

/-- The name in listings. -/
def mnemonic : Opcode → String
  | pushLiteral => "PUSH_LITERAL"
  | pushInstanceVariable => "PUSH_INSTANCE_VARIABLE"
  | pushTemporary => "PUSH_TEMPORARY_VARIABLE"
  | pushSelf => "PUSH_SELF"
  | storeInstanceVariable => "STORE_INSTANCE_VARIABLE"
  | storeTemporary => "STORE_TEMPORARY_VARIABLE"
  | send => "SEND_MESSAGE"
  | returnTop => "RETURN_STACK_TOP"
  | jump => "JUMP"
  | jumpIfTrue => "JUMP_IF_TRUE"
  | jumpIfFalse => "JUMP_IF_FALSE"
  | pop => "POP"
  | duplicate => "DUPLICATE"
  | createBlock => "CREATE_BLOCK"
  | executeBlock => "EXECUTE_BLOCK"

/-- The name in messages about malformed code. -/
def title : Opcode → String
  | pushLiteral => "PushLiteral"
  | pushInstanceVariable => "PushInstanceVariable"
  | pushTemporary => "PushTemporaryVariable"
  | pushSelf => "PushSelf"
  | storeInstanceVariable => "StoreInstanceVariable"
  | storeTemporary => "StoreTemporaryVariable"
  | send => "SendMessage"
  | returnTop => "ReturnStackTop"
  | jump => "Jump"
  | jumpIfTrue => "JumpIfTrue"
  | jumpIfFalse => "JumpIfFalse"
  | pop => "Pop"
  | duplicate => "Duplicate"
  | createBlock => "CreateBlock"
  | executeBlock => "ExecuteBlock"

end Opcode

end ObjectMachine

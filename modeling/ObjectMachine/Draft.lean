import ObjectMachine.Assembly
import ObjectMachine.Construction

/-!
# Method drafts

A draft gathers the literals and the instructions of a method before anything
is allocated. Equal literals share a place. Building a draft allocates its
symbols and strings and then the method.
-/

namespace ObjectMachine

inductive Literal where
  | value (v : Value)
  | symbol (name : String)
  /-- A fresh string for every build. -/
  | string (s : String)
deriving DecidableEq

/-- What a literal holds before it is allocated. -/
def Literal.placeholder : Literal → Value
  | value v => v
  | _ => .nil

structure Draft where
  owner : Value
  selector : String
  literals : Array Literal
  temporaries : List String
  primitive : Option Nat
  assembly : Assembly

namespace Draft

def new (owner : Value) (selector : String) : Draft :=
  ⟨owner, selector, #[], [], none, .empty⟩

variable (d : Draft)

/-- The place of a literal, which is added if it is new. Places are words of 32 bits. -/
def addLiteral (literal : Literal) : UInt32 × Draft :=
  match d.literals.idxOf? literal with
  | some i => (UInt32.ofNat i, d)
  | none => (UInt32.ofNat d.literals.size, { d with literals := d.literals.push literal })

def emit (i : Instruction) : Draft := { d with assembly := d.assembly.emit i }

def push (literal : Literal) : Draft :=
  let (i, d) := d.addLiteral literal
  d.emit (.pushLiteral i)

def send (selector : String) (argc : UInt32) : Draft :=
  let (i, d) := d.addLiteral (.symbol selector)
  d.emit (.send i argc)

def jumpForward (kind : JumpKind) : Label × Draft :=
  let (label, assembly) := d.assembly.jumpForward kind
  (label, { d with assembly })

def bind (label : Label) : Except Fault Draft :=
  (d.assembly.bind label).map fun assembly => { d with assembly }

/-- Allocate the literals that need it and put them on the scratch stack, from
`place` on. -/
def fill : List Literal → Nat → Action Unit
  | [], _ => return
  | literal :: rest, place => do
    match literal with
    | .value _ => pure ()
    | .symbol name =>
      let v ← intern name
      modify fun m => { m with scratch := m.scratch.set! place v }
    | .string s =>
      let v ← newString s
      modify fun m => { m with scratch := m.scratch.set! place v }
    fill rest (place + 1)

/-- Allocate the method. Its class and literals wait on the scratch stack, which
is left as it was. -/
def build : Action Value := do
  let mark := (← get).scratch.size
  modify fun m =>
    { m with scratch := m.scratch.push d.owner ++ d.literals.map Literal.placeholder }
  fill d.literals.toList (mark + 1)
  let selector ← intern d.selector
  let m ← get
  let v ← newMethod
    { selector
      code := d.assembly.code
      literals := m.scratch.extract (mark + 1) m.scratch.size
      temporaries := d.temporaries
      owner := m.scratch[mark]?.getD .nil
      primitive := d.primitive }
  modify fun m => { m with scratch := m.scratch.take mark }
  return v

def install : Action Value := do
  let v ← d.build
  let m ← get
  match ← Action.ofExcept (m.body v) with
  | .method c =>
    defineMethod c.owner d.selector v
    record (.installed (m.className c.owner) d.selector)
    return v
  | other => Action.fail (.notCode other.kind)

end Draft

end ObjectMachine

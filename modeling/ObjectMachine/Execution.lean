import ObjectMachine.Draft
import ObjectMachine.Primitive

/-!
# Running code

`step` carries out one instruction of the active context. A send or a block
call makes a new context active; when it ends, its answer is pushed on the
context that called it. `run` repeats steps until the machine is back at the
depth it started from, for at most a given number of steps. A runtime error
ends every context above that depth.
-/

namespace ObjectMachine

namespace Memory

/-- The context in which temporary `index` is found: `id` itself or the nearest
outer one with that many temporaries, looking at no more than `fuel`. -/
def homeFrom (mem : Memory) (index : Nat) : Nat → ContextId → Option ContextId
  | 0, _ => none
  | fuel + 1, id =>
    match mem.contexts[id]? with
    | none => none
    | some c =>
      if index < c.temporaries.size then some id
      else
        match c.outer with
        | none => none
        | some outer => homeFrom mem index fuel outer

/-- The home of a temporary. A chain of outer contexts is no longer than the
list of all contexts. -/
def home? (mem : Memory) (id : ContextId) (index : Nat) : Option ContextId :=
  mem.homeFrom index mem.contexts.size id

def temporary? (mem : Memory) (id : ContextId) (index : Nat) : Option Value := do
  let home ← mem.home? id index
  let c ← mem.contexts[home]?
  c.temporaries[index]?

def setTemporary (mem : Memory) (home : ContextId) (index : Nat) (v : Value) : Memory :=
  mem.modifyContext home fun c => { c with temporaries := c.temporaries.set! index v }

/-- The slots of an ordinary object; none for any other value. -/
def slots (mem : Memory) (v : Value) : Array Value :=
  match mem.body? v with
  | some (.slots values) => values
  | _ => #[]

end Memory

namespace Machine

variable (m : Machine)

def program (v : Value) : Except Fault (Code × Array Value) := do
  match ← m.body v with
  | .method c => return (c.code, c.literals)
  | .block b => return (b.code, b.literals)
  | other => .error (.notCode other.kind)

def leave : Machine :=
  match m.active with
  | none => m
  | some id =>
    let sender := (m.memory.contexts[id]?).bind Context.sender
    { m with
      memory := m.memory.modifyContext id fun c => { c with sender := none }
      active := sender
      depth := m.depth - 1 }

def unwind (base : Nat) : Machine := Nat.repeat leave (m.depth - base) m

end Machine

namespace Action

/-- The active context, which code that runs always has. -/
def activeId : Action ContextId := do
  match (← get).active with
  | some id => return id
  | none => fail .noActivation

def modifyActive (f : Context → Context) : Action Unit :=
  modify fun m =>
    match m.active with
    | some id => { m with memory := m.memory.modifyContext id f }
    | none => m

def active : Action Context := do
  let id ← activeId
  match (← get).memory.contexts[id]? with
  | some c => return c
  | none => fail .noActivation

def push (v : Value) : Action Unit := modifyActive fun c => c.push v

def top : Action Value := do ofExcept (← active).top

def pop : Action Value := do
  let v ← top
  modifyActive fun c => { c with stack := c.stack.pop }
  return v

def popMany (count : Nat) : Action (Array Value) := do
  let (vs, _) ← ofExcept ((← active).popMany count)
  modifyActive fun c => { c with stack := c.stack.take (c.stack.size - count) }
  return vs

end Action

open ObjectMachine.Action

/-- Make a new context active, called by the one that is. -/
def enter (method receiver : Value) (args : Array Value) (temporaryCount : Nat)
    (outer : Option ContextId) : Action Unit := do
  let m ← get
  if m.maxDepth ≤ m.depth then raise (.depthExceeded m.maxDepth)
  modify fun m =>
    let id := m.memory.contexts.size
    let c := Context.new method receiver args temporaryCount m.active outer
    { m with memory := m.memory.addContext c, active := some id, depth := m.depth + 1 }

def enterMethod (method receiver : Value) (args : Array Value) : Action Unit := do
  match (← get).memory.body? method with
  | some (.method c) => enter method receiver args c.temporaries.length none
  | _ => raise (.type .method method)

/-- The block is the receiver of its own context. -/
def enterBlock (block : Value) (args : Array Value) : Action Unit := do
  match (← get).memory.body? block with
  | some (.block b) => enter block block args b.temporaryCount b.outer
  | _ => raise (.type .block block)

inductive Reply where
  | declined
  | answered (v : Value)
  /-- A block has become active and will answer. -/
  | entered

def perform : Effect → Action Reply
  | .decline => return .declined
  | .answer v => return .answered v
  | .putElement target place v => do
    modify fun m =>
      { m with memory := m.memory.modifyBody target fun
        | .array elements => .array (elements.set! place v)
        | body => body }
    return .answered v
  | .putByte target place byte v => do
    modify fun m =>
      { m with memory := m.memory.modifyBody target fun
        | .bytes bytes => .bytes (bytes.set! place byte)
        | body => body }
    return .answered v
  | .create o => return .answered (← allocate o)
  | .call block args => do
    enterBlock block args
    return .entered

def tryPrimitive (index : Nat) (receiver : Value) (args : Array Value) : Action Reply := do
  match Primitive.row? index with
  | none => fail (.unknownPrimitive index)
  | some row => perform (← ofExcept (row.primitive.effect (← get) receiver args.toList))

/-- The class that a send starts from and the method it finds there. -/
def Machine.resolve (m : Machine) (receiver : Value) (selector : String) :
    Except Fault (Value × Option Value) := do
  let classRef ← m.classOf receiver
  return (classRef, ← m.lookup classRef selector)

/-- The method object under a dictionary entry. -/
def Machine.entry (m : Machine) (selector : String) (v : Value) : Except Fault Method := do
  match ← m.body v with
  | .method c => return c
  | other => .error (.entryNotMethod selector other.kind)

/-- Send a message. `some` is an answer given at once by a primitive; otherwise
a context has become active. -/
def startSend (receiver : Value) (selector : String) (args : Array Value) :
    Action (Option Value) := do
  let (classRef, found) ← ofExcept ((← get).resolve receiver selector)
  let className := (← get).className classRef
  match found with
  | none => raise (.methodNotFound className selector)
  | some method =>
    record (.sent className selector args.size)
    let c ← ofExcept ((← get).entry selector method)
    match c.primitive with
    | none =>
      enter method receiver args c.temporaries.length none
      return none
    | some index =>
      match ← tryPrimitive index receiver args with
      | .answered v => return some v
      | .entered => return none
      | .declined =>
        record (.declined index selector)
        enter method receiver args c.temporaries.length none
        return none

/-- Go on at `target`, which must be inside the code. -/
def jumpTo (target : Int) (length : Nat) : Action Unit := do
  if target < 0 ∨ length ≤ target then raise (.jumpOutOfBounds target length)
  modifyActive fun c => { c with pc := target.toNat }

def literal (literals : Array Value) (index : Nat) : Action Value :=
  match literals[index]? with
  | some v => return v
  | none => raise (.literalOutOfBounds index literals.size)

/-- Carry out an instruction of the active context other than a return. `next`
is the offset after it and `code` the code it stands in. -/
def execute (code : Code) (literals : Array Value) (next : Nat) : Instruction → Action Unit
  | .pushLiteral index => do push (← literal literals index.toNat)
  | .pushInstanceVariable index => do
    let slots := (← get).memory.slots (← active).receiver
    match slots[index.toNat]? with
    | some v => push v
    | none => raise (.instanceVariableOutOfBounds index.toNat slots.size)
  | .pushTemporary index => do
    match (← get).memory.temporary? (← activeId) index.toNat with
    | some v => push v
    | none => raise (.temporaryOutOfBounds index.toNat)
  | .pushSelf => do push (← active).receiver
  | .storeInstanceVariable index => do
    let receiver := (← active).receiver
    let v ← top
    let slots := (← get).memory.slots receiver
    if slots.size ≤ index.toNat then
      raise (.instanceVariableOutOfBounds index.toNat slots.size)
    modify fun m =>
      { m with memory := m.memory.modifyBody receiver fun
        | .slots values => .slots (values.set! index.toNat v)
        | body => body }
  | .storeTemporary index => do
    let v ← top
    match (← get).memory.home? (← activeId) index.toNat with
    | some home => modify fun m => { m with memory := m.memory.setTemporary home index.toNat v }
    | none => raise (.temporaryOutOfBounds index.toNat)
  | .send index argc => do
    let selector ← literal literals index.toNat
    match (← get).symbolName? selector with
    | none => raise (.selectorNotSymbol selector)
    | some name =>
      let args ← popMany argc.toNat
      if (← active).stack.isEmpty then raise (.nilReceiver name)
      let receiver ← pop
      match ← startSend receiver name args with
      | some v => push v
      | none => return
  | .returnTop => return
  | .jump .always offset => jumpTo (next + offset.toInt) code.length
  | .jump .ifTrue offset => do
    if (← pop).isTrue then jumpTo (next + offset.toInt) code.length
  | .jump .ifFalse offset => do
    if !(← pop).isTrue then jumpTo (next + offset.toInt) code.length
  | .pop => do let _ ← pop
  | .duplicate => do push (← top)
  | .createBlock body count temporaries => do
    if literals.size < count.toNat then
      raise (.literalOutOfBounds count.toNat literals.size)
    push (← newBlock ⟨body, literals.take count.toNat, temporaries.toNat, some (← activeId)⟩)
  | .executeBlock argc => do
    let args ← popMany argc.toNat
    enterBlock (← pop) args

def finish : Action Value := do
  let v := (← active).result
  modify Machine.leave
  return v

/-- Carry out one instruction of the active context. `some` is the answer of a
context that has just ended, by a return or past its last instruction. -/
def step : Action (Option Value) := do
  let c ← active
  let (code, literals) ← ofExcept ((← get).program c.method)
  match code.fetch? c.pc with
  | none => return some (← finish)
  | some (.error e) => raise (.decode e)
  | some (.ok i) =>
    let next := c.pc + i.size
    modifyActive fun c => { c with pc := next }
    if i = .returnTop then return some (← finish)
    execute code literals next i
    return none

/-- Step until the depth is `base` again; the answer is that of the context that
ended last. -/
def run (base : Nat) : Nat → Action Value
  | 0 => throw .exhausted
  | fuel + 1 => do
    match ← step with
    | none => run base fuel
    | some v =>
      if (← get).depth ≤ base then return v
      push v
      run base fuel

/-- After a runtime error every context that `x` has made active has ended. -/
def protect {α : Type} (x : Action α) : Action α := fun m =>
  let base := m.depth
  match x m with
  | .error (.raised e) stopped => .error (.raised e) (stopped.unwind base)
  | r => r

def executeMethod (fuel : Nat) (method receiver : Value) (args : Array Value) : Action Value :=
  protect do
    let base := (← get).depth
    enterMethod method receiver args
    run base fuel

/-- Build a draft as a method of its own and run it with nil as receiver. -/
def evaluate (fuel : Nat) (d : Draft) : Action Value := do
  let method ← d.build
  executeMethod fuel method .nil #[]

def send (fuel : Nat) (receiver : Value) (selector : String) (args : Array Value) :
    Action Value :=
  protect do
    let base := (← get).depth
    match ← startSend receiver selector args with
    | some v => return v
    | none => run base fuel

def callBlock (fuel : Nat) (block : Value) (args : Array Value) : Action Value :=
  protect do
    let base := (← get).depth
    enterBlock block args
    run base fuel

/-- Run a primitive; `none` when it declines. -/
def callPrimitive (fuel : Nat) (index : Nat) (receiver : Value) (args : Array Value) :
    Action (Option Value) :=
  protect do
    let base := (← get).depth
    match ← tryPrimitive index receiver args with
    | .declined => return none
    | .answered v => return some v
    | .entered => return some (← run base fuel)

end ObjectMachine

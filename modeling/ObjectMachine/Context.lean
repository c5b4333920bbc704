import ObjectMachine.Fault

/-!
# Contexts

A context is the activation of one method or block. Its sender is the context
that called it and its outer context, for a block, the one that made the block.
-/

namespace ObjectMachine

structure Context where
  /-- The method or block whose code runs. -/
  method : Value
  receiver : Value
  args : Array Value
  /-- Arguments first, the other temporaries after them. -/
  temporaries : Array Value
  /-- Operands, the top last. -/
  stack : Array Value
  pc : Nat
  sender : Option ContextId
  outer : Option ContextId
  /-- The last collection that reached this context. -/
  epoch : Nat

namespace Context

def new (method receiver : Value) (args : Array Value) (temporaryCount : Nat)
    (sender outer : Option ContextId) : Context where
  method := method
  receiver := receiver
  args := args
  temporaries := args ++ Array.replicate (temporaryCount - args.size) .nil
  stack := #[]
  pc := 0
  sender := sender
  outer := outer
  epoch := 0

instance : Inhabited Context := ⟨new .nil .nil #[] 0 none none⟩

theorem size_temporaries_new (method receiver : Value) (args : Array Value) (count : Nat)
    (sender outer : Option ContextId) :
    (new method receiver args count sender outer).temporaries.size = max count args.size := by
  simp only [new, Array.size_append, Array.size_replicate]
  omega

variable (c : Context)

def push (v : Value) : Context := { c with stack := c.stack.push v }

def top : Except Fault Value :=
  match c.stack.back? with
  | some v => .ok v
  | none => .error (.stackUnderflow c.pc)

def pop : Except Fault (Value × Context) :=
  match c.stack.back? with
  | some v => .ok (v, { c with stack := c.stack.pop })
  | none => .error (.stackUnderflow c.pc)

/-- Take `count` operands, the first pushed first. -/
def popMany (count : Nat) : Except Fault (Array Value × Context) :=
  let length := c.stack.size
  if length < count then .error (.stackShortage c.pc count length)
  else
    .ok (c.stack.extract (length - count) length,
      { c with stack := c.stack.take (length - count) })

def result : Value := c.stack.back?.getD .nil

/-- Note that collection `epoch` has reached the context; `false` when it had
already. -/
def mark (epoch : Nat) : Bool × Context :=
  if c.epoch = epoch then (false, c) else (true, { c with epoch := epoch })

def edges : List Value :=
  c.method :: c.receiver :: (c.args.toList ++ c.temporaries.toList ++ c.stack.toList)

/-- Show the values in the order of `edges`, then the sender and the outer context, and
keep the answers. -/
def traverse {m : Type → Type} [Monad m] (visitor : Visitor m) (c : Context) : m Context := do
  let method ← visitor.value c.method
  let receiver ← visitor.value c.receiver
  let args ← c.args.mapM visitor.value
  let temporaries ← c.temporaries.mapM visitor.value
  let stack ← c.stack.mapM visitor.value
  c.sender.forM visitor.context
  c.outer.forM visitor.context
  return { c with method, receiver, args, temporaries, stack }

def mapEdges (f : Value → Value) : Context := Id.run (c.traverse (.replace f))

def roots : List Root :=
  c.edges.map .value ++ (c.sender.map Root.context).toList ++ (c.outer.map Root.context).toList

end Context

end ObjectMachine

import ObjectMachine.Lookup

/-!
# Making objects

Each function keeps what it needs alive across its own allocations. Values that
the host holds anywhere else may be out of date afterwards.
-/

namespace ObjectMachine

/-- A class with an empty method dictionary, known as a global. -/
def newClass (name : String) (superclass : Value) (ownVariables : List String) : Action Value := do
  pushScratch superclass
  let methods ← allocate (.new (← get).core.dictionary (.dictionary .empty))
  let superclass ← popScratch
  let inherited := match (← get).memory.body? superclass with
    | some (.classInfo c) => c.instanceSize
    | _ => 0
  let v ← allocate (.new .nil (.classInfo
    { name, superclass, ownVariables, methods
      instanceSize := inherited + ownVariables.length }))
  setGlobal name v
  return v

def newString (s : String) : Action Value := do
  allocate (.new (← get).core.string (.string s))

def newArray (elements : Array Value) : Action Value := do
  allocate (.new (← get).core.array (.array elements))

def newByteArray (bytes : Array UInt8) : Action Value := do
  allocate (.new (← get).core.byteArray (.bytes bytes))

def newBlock (b : Block) : Action Value := do
  allocate (.new (← get).core.block (.block b))

def newMethod (c : Method) : Action Value := do
  allocate (.new (← get).core.method (.method c))

/-- A fresh instance: `size` elements for the indexable core classes, an empty
dictionary, or one slot for every variable of the class. -/
def Machine.blank (m : Machine) (classRef : Value) (size : Nat) : HeapObject :=
  .new classRef <|
    if classRef = m.core.array then .array (Array.replicate size .nil)
    else if classRef = m.core.byteArray then .bytes (Array.replicate size 0)
    else if classRef = m.core.string then .string (String.ofList (List.replicate size ' '))
    else if classRef = m.core.dictionary then .dictionary .empty
    else
      match m.memory.body? classRef with
      | some (.classInfo c) => .slots (Array.replicate c.instanceSize .nil)
      | _ => .slots #[]

def newInstance (classRef : Value) (size : Nat) : Action Value := do
  allocate ((← get).blank classRef size)

def defineMethod (classRef : Value) (selector : String) (method : Value) : Action Unit := do
  let m ← get
  match ← Action.ofExcept (m.body classRef) with
  | .classInfo c =>
    match ← Action.ofExcept (m.body c.methods) with
    | .dictionary d =>
      modify fun m =>
        { m with memory := m.memory.modifyBody c.methods fun _ =>
          .dictionary (d.insert selector method) }
    | other => Action.fail (.defineInCorrupt other.kind)
  | other => Action.fail (.defineOutsideClass other.kind)

end ObjectMachine

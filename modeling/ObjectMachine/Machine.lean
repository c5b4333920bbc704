import ObjectMachine.Collection

/-!
# The machine

The machine owns a memory and everything that keeps objects alive: the core
classes, the globals, the symbols, a scratch stack for the host, and the active
context with its chain of senders. What it does is an `Action`, which stops
early with a runtime error, a fault, or when its budget of steps is spent.
-/

namespace ObjectMachine

/-- The classes that dispatch and allocation need. -/
structure CoreClasses where
  object : Value
  undefinedObject : Value
  trueClass : Value
  falseClass : Value
  integer : Value
  float : Value
  string : Value
  symbol : Value
  block : Value
  array : Value
  byteArray : Value
  dictionary : Value
  method : Value

namespace CoreClasses

def none : CoreClasses :=
  ⟨.nil, .nil, .nil, .nil, .nil, .nil, .nil, .nil, .nil, .nil, .nil, .nil, .nil⟩

variable (c : CoreClasses)

def values : List Value :=
  [c.object, c.undefinedObject, c.trueClass, c.falseClass, c.integer, c.float, c.string,
    c.symbol, c.block, c.array, c.byteArray, c.dictionary, c.method]

def map (f : Value → Value) : CoreClasses where
  object := f c.object
  undefinedObject := f c.undefinedObject
  trueClass := f c.trueClass
  falseClass := f c.falseClass
  integer := f c.integer
  float := f c.float
  string := f c.string
  symbol := f c.symbol
  block := f c.block
  array := f c.array
  byteArray := f c.byteArray
  dictionary := f c.dictionary
  method := f c.method

@[simp] theorem values_map (f : Value → Value) : (c.map f).values = c.values.map f := rfl

end CoreClasses

structure Machine where
  memory : Memory
  core : CoreClasses
  globals : Dictionary
  symbols : Dictionary
  /-- Values that the host keeps alive. -/
  scratch : Array Value
  /-- The innermost running context. -/
  active : Option ContextId
  /-- The number of running contexts. -/
  depth : Nat
  maxDepth : Nat
  /-- What has been reported, oldest first. -/
  journal : Array Event

inductive Stop where
  | raised (error : RuntimeError)
  | fault (fault : Fault)
  /-- The budget of steps is spent. -/
  | exhausted
deriving DecidableEq

abbrev Action := EStateM Stop Machine

namespace Action

variable {α : Type}

def raise (e : RuntimeError) : Action α := throw (.raised e)

def fail (f : Fault) : Action α := throw (.fault f)

def ofExcept : Except Fault α → Action α
  | .ok a => pure a
  | .error f => fail f

end Action

namespace Machine

def new (settings : Settings) (maxDepth : Nat) : Except Fault Machine := do
  let memory ← Memory.new settings
  return ⟨memory, .none, .empty, .empty, #[], none, 0, maxDepth, #[]⟩

variable (m : Machine)

/-- Everything that keeps objects alive, in the order a collection takes it. -/
def roots : List Root :=
  (m.core.values ++ m.globals.values ++ m.symbols.values ++ m.scratch.toList).map .value
    ++ (m.active.map Root.context).toList

def mapRoots (f : Value → Value) : Machine :=
  { m with
    core := m.core.map f
    globals := m.globals.map f
    symbols := m.symbols.map f
    scratch := m.scratch.map f }

/-- Take over what a collection has left. -/
def settle (c : Collection) : Machine :=
  { m.mapRoots c.survey.relocate with memory := c.memory, journal := m.journal ++ c.events }

def append (o : HeapObject) : Machine := { m with memory := m.memory.append o }

@[simp] theorem append_memory (o : HeapObject) : (m.append o).memory = m.memory.append o := rfl

@[simp] theorem settle_memory (c : Collection) : (m.settle c).memory = c.memory := rfl

def nextPlace : Value := .pointer m.memory.objects.size

/-- The machine as a collection that fails leaves it: the attempt counts. -/
def afterFailedCollection : Machine :=
  { m with memory := { m.memory with collections := m.memory.collections + 1 } }

def symbolName? (v : Value) : Option String :=
  match m.memory.body? v with
  | some (.symbol s) => some s
  | _ => none

def characters? (v : Value) : Option String :=
  match m.memory.body? v with
  | some (.string s) | some (.symbol s) => some s
  | _ => none

def isClass (v : Value) : Bool :=
  match m.memory.body? v with
  | some (.classInfo _) => true
  | _ => false

def body (v : Value) : Except Fault Body :=
  match m.memory.body? v with
  | some b => .ok b
  | none => .error (.notAnObject v)

end Machine

def record (e : Event) : Action Unit :=
  modify fun m => { m with journal := m.journal.push e }

/-- Put a new object into memory, collecting first when it is full enough. The
edges of the new object count as roots. -/
def allocate (o : HeapObject) : Action Value := fun m =>
  if m.memory.shouldCollect then
    match m.memory.collect (m.roots ++ o.roots) with
    | .error f => .error (.fault f) m.afterFailedCollection
    | .ok c =>
      let m := m.settle c
      .ok m.nextPlace (m.append (o.mapEdges c.survey.relocate))
  else .ok m.nextPlace (m.append o)

/-- Allocation is that of the memory, with the machine's own roots. -/
theorem allocate_eq (o : HeapObject) (m : Machine) :
    allocate o m =
      match m.memory.allocate m.roots o with
      | .error f => .error (.fault f) m.afterFailedCollection
      | .ok a =>
        .ok a.value { a.collection.elim m m.settle with memory := a.memory } := by
  unfold allocate Memory.allocate
  by_cases full : m.memory.shouldCollect
  · simp only [full, if_true]
    cases m.memory.collect (m.roots ++ o.roots) <;> rfl
  · simp only [full]
    rfl

def collectGarbage : Action Unit := fun m =>
  match m.memory.collect m.roots with
  | .error f => .error (.fault f) m.afterFailedCollection
  | .ok c => .ok () (m.settle c)

/-- The one symbol of that name. -/
def intern (name : String) : Action Value := do
  match (← get).symbols.get? name with
  | some v => return v
  | none =>
    let v ← allocate (.new (← get).core.symbol (.symbol name))
    modify fun m => { m with symbols := m.symbols.insert name v }
    return v

def setGlobal (name : String) (v : Value) : Action Unit :=
  modify fun m => { m with globals := m.globals.insert name v }

def pushScratch (v : Value) : Action Unit :=
  modify fun m => { m with scratch := m.scratch.push v }

/-- Take the last scratch value; nil if there is none. -/
def popScratch : Action Value := do
  let v := (← get).scratch.back?.getD .nil
  modify fun m => { m with scratch := m.scratch.pop }
  return v

end ObjectMachine

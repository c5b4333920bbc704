import ObjectMachine.Dictionary
import ObjectMachine.Instruction

/-!
# Objects

An object has a header, which names its class and serves the collector, and a
body of one of ten shapes. The values inside it are its edges, its class first.
`HeapObject.edges` lists them and `HeapObject.traverse` shows them to a visitor in
the same order and puts the answers back. A block also refers to the context it was
made in, which lives outside the space of objects; the visitor is shown it too.
-/

namespace ObjectMachine

/-- The place of a context among all contexts. -/
abbrev ContextId := Nat

/-- What a walk shows the values and the contexts of something to. The answer to a
value takes its place; a context is only shown, and walked or not as the visitor likes. -/
structure Visitor (m : Type → Type) where
  value : Value → m Value
  context : ContextId → m Unit

/-- Answer every value by its image and pass over the contexts. -/
def Visitor.replace (f : Value → Value) : Visitor Id where
  value v := pure (f v)
  context _ := pure ()

@[simp] theorem Visitor.replace_value (f : Value → Value) (v : Value) :
    (replace f).value v = pure (f v) := rfl

/-- Class reference and collector state of one object. -/
structure Header where
  classRef : Value
  /-- Set on an object that the latest collection has kept. -/
  moved : Bool
  /-- Collections survived, at most 255. -/
  age : UInt8
  /-- The new place of an object that a collection has found. -/
  forward : Option Nat

namespace Header

def new (classRef : Value) : Header := ⟨classRef, false, 0, none⟩

instance : Inhabited Header := ⟨new .nil⟩

variable (h : Header)

def setForward (index : Nat) : Header := { h with moved := true, forward := some index }

def survivor : Header := ⟨h.classRef, true, if h.age = 255 then 255 else h.age + 1, none⟩

def clearMoved : Header := { h with moved := false, forward := none }

@[simp] theorem survivor_classRef : h.survivor.classRef = h.classRef := rfl

@[simp] theorem survivor_forward : h.survivor.forward = none := rfl

@[simp] theorem clearMoved_forward : h.clearMoved.forward = none := rfl

@[simp] theorem setForward_forward (index : Nat) : (h.setForward index).forward = some index := rfl

end Header

structure ClassInfo where
  name : String
  /-- Nil at the top of the hierarchy. -/
  superclass : Value
  /-- The variables that this class adds. -/
  ownVariables : List String
  /-- Slots of an instance, inherited ones included. -/
  instanceSize : Nat
  /-- A dictionary of methods by selector. -/
  methods : Value

structure Method where
  selector : Value
  code : Code
  literals : Array Value
  /-- Arguments first, then declared temporaries. -/
  temporaries : List String
  /-- The class that the method was written for. -/
  owner : Value
  primitive : Option Nat

structure Block where
  code : Code
  literals : Array Value
  temporaryCount : Nat
  outer : Option ContextId

inductive Body where
  | slots (values : Array Value)
  | classInfo (c : ClassInfo)
  | method (m : Method)
  | block (b : Block)
  | array (elements : Array Value)
  | bytes (bytes : Array UInt8)
  | dictionary (d : Dictionary)
  | string (s : String)
  | symbol (s : String)
  | husk

inductive BodyKind where
  | slots | classInfo | method | block | array | bytes | dictionary | string | symbol | husk
deriving DecidableEq, Repr

def BodyKind.name : BodyKind → String
  | slots => "Instance"
  | classInfo => "Class"
  | method => "Method"
  | block => "Block"
  | array => "Array"
  | bytes => "ByteArray"
  | dictionary => "Dictionary"
  | string => "String"
  | symbol => "Symbol"
  | husk => "Forwarded"

namespace Body

instance : Inhabited Body := ⟨husk⟩

def kind : Body → BodyKind
  | slots _ => .slots
  | classInfo _ => .classInfo
  | method _ => .method
  | block _ => .block
  | array _ => .array
  | bytes _ => .bytes
  | dictionary _ => .dictionary
  | string _ => .string
  | symbol _ => .symbol
  | husk => .husk

def edges : Body → List Value
  | slots values => values.toList
  | classInfo c => [c.superclass, c.methods]
  | method m => m.selector :: m.owner :: m.literals.toList
  | block b => b.literals.toList
  | array elements => elements.toList
  | dictionary d => d.values
  | bytes _ | string _ | symbol _ | husk => []

def outer? : Body → Option ContextId
  | block b => b.outer
  | _ => none

/-- Show the values in the order of `edges`, then the context of a block, and keep the
answers. -/
def traverse {m : Type → Type} [Monad m] (visitor : Visitor m) : Body → m Body
  | slots values => do
    return slots (← values.mapM visitor.value)
  | classInfo c => do
    let superclass ← visitor.value c.superclass
    let methods ← visitor.value c.methods
    return classInfo { c with superclass, methods }
  | method c => do
    let selector ← visitor.value c.selector
    let owner ← visitor.value c.owner
    let literals ← c.literals.mapM visitor.value
    return method { c with selector, owner, literals }
  | block b => do
    let literals ← b.literals.mapM visitor.value
    b.outer.forM visitor.context
    return block { b with literals }
  | array elements => do
    return array (← elements.mapM visitor.value)
  | dictionary d => do
    return dictionary (← d.traverse visitor.value)
  | bytes bs => pure (bytes bs)
  | string s => pure (string s)
  | symbol s => pure (symbol s)
  | husk => pure husk

end Body

structure HeapObject where
  header : Header
  body : Body

/-- Something a collection starts from or passes on to: a value or a context. -/
inductive Root where
  | value (v : Value)
  | context (id : ContextId)

namespace HeapObject

instance : Inhabited HeapObject := ⟨⟨default, .husk⟩⟩

def new (classRef : Value) (body : Body) : HeapObject := ⟨.new classRef, body⟩

variable (o : HeapObject)

def edges : List Value := o.header.classRef :: o.body.edges

def traverse {m : Type → Type} [Monad m] (visitor : Visitor m) (o : HeapObject) :
    m HeapObject := do
  let classRef ← visitor.value o.header.classRef
  let body ← o.body.traverse visitor
  return ⟨{ o.header with classRef }, body⟩

def mapEdges (f : Value → Value) : HeapObject := Id.run (o.traverse (.replace f))

def roots : List Root := o.edges.map .value ++ (o.body.outer?.map Root.context).toList

/-- The kept copy of the object, its edges still the old ones. -/
def survivor : HeapObject := ⟨o.header.survivor, o.body⟩

end HeapObject

end ObjectMachine

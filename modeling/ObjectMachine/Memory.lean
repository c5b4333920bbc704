import ObjectMachine.Context
import ObjectMachine.Event

/-!
# Object memory

Objects are addressed by their index. Contexts stand beside them and are
addressed by the order of their creation. Memory has a capacity; when the
objects fill a given part of it, the next allocation collects first.
-/

namespace ObjectMachine

structure Settings where
  initialCapacity : Nat
  /-- The part of the capacity that triggers a collection. -/
  collectThreshold : Binary64
  /-- The live part after a collection above which the capacity grows. -/
  growThreshold : Binary64
  growthFactor : Nat

namespace Settings

/-- Ten thousand objects, thresholds 0.8 and 0.7, growth by two. -/
def standard : Settings := ⟨10000, ⟨0x3FE999999999999A⟩, ⟨0x3FE6666666666666⟩, 2⟩

instance : Inhabited Settings := ⟨standard⟩

variable (s : Settings)

def problem? : Option SettingsProblem :=
  if s.initialCapacity = 0 then some .noCapacity
  else if !s.collectThreshold.isFraction || !s.growThreshold.isFraction then some .notAFraction
  else if s.growthFactor < 2 then some .smallFactor
  else none

end Settings

structure Memory where
  settings : Settings
  capacity : Nat
  objects : Array HeapObject
  collections : Nat
  contexts : Array Context

namespace Memory

/-- Empty memory, or the problem of its settings as a fault. -/
def new (settings : Settings) : Except Fault Memory :=
  match settings.problem? with
  | some p => .error (.settings p)
  | none => .ok ⟨settings, settings.initialCapacity, #[], 0, #[]⟩

variable (mem : Memory)

/-- Whether the next allocation collects first. -/
def shouldCollect : Bool :=
  let part := mem.settings.collectThreshold
  Binary64.scaledPart mem.capacity part ≤ Binary64.scaledCount mem.objects.size part

/-- Whether `live` objects after a collection make the capacity grow. -/
def shouldGrow (live : Nat) : Bool :=
  let part := mem.settings.growThreshold
  Binary64.scaledPart mem.capacity part < Binary64.scaledCount live part

def object? (v : Value) : Option HeapObject :=
  match v with
  | .pointer i => mem.objects[i]?
  | _ => none

def body? (v : Value) : Option Body := (mem.object? v).map HeapObject.body

def modifyObject (v : Value) (f : HeapObject → HeapObject) : Memory :=
  match v with
  | .pointer i => { mem with objects := mem.objects.modify i f }
  | _ => mem

def modifyBody (v : Value) (f : Body → Body) : Memory :=
  mem.modifyObject v fun o => { o with body := f o.body }

def modifyContext (id : ContextId) (f : Context → Context) : Memory :=
  { mem with contexts := mem.contexts.modify id f }

/-- Put an object at the next free index, which is the number of objects before. -/
def append (o : HeapObject) : Memory := { mem with objects := mem.objects.push o }

/-- Add a context; its place is the number of contexts before. -/
def addContext (c : Context) : Memory := { mem with contexts := mem.contexts.push c }

@[simp] theorem append_objects (o : HeapObject) :
    (mem.append o).objects = mem.objects.push o := rfl

@[simp] theorem append_contexts (o : HeapObject) : (mem.append o).contexts = mem.contexts := rfl

@[simp] theorem addContext_objects (c : Context) : (mem.addContext c).objects = mem.objects := rfl

@[simp] theorem addContext_contexts (c : Context) :
    (mem.addContext c).contexts = mem.contexts.push c := rfl

@[simp] theorem modifyContext_objects (id : ContextId) (f : Context → Context) :
    (mem.modifyContext id f).objects = mem.objects := rfl

@[simp] theorem modifyObject_contexts (v : Value) (f : HeapObject → HeapObject) :
    (mem.modifyObject v f).contexts = mem.contexts := by
  cases v <;> rfl

theorem object?_append_new (o : HeapObject) :
    (mem.append o).object? (.pointer mem.objects.size) = some o := by
  simp [object?]

theorem object?_append_old (o : HeapObject) {i : Nat} (h : i < mem.objects.size) :
    (mem.append o).object? (.pointer i) = mem.object? (.pointer i) := by
  simp [object?, Array.getElem?_push, Nat.ne_of_lt h]

/-- The first edge of `o` that refers outside a space of `size` objects. -/
def danglingEdge? (size : Nat) (o : HeapObject) : Option Value :=
  o.edges.find? fun
    | .pointer i => size ≤ i
    | _ => false

/-- What is wrong with the object at `index`, if anything. -/
def check (size index : Nat) (o : HeapObject) : Option Fault :=
  match o.body with
  | .husk => some (.husk (.pointer index))
  | _ => (danglingEdge? size o).map fun edge => .danglingEdge (.pointer index) edge

/-- Every object is whole and every edge lands on an object, or the first fault
in the order of the objects. -/
def verify : Except Fault Unit :=
  let faults := mem.objects.toList.zipIdx.filterMap fun (o, i) => check mem.objects.size i o
  match faults with
  | [] => .ok ()
  | f :: _ => .error f

end Memory

end ObjectMachine

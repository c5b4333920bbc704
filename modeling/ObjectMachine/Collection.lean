import ObjectMachine.Memory

/-!
# Collection

A collection surveys the objects that its roots reach: each gets its new index
when it is first met, so indices follow the roots and then a breadth-first
scan. Contexts that wait to be traced are taken last-in first-out, once every
object met so far has been scanned. Afterwards the met objects are laid out in
their new order and every edge is relocated.
-/

namespace ObjectMachine

structure Survey where
  /-- The number of this collection. -/
  epoch : Nat
  /-- The old objects. The header of a met one holds its new index. -/
  space : Array HeapObject
  /-- Old indices of the met objects, by new index. -/
  order : Array Nat
  contexts : Array Context
  /-- Contexts whose edges have been followed. -/
  traced : Array ContextId
  /-- Contexts met and not yet looked at, the latest first. -/
  waiting : List ContextId

namespace Survey

def start (epoch : Nat) (mem : Memory) : Survey where
  epoch := epoch
  space := mem.objects.map fun o => { o with header := o.header.clearMoved }
  order := #[]
  contexts := mem.contexts
  traced := #[]
  waiting := []

variable (s : Survey)

/-- Meet a value. A reference outside the space is a fault. -/
def meet (v : Value) : Except Fault Survey :=
  match v with
  | .pointer i =>
    match (s.space[i]?).map fun o => o.header.forward with
    | none => .error (.danglingReference v)
    | some (some _) => .ok s
    | some none =>
      let place := s.order.size
      .ok
        { s with
          space := s.space.modify i fun o => { o with header := o.header.setForward place }
          order := s.order.push i }
  | _ => .ok s

def visit (s : Survey) : Root → Except Fault Survey
  | .value v => s.meet v
  | .context id => .ok { s with waiting := id :: s.waiting }

def visitAll (roots : List Root) : Except Fault Survey := roots.foldlM visit s

/-- Look at a context that has waited: follow its edges unless this collection
has done so. -/
def trace (id : ContextId) : Except Fault Survey :=
  match s.contexts[id]? with
  | none => .ok s
  | some c =>
    let epoch := s.epoch
    if c.epoch = epoch then .ok s
    else
      visitAll
        { s with
          contexts := s.contexts.modify id fun c => { c with epoch }
          traced := s.traced.push id }
        c.roots

/-- Follow the edges of the met objects from the `scanned`-th on, and of the
waiting contexts. -/
def scan : Nat → Nat → Survey → Except Fault Survey
  | 0, _, s => .ok s
  | fuel + 1, scanned, s =>
    match s.order[scanned]? with
    | some i => do
      let s ← s.visitAll ((s.space[i]?.map HeapObject.roots).getD [])
      scan fuel (scanned + 1) s
    | none =>
      match s.waiting with
      | [] => .ok s
      | id :: rest => do
        let s ← trace { s with waiting := rest } id
        scan fuel scanned s

/-- Steps that a scan can take: one for every object, and one for every context
that ever waits. Each object adds at most one of those and each context two. -/
def scanBound : Nat := 2 * s.space.size + 2 * s.contexts.size + s.waiting.length + 1

def complete (roots : List Root) : Except Fault Survey := do
  let s ← s.visitAll roots
  s.scan s.scanBound 0

def relocate : Value → Value
  | .pointer i => .pointer (((s.space[i]?).bind fun o => o.header.forward).getD i)
  | v => v

def survivors : Array HeapObject :=
  s.order.map fun i => (s.space[i]?.getD default).survivor.mapEdges s.relocate

/-- All contexts, the traced ones with their edges relocated. -/
def relocatedContexts : Array Context :=
  s.traced.foldl (fun cs id => cs.modify id fun c => c.mapEdges s.relocate) s.contexts

end Survey

/-- What a collection leaves: the memory, the survey that relocates values held
elsewhere, and what it reports. -/
structure Collection where
  memory : Memory
  survey : Survey
  events : List Event

def capacityLimit : Nat := UInt64.size

/-- Lay out what the survey has met, with more room if the memory is to grow. -/
def Memory.layOut (mem : Memory) (s : Survey) (grow : Bool) : Except Fault Collection :=
  let number := mem.collections + 1
  let live := s.order.size
  let kept : Memory :=
    { mem with objects := s.survivors, collections := number, contexts := s.relocatedContexts }
  let report (capacity : Nat) : Event := .collected number mem.objects.size live capacity
  if grow then
    let grown := mem.capacity * mem.settings.growthFactor
    if capacityLimit ≤ grown then .error .multiplicationOverflow
    else
      .ok ⟨{ kept with capacity := grown }, s, [.growing mem.capacity grown, report grown]⟩
  else
    .ok ⟨kept, s, [report mem.capacity]⟩

/-- Keep what `roots` reach and drop the rest. -/
def Memory.collect (mem : Memory) (roots : List Root) : Except Fault Collection := do
  let s ← (Survey.start (mem.collections + 1) mem).complete roots
  mem.layOut s (mem.shouldGrow s.order.size)

/-- What an allocation leaves: the new object's place, the memory, and the
collection that came first, if there was one. -/
structure Allocation where
  value : Value
  memory : Memory
  collection : Option Collection

/-- Put `o` into memory, collecting first when it is full enough. What `o`
refers to is kept and relocated with what `roots` reach. -/
def Memory.allocate (mem : Memory) (roots : List Root) (o : HeapObject) :
    Except Fault Allocation := do
  if mem.shouldCollect then
    let c ← mem.collect (roots ++ o.roots)
    return ⟨.pointer c.memory.objects.size, c.memory.append (o.mapEdges c.survey.relocate), c⟩
  else
    return ⟨.pointer mem.objects.size, mem.append o, none⟩

end ObjectMachine

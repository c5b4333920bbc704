import ObjectMachine.Machine

/-!
# Classes of values and methods of classes
-/

namespace ObjectMachine.Machine

variable (m : Machine)

/-- The class that a message to `v` starts from. A class answers itself. -/
def classOf (v : Value) : Except Fault Value :=
  match v with
  | .integer _ => .ok m.core.integer
  | .float _ => .ok m.core.float
  | .nil | .reserved _ => .ok m.core.undefinedObject
  | .bool b => .ok (if b then m.core.trueClass else m.core.falseClass)
  | .pointer _ =>
    match m.memory.object? v with
    | none => .error (.classOfDangling v)
    | some o =>
      match o.body with
      | .classInfo _ => .ok v
      | body =>
        if o.header.classRef.isNil then .error (.classless body.kind v)
        else .ok o.header.classRef

/-- The name of a class; a question mark for anything else. -/
def className (v : Value) : String :=
  match m.memory.body? v with
  | some (.classInfo c) => c.name
  | _ => "?"

def ownMethod? (c : ClassInfo) (selector : String) : Except Fault (Option Value) := do
  match ← m.body c.methods with
  | .dictionary d => return d.get? selector
  | other => .error (.corruptMethods c.name other.kind)

/-- Search at most `fuel` classes, from `v` upwards. -/
def lookupFrom (selector : String) : Nat → Value → Except Fault (Option Value)
  | 0, _ => .ok none
  | fuel + 1, v =>
    match m.memory.body? v with
    | some (.classInfo c) => do
      match ← m.ownMethod? c selector with
      | some method => return some method
      | none => lookupFrom selector fuel c.superclass
    | _ => .ok none

/-- The method for `selector` of the first class that has one, from `v` upwards.
A chain of superclasses is no longer than the memory. -/
def lookup (v : Value) (selector : String) : Except Fault (Option Value) :=
  m.lookupFrom selector m.memory.objects.size v

end ObjectMachine.Machine

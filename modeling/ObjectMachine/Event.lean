/-!
# Events

What the memory and the machine report while they work, each with a level and a
line of text.
-/

namespace ObjectMachine

inductive Level where
  | trace | debug
deriving DecidableEq, Repr

def Level.name : Level → String
  | trace => "TRACE"
  | debug => "DEBUG"

inductive Event where
  | growing (old new : Nat)
  | collected (number before live capacity : Nat)
  | installed (className selector : String)
  | sent (className selector : String) (argc : Nat)
  | declined (primitive : Nat) (selector : String)
  | booted (classes objects : Nat)
deriving DecidableEq, Repr

namespace Event

def level : Event → Level
  | installed _ _ | sent _ _ _ => .trace
  | _ => .debug

def message : Event → String
  | growing old new => s!"gc: growing spaces {old} -> {new}"
  | collected number before live capacity =>
    s!"gc #{number}: {before} -> {live} objects, capacity {capacity}"
  | installed className selector => s!"installed {className}>>{selector}"
  | sent className selector argc => s!"send {className}>>{selector} argc={argc}"
  | declined primitive selector => s!"primitive {primitive} declined #{selector}, running bytecode"
  | booted classes objects => s!"bootstrap: {classes} classes, {objects} objects"

def line (e : Event) : String := s!"{e.level.name} {e.message}"

end Event

end ObjectMachine

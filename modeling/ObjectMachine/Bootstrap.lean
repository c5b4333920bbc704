import ObjectMachine.Draft

/-!
# The first classes

A fresh machine gets thirteen core classes, each also a global, and the methods
that primitives carry out.
-/

namespace ObjectMachine

def addCoreClass (name : String) (superclass : CoreClasses → Value)
    (note : CoreClasses → Value → CoreClasses) : Action Unit := do
  let v ← newClass name (superclass (← get).core) []
  modify fun m => { m with core := note m.core v }

def addCoreClasses : Action Unit := do
  addCoreClass "Object" (fun _ => .nil) fun c v => { c with object := v }
  addCoreClass "UndefinedObject" (·.object) fun c v => { c with undefinedObject := v }
  addCoreClass "True" (·.object) fun c v => { c with trueClass := v }
  addCoreClass "False" (·.object) fun c v => { c with falseClass := v }
  addCoreClass "Integer" (·.object) fun c v => { c with integer := v }
  addCoreClass "Float" (·.object) fun c v => { c with float := v }
  addCoreClass "String" (·.object) fun c v => { c with string := v }
  addCoreClass "Symbol" (·.string) fun c v => { c with symbol := v }
  addCoreClass "Block" (·.object) fun c v => { c with block := v }
  addCoreClass "Array" (·.object) fun c v => { c with array := v }
  addCoreClass "ByteArray" (·.object) fun c v => { c with byteArray := v }
  addCoreClass "Dictionary" (·.object) fun c v => { c with dictionary := v }
  addCoreClass "Method" (·.object) fun c v => { c with method := v }

/-- A dictionary that is older than its class gets it now. -/
def HeapObject.adopt (dictionaryClass : Value) (o : HeapObject) : HeapObject :=
  match o.body with
  | .dictionary _ =>
    if o.header.classRef.isNil then
      { o with header := { o.header with classRef := dictionaryClass } }
    else o
  | _ => o

def adoptDictionaries : Action Unit :=
  modify fun m =>
    { m with memory :=
      { m.memory with objects := m.memory.objects.map fun o => o.adopt m.core.dictionary } }

/-- Class, selector and primitive of every method that a primitive carries out. -/
def primitiveMethods : List (String × String × Nat) :=
  [("Object", "basicClass", 5), ("Object", "new", 60), ("Object", "new:", 61),
    ("Integer", "+", 1), ("Integer", "*", 2), ("Integer", "=", 3), ("Integer", "-", 4),
    ("Integer", "<", 6), ("Integer", ">", 7),
    ("Float", "+", 10), ("Float", "-", 11), ("Float", "*", 12), ("Float", "/", 13),
    ("Float", "=", 14), ("Float", "<", 15), ("Float", ">", 16),
    ("Block", "new", 20), ("Block", "value", 21), ("Block", "value:", 22),
    ("String", "size", 30), ("String", ",", 31),
    ("Array", "at:", 40), ("Array", "at:put:", 41), ("Array", "size", 42),
    ("ByteArray", "at:", 50), ("ByteArray", "at:put:", 51), ("ByteArray", "size", 52)]

def draftFor (className selector : String) : Action Draft := do
  return .new (((← get).globals.get? className).getD .nil) selector

def installPrimitive (className selector : String) (primitive : Nat) : Action Unit := do
  let d ← draftFor className selector
  let _ ← { d with primitive := some primitive : Draft }.install

def installConstant (className selector : String) (v : Value) : Action Unit := do
  let d ← draftFor className selector
  let _ ← ((d.push (.value v)).emit .returnTop).install

def installCoreMethods : Action Unit := do
  primitiveMethods.forM fun (className, selector, primitive) =>
    installPrimitive className selector primitive
  installConstant "True" "not" (.bool false)
  installConstant "False" "not" (.bool true)

def setUp : Action Unit := do
  addCoreClasses
  adoptDictionaries
  installCoreMethods
  let m ← get
  record (.booted m.globals.size m.memory.objects.size)

def bootstrap (settings : Settings) (maxDepth : Nat) : Except Stop Machine :=
  match Machine.new settings maxDepth with
  | .error f => .error (.fault f)
  | .ok m =>
    match setUp m with
    | .ok _ m => .ok m
    | .error e _ => .error e

def standardDepth : Nat := 1000

end ObjectMachine

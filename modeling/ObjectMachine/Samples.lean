import ObjectMachine.Bootstrap
import ObjectMachine.Execution

/-!
# Sample programs
-/

namespace ObjectMachine.Samples

/-- `factorial` for integers, with both branches written as jumps: one for the
receiver one, otherwise the receiver times the factorial of its predecessor. -/
def factorial (integerClass : Value) : Except Fault Draft := do
  let d := Draft.new integerClass "factorial"
  let (one, d) := d.addLiteral (.value (.integer ⟨1, by decide, by decide⟩))
  let pushOne : Instruction := .pushLiteral one
  let d := (((d.emit .pushSelf).emit pushOne).send "=" 1).emit .duplicate
  let (recurse, d) := d.jumpForward .ifFalse
  let d := (d.emit .pop).emit pushOne
  let (done, d) := d.jumpForward .always
  let d ← d.bind recurse
  let d := (((d.emit .pop).emit .pushSelf).emit .pushSelf).emit pushOne
  let d := ((d.send "-" 1).send "factorial" 0).send "*" 1
  let d ← d.bind done
  return d.emit .returnTop

def installFactorial : Action Value := do
  let d ← Action.ofExcept (factorial (← get).core.integer)
  d.install

def tenFactorial (fuel : Nat) : Action Value := do
  let _ ← installFactorial
  send fuel (.integer ⟨10, by decide, by decide⟩) "factorial" #[]

/-- `2 + 3`, run after an image is loaded. -/
def sum (objectClass : Value) : Draft :=
  let d := Draft.new objectClass "doit"
  let d := d.push (.value (.integer ⟨2, by decide, by decide⟩))
  let d := d.push (.value (.integer ⟨3, by decide, by decide⟩))
  (d.send "+" 1).emit .returnTop

def sumDraft : Action Draft := do
  return sum (← get).core.object

end ObjectMachine.Samples

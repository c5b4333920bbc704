import ObjectMachine.Printing

/-!
# Listings of code

A listing shows the literals of a method or block and then its instructions,
one on a line with its offset. The body of a block follows the instruction that
makes it, further in. Where the bytes stop making sense a last line says why.
-/

namespace ObjectMachine

/-- The lines of some code, bodies nested no deeper than `fuel`. -/
def Code.linesWithin : Nat → Nat → Code → List String
  | 0, _, _ => []
  | fuel + 1, indent, code =>
    let margin := String.ofList (List.replicate indent ' ')
    let (entries, last) := Code.listing code
    let shown := entries.flatMap fun (offset, i) =>
      s!"{margin}{zeroPadded 4 offset} {i.text}" ::
        match i with
        | .createBlock body _ _ => Code.linesWithin fuel (indent + 4) body
        | _ => []
    match last.error with
    | some e => shown ++ [s!"{margin}{zeroPadded 4 last.offset} <{e.message}>"]
    | none => shown

/-- All lines. A body is shorter than the code around it. -/
def Code.lines (code : Code) : List String := Code.linesWithin (code.length + 1) 0 code

def unlines (lines : List String) : String := String.join (lines.map fun l => l ++ "\n")

/-- A number filled with blanks to three places. -/
def padded (n : Nat) : String :=
  let s := toString n
  s ++ String.ofList (List.replicate (3 - s.length) ' ')

namespace Machine

variable (m : Machine)

def literalLines (literals : Array Value) : Except Fault (List String) :=
  literals.toList.zipIdx.mapM fun (v, i) => do
    let text ← m.printString v
    return s!"#{padded i} {text}"

def codeListing (code : Code) (literals : Array Value) : Except Fault String := do
  return unlines ((← m.literalLines literals) ++ code.lines)

def disassemble (v : Value) : Except Fault String := do
  match m.memory.body? v with
  | some (.method c) => m.codeListing c.code c.literals
  | some (.block b) => m.codeListing b.code b.literals
  | _ => return (← m.printString v) ++ " is not code\n"

end Machine

end ObjectMachine

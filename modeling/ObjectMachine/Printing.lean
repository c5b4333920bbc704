import ObjectMachine.Lookup

/-!
# Printed values

Strings are quoted, a quote inside written twice. Arrays print their elements,
down to eight levels; anything deeper prints as three dots.
-/

namespace ObjectMachine

def quoteMark : Char := Char.ofNat 39

/-- The characters of a string with every quote doubled. -/
def doubleQuotes (cs : List Char) : List Char :=
  cs.flatMap fun c => if c = quoteMark then [c, c] else [c]

def quoted (s : String) : String :=
  String.ofList (quoteMark :: doubleQuotes s.toList ++ [quoteMark])

def withArticle (name : String) : String :=
  match name.toList with
  | c :: _ => if c ∈ ['A', 'E', 'I', 'O', 'U'] then s!"an {name}" else s!"a {name}"
  | [] => s!"a {name}"

namespace Machine

variable (m : Machine)

/-- Print through at most `levels` levels of arrays. -/
def printWithin : Nat → Value → Except Fault String
  | 0, _ => .ok "..."
  | levels + 1, v =>
    match v with
    | .integer n => .ok (toString n.val)
    | .float x => .ok (x.toBinary64.text .printed)
    | .nil | .reserved _ => .ok "nil"
    | .bool true => .ok "true"
    | .bool false => .ok "false"
    | .pointer _ =>
      match m.memory.body? v with
      | none => .ok s!"<dangling {v.describe}>"
      | some (.string s) => .ok (quoted s)
      | some (.symbol s) => .ok s!"#{s}"
      | some (.classInfo c) => .ok c.name
      | some (.array elements) => do
        let parts ← elements.toList.mapM (printWithin levels)
        return "#(" ++ String.intercalate " " parts ++ ")"
      | some (.bytes bytes) =>
        .ok ("#[" ++ String.intercalate " " (bytes.toList.map fun b => toString b.toNat) ++ "]")
      | some (.method c) =>
        .ok (m.className c.owner ++ ">>" ++ (m.symbolName? c.selector).getD "?")
      | some .husk => .ok s!"<forwarded {v.describe}>"
      | some (.slots _) | some (.block _) | some (.dictionary _) => do
        return withArticle (m.className (← m.classOf v))

def printString (v : Value) : Except Fault String := m.printWithin 9 v

end Machine

end ObjectMachine

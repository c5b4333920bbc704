import ObjectMachine.Value

/-!
# Dictionaries from names to values

Entries keep the order in which their names first came in. A name occurs once.
-/

namespace ObjectMachine

structure Dictionary where
  entries : List (String × Value)
deriving DecidableEq

namespace Dictionary

def empty : Dictionary := ⟨[]⟩

instance : Inhabited Dictionary := ⟨empty⟩

variable (d : Dictionary)

def size : Nat := d.entries.length

def isEmpty : Bool := d.entries.isEmpty

def get? (name : String) : Option Value := d.entries.lookup name

def contains (name : String) : Bool := (d.get? name).isSome

def values : List Value := d.entries.map Prod.snd

def names : List String := d.entries.map Prod.fst

/-- Replace the value of `name` where it stands, or add it at the end. -/
def insertEntry (name : String) (v : Value) : List (String × Value) → List (String × Value)
  | [] => [(name, v)]
  | (other, w) :: rest =>
    if other = name then (name, v) :: rest else (other, w) :: insertEntry name v rest

def insert (name : String) (v : Value) : Dictionary := ⟨insertEntry name v d.entries⟩

def traverse {m : Type → Type} [Monad m] (visit : Value → m Value) (d : Dictionary) :
    m Dictionary := do
  return ⟨← d.entries.mapM fun (name, v) => return (name, ← visit v)⟩

def map (f : Value → Value) : Dictionary := ⟨d.entries.map fun (name, v) => (name, f v)⟩

@[simp] theorem get?_empty (name : String) : empty.get? name = none := rfl

theorem lookup_insertEntry (name key : String) (v : Value) (es : List (String × Value)) :
    (insertEntry name v es).lookup key = if key = name then some v else es.lookup key := by
  induction es with
  | nil =>
    by_cases h : key = name
    · simp [insertEntry, h]
    · simp [insertEntry, List.lookup_cons, h, beq_false_of_ne h]
  | cons e rest ih =>
    obtain ⟨other, w⟩ := e
    unfold insertEntry
    by_cases ho : other = name
    · subst ho
      by_cases hk : key = other
      · simp [hk]
      · simp [List.lookup_cons, hk, beq_false_of_ne hk]
    · by_cases hk : key = other
      · subst hk
        simp [ho]
      · simp [List.lookup_cons, ho, beq_false_of_ne hk, ih]

theorem get?_insert (name key : String) (v : Value) :
    (d.insert name v).get? key = if key = name then some v else d.get? key :=
  lookup_insertEntry name key v d.entries

end Dictionary

end ObjectMachine

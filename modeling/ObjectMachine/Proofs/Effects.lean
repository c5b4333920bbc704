import ObjectMachine.Proofs.IndexedMachine

/-!
# What primitives come to

A primitive makes empty blocks and objects that are neither code nor symbols, and
what running code writes to objects leaves code and symbols alone. Neither a
primitive nor the search for a method ever fails for want of operands.
-/

namespace ObjectMachine

/-- The faults of code that takes more operands than it has. -/
def Fault.starved : Fault → Bool
  | stackUnderflow _ | stackShortage _ _ _ => true
  | _ => false

/-- Where there is no answer, operands are not what is missing. -/
def Fed {α : Type} (x : Except Fault α) : Prop := ∀ f, x = .error f → f.starved = false

namespace Fed

variable {α β : Type}

theorem ok (a : α) : Fed (.ok a) := by
  intro f hf
  cases hf

theorem error {f : Fault} (h : f.starved = false) : Fed (.error f : Except Fault α) := by
  rintro _ ⟨⟩
  exact h

protected theorem bind {x : Except Fault α} {g : α → Except Fault β} (hx : Fed x)
    (hg : ∀ a, Fed (g a)) : Fed (x >>= g) := by
  cases x with
  | ok a => exact hg a
  | error f => exact error (hx f rfl)

end Fed

namespace Machine

variable (m : Machine)

theorem body_fed (v : Value) : Fed (m.body v) := by
  unfold body
  split
  · exact .ok _
  · exact .error rfl

theorem classOf_fed (v : Value) : Fed (m.classOf v) := by
  unfold classOf
  split
  case h_6 =>
    split
    · exact .error rfl
    · split
      · exact .ok _
      · split_ifs
        · exact .error rfl
        · exact .ok _
  all_goals exact .ok _

theorem lookupFrom_fed (selector : String) (fuel : Nat) (v : Value) :
    Fed (m.lookupFrom selector fuel v) := by
  induction fuel generalizing v with
  | zero => exact .ok _
  | succ fuel ih =>
    unfold lookupFrom
    split
    · apply Fed.bind
      · apply (m.body_fed _).bind
        intro body
        cases body with
        | dictionary d => exact .ok _
        | _ => exact .error rfl
      · intro found
        cases found with
        | some method => exact .ok _
        | none => exact ih _
    · exact .ok _

theorem resolve_fed (receiver : Value) (selector : String) : Fed (m.resolve receiver selector) := by
  apply (m.classOf_fed receiver).bind
  intro classRef
  exact (m.lookupFrom_fed _ _ _).bind fun _ => .ok _

theorem entry_fed (selector : String) (v : Value) : Fed (m.entry selector v) := by
  apply (m.body_fed v).bind
  intro body
  cases body with
  | method c => exact .ok _
  | _ => exact .error rfl

theorem program_fed (v : Value) : Fed (m.program v) := by
  apply (m.body_fed v).bind
  intro body
  cases body with
  | method | block => exact .ok _
  | _ => exact .error rfl

end Machine

theorem Machine.body?_of_entry {m : Machine} {selector : String} {method : Value} {c : Method}
    (h : m.entry selector method = .ok c) : m.memory.body? method = some (.method c) := by
  unfold entry at h
  cases hbody : m.body method with
  | error f =>
    rw [hbody] at h
    cases h
  | ok body =>
    rw [hbody] at h
    cases body with
    | method c' =>
      cases h
      exact body?_of_body hbody
    | _ => cases h

namespace Primitive

inductive Makes (m : Machine) : HeapObject → Prop
  | emptyBlock : Makes m (.new m.core.block (.block ⟨[], #[], 0, m.active⟩))
  | other {o : HeapObject} : o.body.lasts = false → Makes m o

end Primitive

/-- If this makes an object, then one that a primitive makes. If it calls, then the
receiver, with the arguments. -/
def Effect.Proper (m : Machine) (receiver : Value) (args : List Value) : Effect → Prop
  | create o => Primitive.Makes m o
  | call block args' => block = receiver ∧ args'.toList = args
  | _ => True

structure Primitive.Regular (m : Machine) (receiver : Value) (args : List Value)
    (r : Except Fault Effect) : Prop where
  fed : Fed r
  proper : ∀ e, r = .ok e → e.Proper m receiver args

namespace Primitive

variable {m : Machine} {receiver : Value} {args : List Value}

namespace Regular

theorem ok {e : Effect} (he : e.Proper m receiver args) : Regular m receiver args (.ok e) := by
  refine ⟨.ok e, ?_⟩
  rintro _ ⟨⟩
  exact he

theorem error {f : Fault} (hf : f.starved = false) : Regular m receiver args (.error f) := by
  refine ⟨.error hf, ?_⟩
  intro e he
  cases he

protected theorem bind {α : Type} {x : Except Fault α} {g : α → Except Fault Effect} (hx : Fed x)
    (hg : ∀ a, Regular m receiver args (g a)) : Regular m receiver args (x >>= g) := by
  cases x with
  | ok a => exact hg a
  | error f => exact error (hx f rfl)

end Regular

theorem number_fed (m : Machine) (v : Value) : Fed (number m v) := by
  unfold number
  split
  case h_3 =>
    apply (m.classOf_fed _).bind
    intro classRef
    split_ifs
    · exact .error rfl
    · exact .ok _
  all_goals exact .ok _

theorem integerOperands_fed (m : Machine) (receiver arg : Value) :
    Fed (integerOperands m receiver arg) := by
  apply (number_fed m receiver).bind
  intro a
  split
  · exact (number_fed m arg).bind fun _ => .ok _
  · exact .ok _

theorem floatOperands_fed (m : Machine) (receiver arg : Value) :
    Fed (floatOperands m receiver arg) := by
  apply (number_fed m receiver).bind
  intro a
  split
  · exact .ok _
  · exact (number_fed m arg).bind fun _ => .ok _

theorem place_fed (what : Indexed) (index : Int) (length : Nat) :
    Fed (place what index length) := by
  unfold place
  split_ifs
  · exact .ok _
  · exact .error rfl

theorem whole_regular (n : Nat) : Regular m receiver args (whole n) := by
  unfold whole Value.ofInt
  split
  · exact .ok trivial
  · exact .error rfl

theorem floatEffect_regular (f : Binary64 → Binary64 → Value) (arg : Value) :
    Regular m receiver args (floatEffect m f receiver arg) := by
  apply Regular.bind (floatOperands_fed m receiver arg)
  intro operands
  cases operands with
  | none => exact .ok trivial
  | some operands => exact .ok trivial

theorem effect_regular (m : Machine) (p : Primitive) (receiver : Value) (args : List Value) :
    Regular m receiver args (p.effect m receiver args) := by
  have hblank : ∀ size args, (Effect.create (m.blank receiver size)).Proper m receiver args :=
    fun size _ => .other (m.lasts_blank receiver size)
  unfold effect
  split
  case h_1 op arg =>
    apply Regular.bind (integerOperands_fed m receiver arg)
    rintro (_ | ⟨a, b | b⟩)
    · exact .ok trivial
    · dsimp only
      unfold integerResult
      split
      · exact .ok trivial
      · exact .error rfl
    · exact .ok trivial
  case h_2 op arg =>
    apply Regular.bind (integerOperands_fed m receiver arg)
    rintro (_ | ⟨a, b | b⟩) <;> exact .ok trivial
  case h_3 op arg => exact floatEffect_regular _ _
  case h_4 arg => exact floatEffect_regular _ _
  case h_5 op arg => exact floatEffect_regular _ _
  case h_6 => exact .bind (m.classOf_fed receiver) fun c => .ok trivial
  case h_7 => exact .ok .emptyBlock
  case h_8 =>
    split
    · exact .ok ⟨rfl, rfl⟩
    · exact .ok trivial
  case h_9 arg =>
    split
    · exact .ok ⟨rfl, rfl⟩
    · exact .ok trivial
  case h_10 =>
    split
    · exact whole_regular _
    · exact .ok trivial
  case h_11 arg =>
    split
    · exact .ok (.other rfl)
    · exact .ok trivial
  case h_12 index =>
    split
    · exact .bind (place_fed _ _ _) fun _ => .ok trivial
    · exact .ok trivial
  case h_13 index v =>
    split
    · exact .bind (place_fed _ _ _) fun _ => .ok trivial
    · exact .ok trivial
  case h_14 =>
    split
    · exact whole_regular _
    · exact .ok trivial
  case h_15 index =>
    split
    · exact .bind (place_fed _ _ _) fun _ => .ok trivial
    · exact .ok trivial
  case h_16 index v =>
    split
    · apply Regular.bind (place_fed _ _ _)
      intro place
      split_ifs
      · exact .ok trivial
      · exact .error rfl
    · exact .ok trivial
  case h_17 =>
    split
    · exact whole_regular _
    · exact .ok trivial
  case h_18 =>
    split_ifs
    · exact .ok (hblank 0 _)
    · exact .ok trivial
  case h_19 size =>
    split
    · split_ifs
      · exact .ok (hblank _ _)
      · exact .ok trivial
    · exact .ok trivial
  case h_20 => exact .ok trivial

end Primitive

section

variable {m : Machine} {index : Nat} {receiver : Value} {args : Array Value}

theorem Wants.regular {r : Except Fault Effect} (h : Wants m index receiver args r) :
    Primitive.Regular m receiver args.toList r := by
  obtain ⟨row, -, rfl⟩ := h
  exact row.primitive.effect_regular m receiver args.toList

end

namespace Body

/-- The ways in which running code writes to an object. -/
inductive Rewrites : (Body → Body) → Prop
  | slot (place : Nat) (v : Value) : Rewrites (.setSlot place v)
  | element (place : Nat) (v : Value) : Rewrites (.setElement place v)
  | byte (place : Nat) (byte : UInt8) : Rewrites (.setByte place byte)

/-- The bodies that running code cannot write to. -/
def isFixed : Body → Bool
  | slots _ | array _ | bytes _ => false
  | _ => true

theorem isFixed_of_lasts {b : Body} (h : b.lasts = true) : b.isFixed = true := by
  cases b with
  | slots | array | bytes => cases h
  | _ => rfl

/-- Fixed bodies are neither written to nor made by writing. -/
theorem Rewrites.eq_self {g : Body → Body} (hg : Rewrites g) {b : Body}
    (h : b.isFixed = true ∨ (g b).isFixed = true) : g b = b := by
  cases hg with
  | slot place v =>
    cases b with
    | slots => simp [setSlot, isFixed] at h
    | _ => rfl
  | element place v =>
    cases b with
    | array => simp [setElement, isFixed] at h
    | _ => rfl
  | byte place byte =>
    cases b with
    | bytes => simp [setByte, isFixed] at h
    | _ => rfl

end Body

end ObjectMachine

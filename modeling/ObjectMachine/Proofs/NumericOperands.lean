import ObjectMachine.Proofs.Keeping
import ObjectMachine.Proofs.Soundness

/-!
# Operands of the numeric primitives

Integers and floats are immediate, and a numeric primitive declines what is
neither. The integer class is a class like any other, though: a program can make
an instance of it, and dispatch takes the class itself for one of its own
instances. A primitive that reads such an operand stops at a fault. No other
operand does that.
-/

namespace ObjectMachine

/-- The value refers to an object that dispatch takes for an integer: the integer
class, or an instance of it. -/
def Machine.BoxedInteger (m : Machine) (v : Value) : Prop :=
  v = m.core.integer ∨
    ∃ o, m.memory.object? v = some o ∧ o.body.kind ≠ .classInfo ∧
      o.header.classRef = m.core.integer

/-- The number that an immediate value is. -/
def Value.number? : Value → Option Number
  | .integer n => some (.integer n.val)
  | .float x => some (.float x.toBinary64)
  | _ => none

section

variable {m : Machine}

theorem Machine.Intact.integer_class (h : m.Intact .strict) :
    ∃ c, m.memory.body? m.core.integer = some (.classInfo c) := by
  obtain ⟨inUse, h⟩ := h
  obtain ⟨s, hs, hclass⟩ := h.core m.core.integer (by simp [CoreClasses.values])
  obtain ⟨b, hb, hkind⟩ := Memory.body?_of_stamp hs
  rw [hclass] at hkind
  cases b <;> simp [Body.kind] at hkind
  exact ⟨_, hb⟩

theorem Machine.BoxedInteger.isPointer (h : m.Intact .strict) {v : Value}
    (hv : m.BoxedInteger v) : v.isPointer = true := by
  by_contra hp
  have hnone : m.memory.object? v = none := by
    cases v <;> first | rfl | simp [Value.isPointer] at hp
  rcases hv with rfl | ⟨o, ho, -⟩
  · obtain ⟨c, hc⟩ := h.integer_class
    simp [Memory.body?, hnone] at hc
  · simp [hnone] at ho

/-- Dispatch sends boxed integers, and no other objects, to the integer class. -/
theorem Machine.classOf_pointer_eq_integer (h : m.Intact .strict) {i : Nat}
    (hi : m.memory.Live (.pointer i)) :
    m.classOf (.pointer i) = .ok m.core.integer ↔ m.BoxedInteger (.pointer i) := by
  obtain ⟨o, ho⟩ : ∃ o, m.memory.object? (.pointer i) = some o :=
    ⟨_, Array.getElem?_eq_getElem hi⟩
  by_cases hkind : o.body.kind = .classInfo
  · obtain ⟨c, hc⟩ : ∃ c, o.body = .classInfo c := by
      cases hb : o.body <;> simp [hb, Body.kind] at hkind ⊢
    have hself : m.classOf (.pointer i) = .ok (.pointer i) := by simp [Machine.classOf, ho, hc]
    rw [hself, Except.ok.injEq, Machine.BoxedInteger]
    refine ⟨Or.inl, fun hboxed => hboxed.resolve_right ?_⟩
    rintro ⟨o', ho', hkind', -⟩
    exact hkind' (Option.some.inj (ho.symm.trans ho') ▸ hkind)
  · have hclass : m.classOf (.pointer i) = .ok o.header.classRef := by
      obtain ⟨c, hc, -⟩ := (Machine.classOf_grants h hi).succeeds (m.classOf_onlyBreaks _)
      rw [hc]
      unfold Machine.classOf at hc
      simp only [ho] at hc
      split at hc
      · next c' hb => exact absurd (by rw [hb]; rfl) hkind
      · split_ifs at hc
        exact hc.symm
    have hne : Value.pointer i ≠ m.core.integer := by
      rintro heq
      obtain ⟨c, hc⟩ := h.integer_class
      rw [← heq, Memory.body?, ho] at hc
      exact hkind (by rw [Option.some.inj hc]; rfl)
    rw [hclass, Except.ok.injEq, Machine.BoxedInteger]
    refine ⟨fun heq => .inr ⟨o, ho, hkind, heq⟩, fun hboxed => ?_⟩
    obtain ⟨o', ho', -, heq⟩ := hboxed.resolve_left hne
    exact Option.some.inj (ho.symm.trans ho') ▸ heq

end

namespace Primitive

def isNumeric : Primitive → Bool
  | integerArithmetic _ | integerComparison _ => true
  | floatArithmetic _ | floatDivide | floatComparison _ => true
  | _ => false

/-- The receivers for which a numeric primitive goes on to its argument. -/
def starts : Primitive → Number → Bool
  | integerArithmetic _, .float _ | integerComparison _, .float _ => false
  | _, _ => true

/-- What a numeric primitive makes of two numbers. -/
def compute : Primitive → Number → Number → Except Fault Effect
  | integerArithmetic op, .integer a, .integer b => integerResult op a b
  | integerArithmetic op, .integer a, .float b =>
    .ok (.answer (.ofBinary64 (op.onFloat (.ofInt a) b)))
  | integerComparison op, .integer a, .integer b => .ok (.answer (.bool (op.onInt a b)))
  | integerComparison op, .integer a, .float b => .ok (.answer (.bool (op.onFloat (.ofInt a) b)))
  | floatArithmetic op, a, b =>
    .ok (.answer (.ofBinary64 (op.onFloat a.toBinary64 b.toBinary64)))
  | floatDivide, a, b => .ok (.answer (.ofBinary64 (a.toBinary64.div b.toBinary64)))
  | floatComparison op, a, b => .ok (.answer (.bool (op.onFloat a.toBinary64 b.toBinary64)))
  | _, _, _ => .ok .decline

def numericIndices : List Nat := [1, 2, 3, 4, 6, 7, 10, 11, 12, 13, 14, 15, 16]

theorem row?_of_mem_numericIndices {index : Nat} (h : index ∈ numericIndices) :
    ∃ row, row? index = some row ∧ row.primitive.isNumeric = true := by
  have hall : ∀ index ∈ numericIndices,
      ((row? index).map fun row => row.primitive.isNumeric) = some true := by decide
  exact Option.map_eq_some_iff.mp (hall index h)

variable {m : Machine} {p : Primitive}

theorem number_of_boxed (h : m.Intact .strict) {v : Value} (hv : m.memory.Live v)
    (hboxed : m.BoxedInteger v) : number m v = .error (.boxedInteger v) := by
  have hp := hboxed.isPointer h
  cases v with
  | pointer i =>
    simp [number, (Machine.classOf_pointer_eq_integer h hv).mpr hboxed, bind, Except.bind]
  | _ => simp [Value.isPointer] at hp

theorem number_of_not_boxed (h : m.Intact .strict) {v : Value} (hv : m.memory.Live v)
    (hboxed : ¬m.BoxedInteger v) : number m v = .ok v.number? := by
  cases v with
  | pointer i =>
    obtain ⟨c, hc, -⟩ := (Machine.classOf_grants h hv).succeeds (m.classOf_onlyBreaks _)
    have hne : c ≠ m.core.integer := by
      rintro rfl
      exact hboxed ((Machine.classOf_pointer_eq_integer h hv).mp hc)
    simp [number, hc, hne, Value.number?, bind, Except.bind, pure, Except.pure]
  | _ => rfl

/-- All numeric primitives read their operands in the same way. -/
theorem effect_eq_of_isNumeric (hp : p.isNumeric = true) (receiver arg : Value) :
    p.effect m receiver [arg] = (do
      match ← number m receiver with
      | none => return .decline
      | some a =>
        if p.starts a then
          match ← number m arg with
          | none => return .decline
          | some b => p.compute a b
        else return .decline) := by
  cases p
  case integerArithmetic op | integerComparison op =>
    simp only [effect, integerOperands]
    rcases number m receiver with f | (_ | (a | x))
    · rfl
    · rfl
    · rcases number m arg with f | (_ | (b | y)) <;> rfl
    · rfl
  case floatArithmetic | floatDivide | floatComparison =>
    simp only [effect, floatEffect, floatOperands]
    rcases number m receiver with f | (_ | a)
    · rfl
    · rfl
    · rcases number m arg with f | (_ | b) <;> rfl
  all_goals exact absurd hp Bool.false_ne_true

theorem compute_cases (hp : p.isNumeric = true) {a : Number} (ha : p.starts a = true) (b : Number) :
    (∃ v, p.compute a b = .ok (.answer v)) ∨
      ∃ x sign y, p.compute a b = .error (.integerOverflow x sign y) := by
  cases p
  case integerArithmetic op =>
    rcases a with a | x
    · rcases b with b | y
      · simp only [compute, integerResult]
        split
        · exact .inl ⟨_, rfl⟩
        · exact .inr ⟨_, _, _, rfl⟩
      · exact .inl ⟨_, rfl⟩
    · exact absurd ha Bool.false_ne_true
  case integerComparison op =>
    rcases a with a | x
    · rcases b with b | y <;> exact .inl ⟨_, rfl⟩
    · exact absurd ha Bool.false_ne_true
  case floatArithmetic | floatDivide | floatComparison => exact .inl ⟨_, rfl⟩
  all_goals exact absurd hp Bool.false_ne_true

def takes (p : Primitive) (v : Value) : Prop := ∃ a, v.number? = some a ∧ p.starts a = true

/-- How a numeric primitive can end, by its operands. -/
inductive Ends (m : Machine) (p : Primitive) (receiver arg : Value) : Except Fault Effect → Prop
  | boxedReceiver : m.BoxedInteger receiver →
      Ends m p receiver arg (.error (.boxedInteger receiver))
  | refused : ¬m.BoxedInteger receiver → ¬p.takes receiver → Ends m p receiver arg (.ok .decline)
  | boxedArgument : p.takes receiver → m.BoxedInteger arg →
      Ends m p receiver arg (.error (.boxedInteger arg))
  | noNumber : p.takes receiver → ¬m.BoxedInteger arg → arg.number? = none →
      Ends m p receiver arg (.ok .decline)
  | answered {v : Value} : p.takes receiver → ¬m.BoxedInteger arg → arg.number? ≠ none →
      Ends m p receiver arg (.ok (.answer v))
  | overflow {x y : Int} {sign : String} : p.takes receiver → ¬m.BoxedInteger arg →
      arg.number? ≠ none →
      Ends m p receiver arg (.error (.integerOverflow x sign y))

theorem effect_ends (h : m.Intact .strict) (hp : p.isNumeric = true) {receiver arg : Value}
    (hr : m.memory.Live receiver) (ha : m.memory.Live arg) :
    Ends m p receiver arg (p.effect m receiver [arg]) := by
  rw [effect_eq_of_isNumeric hp]
  by_cases hboxed : m.BoxedInteger receiver
  · rw [number_of_boxed h hr hboxed]
    exact .boxedReceiver hboxed
  rw [number_of_not_boxed h hr hboxed]
  by_cases htakes : p.takes receiver
  · obtain ⟨a, hnumber, hstarts⟩ := htakes
    have htakes : p.takes receiver := ⟨a, hnumber, hstarts⟩
    simp only [hnumber, hstarts, Except.bind, bind, ↓reduceIte]
    by_cases hboxed' : m.BoxedInteger arg
    · rw [number_of_boxed h ha hboxed']
      exact .boxedArgument htakes hboxed'
    · rw [number_of_not_boxed h ha hboxed']
      cases hb : arg.number? with
      | none => exact .noNumber htakes hboxed' hb
      | some b =>
        rcases compute_cases hp hstarts b with ⟨v, hv⟩ | ⟨x, sign, y, hover⟩
        · simpa only [hv] using .answered htakes hboxed' (by simp [hb])
        · simpa only [hover] using .overflow htakes hboxed' (by simp [hb])
  · cases ha : receiver.number? with
    | none => exact .refused hboxed htakes
    | some a =>
      have hstarts : p.starts a = false := by
        by_contra hne
        exact htakes ⟨a, ha, Bool.eq_true_of_not_eq_false hne⟩
      have hends : Ends m p receiver arg (.ok .decline) := .refused hboxed htakes
      simpa [hstarts, bind, Except.bind, pure, Except.pure] using hends

theorem not_takes_of_boxed (h : m.Intact .strict) {v : Value} (hv : m.BoxedInteger v) :
    ¬p.takes v := by
  rintro ⟨a, ha, -⟩
  have hp := hv.isPointer h
  cases v <;> simp [Value.isPointer, Value.number?] at hp ha

end Primitive

open Primitive in
/-- A numeric primitive stops at a boxed integer exactly when it reads one: as its
receiver, or as the argument of a receiver it takes. It declines exactly when it
reads an operand that is neither that nor a number it can use. -/
theorem numeric_primitives_fault_only_at_boxed_integers {m : Machine} (h : Reachable .strict m)
    {index : Nat} (hindex : index ∈ numericIndices) {receiver arg : Value}
    (hr : m.memory.Live receiver) (ha : m.memory.Live arg) :
    ∃ row, row? index = some row ∧
      (∀ v m', tryPrimitive index receiver #[arg] m = .error (.fault (.boxedInteger v)) m' ↔
        m' = m ∧ m.BoxedInteger v ∧ (v = receiver ∨ v = arg ∧ row.primitive.takes receiver)) ∧
      ∀ m', tryPrimitive index receiver #[arg] m = .ok .declined m' ↔
        m' = m ∧ ¬m.BoxedInteger receiver ∧
          (row.primitive.takes receiver → ¬m.BoxedInteger arg ∧ arg.number? = none) := by
  have hintact := h.intact (by simp)
  obtain ⟨row, hrow, hnumeric⟩ := row?_of_mem_numericIndices hindex
  refine ⟨row, hrow, ?_⟩
  have htry : tryPrimitive index receiver #[arg] m =
      (Action.ofExcept (row.primitive.effect m receiver [arg]) >>= perform) m := by
    simp only [tryPrimitive, hrow]
    rfl
  have hboxed : m.BoxedInteger receiver → ¬row.primitive.takes receiver :=
    not_takes_of_boxed hintact
  have hends := effect_ends hintact hnumeric hr ha
  rw [htry]
  generalize row.primitive.effect m receiver [arg] = r at hends
  have herror : ∀ f, (Action.ofExcept (.error f) >>= perform) m = .error (.fault f) m :=
    fun _ => rfl
  have hdecline : (Action.ofExcept (.ok .decline) >>= perform) m = .ok .declined m := rfl
  have hanswer : ∀ v, (Action.ofExcept (.ok (.answer v)) >>= perform) m = .ok (.answered v) m :=
    fun _ => rfl
  cases hends with
  | boxedReceiver hreceiver =>
    simp only [herror]
    grind
  | refused hreceiver htakes =>
    simp only [hdecline]
    grind
  | boxedArgument htakes harg =>
    simp only [herror]
    grind
  | noNumber htakes harg hnumber =>
    simp only [hdecline]
    grind
  | answered htakes harg hnumber =>
    simp only [hanswer]
    grind
  | overflow htakes harg hnumber =>
    simp only [herror]
    grind

def Operation.newInteger (m : Machine) : Operation := .send 10 m.core.integer "new" #[]

theorem Operation.newInteger_admitted {d : Discipline} {m : Machine} (h : m.Intact d) :
    (newInteger m).Admitted d m := by
  obtain ⟨inUse, h⟩ := h
  refine ⟨⟨fun v hv => ?_, by simp [newInteger, outer?]⟩, fun _ => trivial, fun _ => trivial⟩
  obtain rfl : v = m.core.integer := by simpa [newInteger, values] using hv
  exact h.live_of_core (by simp [CoreClasses.values])

/-- A new machine makes an instance of the integer class, and adding it to three
stops at the fault. -/
theorem new_machine_stops_at_boxed_integer : ∃ m m' x,
    bootstrap .standard standardDepth = .ok m ∧ (Operation.newInteger m).run m = .ok x m' ∧
      m'.memory.Live x ∧
      ∃ m'', tryPrimitive 1 (.integer (.ofByte 3)) #[x] m' =
        .error (.fault (.boxedInteger x)) m'' := by
  have hboots : boots .standard standardDepth (fun m =>
      Action.answers (Operation.newInteger m).run m fun x m' =>
        (x.index?.any fun i => decide (x = .pointer i ∧ i < m'.memory.objects.size)) &&
          Action.stops (tryPrimitive 1 (.integer (.ofByte 3)) #[x]) m' fun s =>
            decide (s = .fault (.boxedInteger x))) = true := by decide +kernel
  obtain ⟨m, hboot, hanswers⟩ := exists_of_boots hboots
  obtain ⟨x, m', hnew, htest⟩ := Action.exists_of_answers hanswers
  obtain ⟨hindex, hstops⟩ := Bool.and_eq_true_iff.mp htest
  obtain ⟨i, -, hplace⟩ := (Option.any_eq_true _ _).mp hindex
  obtain ⟨rfl, hlive⟩ := of_decide_eq_true hplace
  obtain ⟨s, m'', hadd, hfault⟩ := Action.exists_of_stops hstops
  obtain rfl := of_decide_eq_true hfault
  exact ⟨m, m', .pointer i, hboot, hnew, hlive, m'', hadd⟩

theorem boxed_integer_reachable : ∃ m x, Reachable .strict m ∧ m.memory.Live x ∧
    ∃ m', tryPrimitive 1 (.integer (.ofByte 3)) #[x] m = .error (.fault (.boxedInteger x)) m' := by
  obtain ⟨m, m', x, hboot, hnew, hlive, hadd⟩ := new_machine_stops_at_boxed_integer
  have hreach : Reachable .strict m := .boot hboot
  have hadmitted := Operation.newInteger_admitted (hreach.intact (by simp))
  exact ⟨m', x, .answered hreach hadmitted hnew, hlive, hadd⟩

/-- Three is a receiver that addition takes, so its argument is read. -/
theorem addition_faults_only_at_boxed_integers : ∃ m x, Reachable .strict m ∧
    1 ∈ Primitive.numericIndices ∧ m.memory.Live (.integer (.ofByte 3)) ∧ m.memory.Live x ∧
      m.BoxedInteger x := by
  obtain ⟨m, x, hreach, hlive, m', hadd⟩ := boxed_integer_reachable
  have hindex : 1 ∈ Primitive.numericIndices := by decide
  have hthree : m.memory.Live (.integer (.ofByte 3)) := trivial
  obtain ⟨row, -, hfault, -⟩ :=
    numeric_primitives_fault_only_at_boxed_integers hreach hindex hthree hlive
  exact ⟨m, x, hreach, hindex, hthree, hlive, ((hfault x m').mp hadd).2.1⟩

open Primitive in
/-- Integers are not always immediate: the fault that says so can be reached. -/
theorem boxed_integer_fault_is_reachable :
    ¬∀ m, Reachable .strict m → ∀ index ∈ numericIndices, ∀ receiver arg,
      m.memory.Live receiver → m.memory.Live arg →
        ∀ v m', tryPrimitive index receiver #[arg] m ≠ .error (.fault (.boxedInteger v)) m' := by
  intro hnever
  obtain ⟨m, x, hreach, hlive, m', hadd⟩ := boxed_integer_reachable
  have hthree : m.memory.Live (.integer (.ofByte 3)) := trivial
  exact hnever m hreach 1 (by decide) _ x hthree hlive x m' hadd

end ObjectMachine

import ObjectMachine.Proofs.DecliningPrimitives
import ObjectMachine.Proofs.ExactIntegers

/-!
# Indexed objects are maps

An array and a byte array are both seen as a list of values under the indices from one
to their size. Reading gives what was put under that index last, on that same object, or
what was there from the start; nothing else in the machine changes, whatever other
indexed objects are used in between. An index that is none of these stops the machine
with that index in the message, except that a byte array declines a value that is no
integer before it looks at the index.
-/

namespace ObjectMachine

open ObjectMachine.Action

namespace Indexed

def reader : Indexed → Nat
  | array => 40
  | byteArray => 50

def writer : Indexed → Nat
  | array => 41
  | byteArray => 51

def sizer : Indexed → Nat
  | array => 42
  | byteArray => 52

/-- The values that can be elements. -/
def Holds : Indexed → Value → Prop
  | array, _ => True
  | byteArray, v => ∃ n, v = .integer n ∧ 0 ≤ n.val ∧ n.val ≤ 255

def store : Indexed → Nat → Value → Body → Body
  | array, place, v => .setElement place v
  | byteArray, place, .integer n => .setByte place (.ofNat n.val.toNat)
  | byteArray, _, _ => id

end Indexed

/-- What an array or a byte array holds, as values. -/
def Body.contents? : Body → Option (ObjectMachine.Indexed × Array Value)
  | .array elements => some (.array, elements)
  | .bytes data => some (.byteArray, data.map fun b => .integer (.ofByte b))
  | _ => none

def Memory.contents? (mem : Memory) (v : Value) : Option (ObjectMachine.Indexed × Array Value) :=
  (mem.body? v).bind Body.contents?

def SmallInteger.place (i : SmallInteger) : Nat := (i.val - 1).toNat

theorem SmallInteger.place_lt {i : SmallInteger} {length : Nat} (h₀ : 1 ≤ i.val)
    (h₁ : i.val ≤ length) : i.place < length := by
  rw [place]
  omega

theorem SmallInteger.ofByte_ofNat {n : SmallInteger} (h₀ : 0 ≤ n.val) (h₁ : n.val ≤ 255) :
    ofByte (.ofNat n.val.toNat) = n := by
  apply SmallInteger.eq_of_val
  change ((UInt8.ofNat n.val.toNat).toNat : Int) = n.val
  rw [UInt8.toNat_ofNat', Nat.mod_eq_of_lt (by omega)]
  omega

section

variable {what : ObjectMachine.Indexed} {values : Array Value} {b : Body} {mem : Memory}
  {v x : Value}

theorem Body.contents?_cases (h : b.contents? = some (what, values)) :
    (what = .array ∧ b = .array values) ∨
      ∃ data : Array UInt8, what = .byteArray ∧ b = .bytes data ∧
        values = data.map fun b => .integer (.ofByte b) := by
  cases b with
  | array elements =>
    cases h
    exact .inl ⟨rfl, rfl⟩
  | bytes data =>
    cases h
    exact .inr ⟨data, rfl, rfl, rfl⟩
  | _ => cases h

/-- What has been written is held at its place, and nothing else has changed. -/
theorem Body.contents?_store (h : b.contents? = some (what, values)) (hx : what.Holds x)
    (place : Nat) : (what.store place x b).contents? = some (what, values.set! place x) := by
  rcases contents?_cases h with ⟨rfl, rfl⟩ | ⟨data, rfl, rfl, rfl⟩
  · rfl
  · obtain ⟨n, rfl, h₀, h₁⟩ := hx
    have hbyte := SmallInteger.ofByte_ofNat h₀ h₁
    simp only [Indexed.store, setByte, contents?, Array.set!_eq_setIfInBounds,
      Array.map_setIfInBounds, hbyte]

theorem Memory.contents?_cases (h : mem.contents? v = some (what, values)) :
    (what = .array ∧ mem.body? v = some (.array values)) ∨
      ∃ data : Array UInt8, what = .byteArray ∧ mem.body? v = some (.bytes data) ∧
        values = data.map fun b => .integer (.ofByte b) := by
  obtain ⟨b, hb, hcontents⟩ := Option.bind_eq_some_iff.mp h
  rcases Body.contents?_cases hcontents with ⟨rfl, rfl⟩ | ⟨data, rfl, rfl, rfl⟩
  · exact .inl ⟨rfl, hb⟩
  · exact .inr ⟨data, rfl, hb, rfl⟩

theorem Memory.contents?_modifyBody_of_ne {u : Value} (h : v ≠ u) (g : Body → Body) :
    (mem.modifyBody v g).contents? u = mem.contents? u := by
  rw [contents?, body?_modifyBody, if_neg h, contents?]

theorem Memory.contents?_modifyBody_store (h : mem.contents? v = some (what, values))
    (hx : what.Holds x) (place : Nat) :
    (mem.modifyBody v (what.store place x)).contents? v = some (what, values.set! place x) := by
  obtain ⟨b, hb, hcontents⟩ := Option.bind_eq_some_iff.mp h
  rw [contents?, body?_modifyBody, if_pos rfl, hb]
  exact Body.contents?_store hcontents hx place

end

section

variable {m : Machine} {what : Indexed} {values : Array Value} {receiver v : Value}
  {i : SmallInteger}

theorem place_of_inside (h₀ : 1 ≤ i.val) {length : Nat} (h₁ : i.val ≤ length) :
    Primitive.place what i.val length = .ok i.place := if_pos ⟨h₀, h₁⟩

theorem place_of_outside {length : Nat} (h : ¬(1 ≤ i.val ∧ i.val ≤ length)) :
    Primitive.place what i.val length = .error (.elementOutOfBounds what i.val length) := if_neg h

theorem le_size_of_getElem? (h₀ : 1 ≤ i.val) (hv : values[i.place]? = some v) :
    i.val ≤ values.size := by
  have hlt := (Array.getElem?_eq_some_iff.mp hv).1
  rw [SmallInteger.place] at hlt
  omega

theorem reader_wants (h : m.memory.contents? receiver = some (what, values)) (h₀ : 1 ≤ i.val)
    (hv : values[i.place]? = some v) :
    Wants m what.reader receiver #[.integer i] (.ok (.answer v)) := by
  have hsize := le_size_of_getElem? h₀ hv
  rcases Memory.contents?_cases h with ⟨rfl, hbody⟩ | ⟨data, rfl, hbody, rfl⟩
  · refine ⟨_, rfl, ?_⟩
    simp only [Primitive.effect, hbody, place_of_inside h₀ hsize]
    change Except.ok (Effect.answer (values[i.place]?.getD .nil)) = _
    rw [hv]
    rfl
  · refine ⟨_, rfl, ?_⟩
    rw [Array.size_map] at hsize
    rw [Array.getElem?_map] at hv
    obtain ⟨byte, hbyte, rfl⟩ := Option.map_eq_some_iff.mp hv
    simp only [Primitive.effect, hbody, place_of_inside h₀ hsize]
    change Except.ok (Effect.answer (.integer (.ofByte (data[i.place]?.getD 0)))) = _
    rw [hbyte]
    rfl

theorem reader_wants_fault (h : m.memory.contents? receiver = some (what, values))
    (hi : ¬(1 ≤ i.val ∧ i.val ≤ values.size)) :
    Wants m what.reader receiver #[.integer i]
      (.error (.elementOutOfBounds what i.val values.size)) := by
  rcases Memory.contents?_cases h with ⟨rfl, hbody⟩ | ⟨data, rfl, hbody, rfl⟩
  · refine ⟨_, rfl, ?_⟩
    simp only [Primitive.effect, hbody, place_of_outside hi]
    rfl
  · refine ⟨_, rfl, ?_⟩
    rw [Array.size_map] at hi ⊢
    simp only [Primitive.effect, hbody, place_of_outside hi]
    rfl

def Indexed.putEffect : Indexed → Value → Nat → Value → Effect
  | array, receiver, place, v => .putElement receiver place v
  | byteArray, receiver, place, .integer n =>
    .putByte receiver place (.ofNat n.val.toNat) (.integer n)
  | byteArray, _, _, _ => .decline

theorem writer_wants (h : m.memory.contents? receiver = some (what, values)) (h₀ : 1 ≤ i.val)
    (h₁ : i.val ≤ values.size) (hv : what.Holds v) :
    Wants m what.writer receiver #[.integer i, v] (.ok (what.putEffect receiver i.place v)) := by
  rcases Memory.contents?_cases h with ⟨rfl, hbody⟩ | ⟨data, rfl, hbody, rfl⟩
  · refine ⟨_, rfl, ?_⟩
    simp only [Primitive.effect, hbody, place_of_inside h₀ h₁]
    rfl
  · obtain ⟨n, rfl, hn⟩ := hv
    refine ⟨_, rfl, ?_⟩
    rw [Array.size_map] at h₁
    simp only [Primitive.effect, hbody, place_of_inside h₀ h₁]
    change (if _ then _ else _ : Except Fault Effect) = _
    rw [if_pos hn]
    rfl

/-- Whether the primitive looks at a value at all: for a byte array it must be an integer. -/
def Indexed.Considers : Indexed → Value → Prop
  | array, _ => True
  | byteArray, v => v.isInteger = true

theorem writer_wants_fault (h : m.memory.contents? receiver = some (what, values))
    (hi : ¬(1 ≤ i.val ∧ i.val ≤ values.size)) (hv : what.Considers v) :
    Wants m what.writer receiver #[.integer i, v]
      (.error (.elementOutOfBounds what i.val values.size)) := by
  rcases Memory.contents?_cases h with ⟨rfl, hbody⟩ | ⟨data, rfl, hbody, rfl⟩
  · refine ⟨_, rfl, ?_⟩
    simp only [Primitive.effect, hbody, place_of_outside hi]
    rfl
  · cases v with
    | integer n =>
      refine ⟨_, rfl, ?_⟩
      rw [Array.size_map] at hi ⊢
      simp only [Primitive.effect, hbody, place_of_outside hi]
      rfl
    | _ => cases hv

theorem writer_declines (hv : ¬what.Considers v) :
    Wants m what.writer receiver #[.integer i, v] (.ok .decline) := by
  cases what with
  | array => exact absurd trivial hv
  | byteArray =>
    cases v with
    | integer n => exact absurd rfl hv
    | _ => exact ⟨_, rfl, rfl⟩

theorem sizer_wants (h : m.memory.contents? receiver = some (what, values)) {n : SmallInteger}
    (hn : n.val = values.size) : Wants m what.sizer receiver #[] (.ok (.answer (.integer n))) := by
  have hwhole : Primitive.whole values.size = .ok (.answer (.integer n)) := by
    rw [Primitive.whole, Value.ofInt, Value.ofInt?_eq_some_iff.mpr ⟨n, hn, rfl⟩]
    rfl
  rcases Memory.contents?_cases h with ⟨rfl, hbody⟩ | ⟨data, rfl, hbody, rfl⟩
  · refine ⟨_, rfl, ?_⟩
    simp only [Primitive.effect, hbody]
    exact hwhole
  · refine ⟨_, rfl, ?_⟩
    rw [Array.size_map] at hwhole
    simp only [Primitive.effect, hbody]
    exact hwhole

theorem Wants.unique {p : Nat} {args : Array Value} {r r' : Except Fault Effect}
    (h : Wants m p receiver args r) (h' : Wants m p receiver args r') : r' = r := by
  obtain ⟨row, hrow, rfl⟩ := h
  obtain ⟨row', hrow', rfl⟩ := h'
  rw [hrow] at hrow'
  cases hrow'
  rfl

theorem exists_taken {p : Nat} {args : Array Value} (hrow : (Primitive.row? p).isSome)
    (htaken : ¬Wants m p receiver args (.ok .decline)) :
    ∃ r, Wants m p receiver args r ∧ r ≠ .ok .decline := by
  obtain ⟨row, hrow⟩ := Option.isSome_iff_exists.mp hrow
  exact ⟨_, ⟨row, hrow, rfl⟩, fun h => htaken ⟨row, hrow, h⟩⟩

theorem eq_of_toList {args : Array Value} {l : List Value} (h : args.toList = l) :
    args = l.toArray := by
  rw [← h, Array.toArray_toList]

theorem reader_takes {args : Array Value} (h : ¬Wants m what.reader receiver args (.ok .decline)) :
    ∃ values i, m.memory.contents? receiver = some (what, values) ∧ args = #[.integer i] := by
  obtain ⟨r, ⟨row, hrow, heffect⟩, hr⟩ := exists_taken (by cases what <;> rfl) h
  rcases hargs : args.toList with _ | ⟨index, _ | ⟨x, rest⟩⟩ <;> rw [hargs] at heffect <;>
    cases what <;> cases hrow
  case cons.nil.array =>
    simp only [Primitive.effect] at heffect
    split at heffect
    next i elements hbody =>
      exact ⟨elements, i, by rw [Memory.contents?, hbody]; rfl, eq_of_toList hargs⟩
    · exact absurd heffect.symm hr
  case cons.nil.byteArray =>
    simp only [Primitive.effect] at heffect
    split at heffect
    next i data hbody =>
      exact ⟨_, i, by rw [Memory.contents?, hbody]; rfl, eq_of_toList hargs⟩
    · exact absurd heffect.symm hr
  all_goals exact absurd heffect.symm hr

theorem writer_takes {args : Array Value} (h : ¬Wants m what.writer receiver args (.ok .decline)) :
    ∃ values i v, m.memory.contents? receiver = some (what, values) ∧
      args = #[.integer i, v] ∧ what.Considers v := by
  obtain ⟨r, ⟨row, hrow, heffect⟩, hr⟩ := exists_taken (by cases what <;> rfl) h
  rcases hargs : args.toList with _ | ⟨index, _ | ⟨x, _ | ⟨y, rest⟩⟩⟩ <;>
    rw [hargs] at heffect <;> cases what <;> cases hrow
  case cons.cons.nil.array =>
    simp only [Primitive.effect] at heffect
    split at heffect
    next i elements hbody =>
      exact ⟨elements, i, x, by rw [Memory.contents?, hbody]; rfl, eq_of_toList hargs, trivial⟩
    · exact absurd heffect.symm hr
  case cons.cons.nil.byteArray =>
    simp only [Primitive.effect] at heffect
    split at heffect
    next i n data hbody =>
      exact ⟨_, i, .integer n, by rw [Memory.contents?, hbody]; rfl, eq_of_toList hargs, rfl⟩
    · exact absurd heffect.symm hr
  all_goals exact absurd heffect.symm hr

/-- A value that is looked at and is no element is refused, by a fault that only depends on it. -/
theorem writer_refuses (h₀ : 1 ≤ i.val) (h₁ : i.val ≤ values.size) (hv : what.Considers v)
    (hno : ¬what.Holds v) : ∃ f, ∀ (m : Machine) (receiver : Value),
      m.memory.contents? receiver = some (what, values) →
        Wants m what.writer receiver #[.integer i, v] (.error f) := by
  cases what with
  | array => exact absurd trivial hno
  | byteArray =>
    cases v with
    | integer n =>
      refine ⟨.byteOutOfRange n.val, fun m receiver h => ?_⟩
      rcases Memory.contents?_cases h with ⟨hwhat, -⟩ | ⟨data, -, hbody, rfl⟩
      · cases hwhat
      · refine ⟨_, rfl, ?_⟩
        rw [Array.size_map] at h₁
        simp only [Primitive.effect, hbody, place_of_inside h₀ h₁]
        exact if_neg fun hn => hno ⟨n, rfl, hn⟩
    | _ => cases hv

theorem perform_putEffect (m : Machine) (receiver : Value) (place : Nat) (hv : what.Holds v) :
    perform (what.putEffect receiver place v) m =
      .ok (.answered v) (m.write receiver (what.store place v)) := by
  cases what with
  | array => rfl
  | byteArray =>
    obtain ⟨n, rfl, -⟩ := hv
    rfl

end

/-- The ways of handing a request to a primitive: the host calls it, or a message is sent, by a
program or by the host, whose method has that primitive. -/
inductive Hands (m : Machine) (p : Nat) (receiver : Value) (args : Array Value) :
    Action (Option Value) → Prop
  | call (fuel : Nat) : Hands m p receiver args (callPrimitive fuel p receiver args)
  | start {selector : String} {method : Value} {c : Method} {m₁ : Machine} :
      Finds m receiver selector args method c m₁ → c.primitive = some p →
      Hands m p receiver args (startSend receiver selector args)
  | send {selector : String} {method : Value} {c : Method} {m₁ : Machine} (fuel : Nat) :
      Finds m receiver selector args method c m₁ → c.primitive = some p →
      Hands m p receiver args (some <$> send fuel receiver selector args)

section

variable {m : Machine} {p : Nat} {what : Indexed} {values : Array Value} {receiver v : Value}
  {i : SmallInteger} {args : Array Value} {x : Action (Option Value)}

theorem Finds.exists_journal {selector : String} {method : Value} {c : Method} {m₁ : Machine}
    (h : Finds m receiver selector args method c m₁) : ∃ journal, m₁ = { m with journal } := by
  cases h
  exact ⟨_, rfl⟩

/-- A request is a trial of the primitive, with at most one more entry in the journal. -/
theorem Hands.exists_trial (h : Hands m p receiver args x) : ∃ journal,
    (∀ v m', tryPrimitive p receiver args { m with journal } = .ok (.answered v) m' →
        x m = .ok (some v) m') ∧
      ∀ f m', tryPrimitive p receiver args { m with journal } = .error (.fault f) m' →
        x m = .error (.fault f) m' := by
  cases h with
  | call fuel =>
    refine ⟨m.journal, fun v m' htry => ?_, fun f m' htry => ?_⟩
    · rw [callPrimitive_eq, bind_ok htry]
      rfl
    · rw [callPrimitive_eq, bind_error htry]
      rfl
  | start hfinds hp =>
    have hstart := hfinds.startSend_eq_conclude hp
    obtain ⟨journal, rfl⟩ := hfinds.exists_journal
    refine ⟨journal, fun v m' htry => ?_, fun f m' htry => ?_⟩
    · rw [hstart, bind_ok htry]
      rfl
    · rw [hstart, bind_error htry]
  | send fuel hfinds hp =>
    have hstart := hfinds.startSend_eq_conclude hp
    obtain ⟨journal, rfl⟩ := hfinds.exists_journal
    refine ⟨journal, fun v m' htry => ?_, fun f m' htry => ?_⟩
    · rw [bind_ok htry] at hstart
      rw [map_eq_pure_bind, send_eq_launch, bind_ok (launch_eq_answer hstart)]
      rfl
    · rw [bind_error htry] at hstart
      rw [map_eq_pure_bind, send_eq_launch, bind_error (launch_eq_error hstart)]

theorem Hands.faults {f : Fault} (hx : Hands m p receiver args x)
    (h : ∀ journal, Wants { m with journal } p receiver args (.error f)) :
    ∃ journal, x m = .error (.fault f) { m with journal } := by
  obtain ⟨journal, -, hfault⟩ := hx.exists_trial
  exact ⟨journal, hfault f _ (tryPrimitive_eq_error _ _ _ _ (h journal))⟩

theorem Hands.answers (hx : Hands m p receiver args x)
    (h : ∀ journal, Wants { m with journal } p receiver args (.ok (.answer v))) :
    ∃ journal, x m = .ok (some v) { m with journal } := by
  obtain ⟨journal, hanswer, -⟩ := hx.exists_trial
  exact ⟨journal, hanswer v _ (tryPrimitive_eq _ _ _ _ (h journal))⟩

theorem Hands.puts (hx : Hands m what.writer receiver #[.integer i, v] x)
    (h : m.memory.contents? receiver = some (what, values)) (h₀ : 1 ≤ i.val)
    (h₁ : i.val ≤ values.size) (hv : what.Holds v) : ∃ journal,
      x m = .ok (some v) (Machine.write { m with journal } receiver (what.store i.place v)) := by
  obtain ⟨journal, hanswer, -⟩ := hx.exists_trial
  have hwants := writer_wants (m := { m with journal }) h h₀ h₁ hv
  have htry := tryPrimitive_eq _ _ _ _ hwants
  rw [perform_putEffect _ _ _ hv] at htry
  exact ⟨journal, hanswer v _ htry⟩

end

structure Exchange where
  primitive : Nat
  receiver : Value
  args : Array Value
  answer : Value

def Exchange.put? (target : Value) (i : SmallInteger) (e : Exchange) : Option Value :=
  if (e.primitive = Indexed.array.writer ∨ e.primitive = Indexed.byteArray.writer) ∧
      e.receiver = target ∧ e.args[0]? = some (.integer i) then e.args[1]?
  else none

def lastPut (target : Value) (i : SmallInteger) (history : List Exchange) : Option Value :=
  history.reverse.findSome? (Exchange.put? target i)

/-- A reader or a writer takes the request and answers it. -/
inductive Machine.Answers (m : Machine) (e : Exchange) (m' : Machine) : Prop
  | intro {what : ObjectMachine.Indexed} {x : Action (Option Value)} :
      e.primitive = what.reader ∨ e.primitive = what.writer →
      Hands m e.primitive e.receiver e.args x →
      ¬Wants m e.primitive e.receiver e.args (.ok .decline) →
      x m = .ok (some e.answer) m' → Answers m e m'

/-- Exchanges with whatever objects, one after the other. -/
inductive Machine.Exchanges (m : Machine) : List Exchange → Machine → Prop
  | none : Exchanges m [] m
  | next {history : List Exchange} {e : Exchange} {m₁ m₂ : Machine} :
      Exchanges m history m₁ → m₁.Answers e m₂ → Exchanges m (history ++ [e]) m₂

/-- What an answered request has done. -/
inductive Machine.Serves (m : Machine) : Exchange → Machine → Prop
  | read {what : ObjectMachine.Indexed} {receiver v : Value} {i : SmallInteger}
      (journal : Array Event) :
      Serves m ⟨what.reader, receiver, #[.integer i], v⟩ { m with journal }
  | written {what : ObjectMachine.Indexed} {values : Array Value} {receiver v : Value}
      {i : SmallInteger} (journal : Array Event) :
      m.memory.contents? receiver = some (what, values) → 1 ≤ i.val → i.val ≤ values.size →
      what.Holds v →
      Serves m ⟨what.writer, receiver, #[.integer i, v], v⟩
        (Machine.write { m with journal } receiver (what.store i.place v))

section

variable {m m' : Machine} {e : Exchange} {what : ObjectMachine.Indexed} {values : Array Value}
  {receiver target v : Value} {i : SmallInteger} {args : Array Value} {x : Action (Option Value)}

theorem serves_of_reader (hx : Hands m what.reader receiver args x)
    (htaken : ¬Wants m what.reader receiver args (.ok .decline)) (hok : x m = .ok (some v) m') :
    m.Serves ⟨what.reader, receiver, args, v⟩ m' := by
  obtain ⟨values, i, h, rfl⟩ := reader_takes htaken
  by_cases hi : 1 ≤ i.val ∧ i.val ≤ values.size
  · have hv := Array.getElem?_eq_getElem (SmallInteger.place_lt hi.1 hi.2)
    obtain ⟨journal, hread⟩ := hx.answers fun journal =>
      reader_wants (m := { m with journal }) h hi.1 hv
    rw [hread] at hok
    cases hok
    exact .read journal
  · obtain ⟨journal, hfault⟩ := hx.faults fun journal =>
      reader_wants_fault (m := { m with journal }) h hi
    rw [hfault] at hok
    cases hok

theorem serves_of_writer (hx : Hands m what.writer receiver args x)
    (htaken : ¬Wants m what.writer receiver args (.ok .decline)) (hok : x m = .ok (some v) m') :
    m.Serves ⟨what.writer, receiver, args, v⟩ m' := by
  obtain ⟨values, i, v', h, rfl, hconsiders⟩ := writer_takes htaken
  by_cases hi : 1 ≤ i.val ∧ i.val ≤ values.size
  · by_cases hholds : what.Holds v'
    · obtain ⟨journal, hput⟩ := hx.puts h hi.1 hi.2 hholds
      rw [hput] at hok
      cases hok
      exact .written journal h hi.1 hi.2 hholds
    · obtain ⟨f, hf⟩ := writer_refuses hi.1 hi.2 hconsiders hholds
      obtain ⟨journal, hfault⟩ := hx.faults fun journal => hf { m with journal } receiver h
      rw [hfault] at hok
      cases hok
  · obtain ⟨journal, hfault⟩ := hx.faults fun journal =>
      writer_wants_fault (m := { m with journal }) h hi hconsiders
    rw [hfault] at hok
    cases hok

theorem Machine.Answers.serves (h : m.Answers e m') : m.Serves e m' := by
  obtain ⟨hp, hx, htaken, hok⟩ := h
  obtain ⟨p, receiver, args, v⟩ := e
  rcases hp with rfl | rfl
  · exact serves_of_reader hx htaken hok
  · exact serves_of_writer hx htaken hok

/-- The indices from one on have places of their own. -/
theorem SmallInteger.place_inj {k : SmallInteger} (hi : 1 ≤ i.val) (hk : 1 ≤ k.val) :
    k.place = i.place ↔ k = i := by
  refine ⟨fun h => ?_, congrArg _⟩
  apply SmallInteger.eq_of_val
  rw [place, place] at h
  omega

theorem Exchange.put?_reader (p : Nat) (receiver : Value) (index : Value) :
    put? target i ⟨p, receiver, #[index], v⟩ = none := ite_self _

theorem Exchange.put?_writer (k : SmallInteger) : put? target i
      ⟨what.writer, receiver, #[.integer k, v], v⟩ =
    if receiver = target ∧ k = i then some v else none := by
  have hwriter : what.writer = Indexed.array.writer ∨ what.writer = Indexed.byteArray.writer := by
    cases what
    · exact .inl rfl
    · exact .inr rfl
  simp [put?, hwriter]

/-- An exchange leaves the size of every indexed object, and each element unless it
has put another one there. -/
theorem Machine.Serves.contents (h : m.Serves e m')
    (hcontents : m.memory.contents? target = some (what, values)) :
    ∃ values', m'.memory.contents? target = some (what, values') ∧ values'.size = values.size ∧
      ∀ i, 1 ≤ i.val → values'[i.place]? = (e.put? target i).or values[i.place]? := by
  cases h with
  | read journal =>
    refine ⟨values, hcontents, rfl, fun i _ => ?_⟩
    rw [Exchange.put?_reader, Option.none_or]
  | @written what' values' receiver v k journal hreceiver h₀ h₁ hv =>
    by_cases hsame : receiver = target
    · subst hsame
      rw [hcontents] at hreceiver
      cases hreceiver
      refine ⟨_, Memory.contents?_modifyBody_store hcontents hv k.place, by simp, fun i hi => ?_⟩
      rw [Exchange.put?_writer, Array.set!_eq_setIfInBounds]
      by_cases hki : k = i
      · have hlt := SmallInteger.place_lt h₀ h₁
        rw [if_pos ⟨rfl, hki⟩, Option.some_or, ← hki, Array.getElem?_setIfInBounds_self_of_lt hlt]
      · have hplace : k.place ≠ i.place := fun h => hki ((SmallInteger.place_inj hi h₀).mp h)
        rw [if_neg fun h => hki h.2, Option.none_or, Array.getElem?_setIfInBounds_ne hplace]
    · refine ⟨values, (Memory.contents?_modifyBody_of_ne hsame _).trans hcontents, rfl,
        fun i _ => ?_⟩
      rw [Exchange.put?_writer, if_neg fun h => hsame h.1, Option.none_or]

theorem lastPut_append (target : Value) (i : SmallInteger) (history : List Exchange)
    (e : Exchange) : lastPut target i (history ++ [e]) =
      (e.put? target i).or (lastPut target i history) := by
  rw [lastPut, List.reverse_append, List.reverse_singleton, List.singleton_append,
    List.findSome?_cons, lastPut]
  cases e.put? target i <;> rfl

/-- After a sequence of exchanges an element is the one put last, or the initial one. -/
theorem Machine.Exchanges.contents {history : List Exchange} (h : m.Exchanges history m')
    (hcontents : m.memory.contents? target = some (what, values)) :
    ∃ values', m'.memory.contents? target = some (what, values') ∧ values'.size = values.size ∧
      ∀ i, 1 ≤ i.val → values'[i.place]? = (lastPut target i history).or values[i.place]? := by
  induction h with
  | none => exact ⟨values, hcontents, rfl, fun i _ => (Option.none_or).symm⟩
  | @next history e m₁ m₂ _ he ih =>
    obtain ⟨values₁, hcontents₁, hsize₁, hvalues₁⟩ := ih
    obtain ⟨values₂, hcontents₂, hsize₂, hvalues₂⟩ := he.serves.contents hcontents₁
    refine ⟨values₂, hcontents₂, hsize₂.trans hsize₁, fun i hi => ?_⟩
    rw [hvalues₂ i hi, hvalues₁ i hi, lastPut_append, Option.or_assoc]

/-- Nothing but the elements of one object changes, and the journal. -/
structure Machine.ChangesOnly (m : Machine) (v : Value) (m' : Machine) : Prop where
  others : ∀ u, u ≠ v → m'.memory.object? u = m.memory.object? u
  header : (m'.memory.object? v).map HeapObject.header = (m.memory.object? v).map HeapObject.header
  rest : m' = { m with
    memory := { m.memory with objects := m'.memory.objects }, journal := m'.journal }

theorem Memory.object?_modifyBody (mem : Memory) (v u : Value) (g : Body → Body) :
    (mem.modifyBody v g).object? u =
      if v = u then (mem.object? u).map fun o => { o with body := g o.body }
      else mem.object? u := by
  cases u with
  | pointer i => exact mem.getElem?_modifyBody v g i
  | _ => simp [object?]

theorem Machine.Serves.changesOnly (h : m.Serves e m') : m.ChangesOnly e.receiver m' := by
  cases h with
  | read journal => exact ⟨fun _ _ => rfl, rfl, rfl⟩
  | @written what values receiver v k journal =>
    refine ⟨fun u hu => ?_, ?_, ?_⟩
    · exact (Memory.object?_modifyBody _ _ _ _).trans (if_neg hu.symm)
    · refine (congrArg _ ((Memory.object?_modifyBody _ _ _ _).trans (if_pos rfl))).trans ?_
      rw [Option.map_map]
      rfl
    · cases receiver <;> rfl

end

/-- The place of an index reckoned in signed 64-bit words, and the index named again when
it is out of bounds; none if either step leaves the words. -/
def Primitive.placeOnWords (what : ObjectMachine.Indexed) (index : BitVec 64) (length : Nat) :
    Option (Except Fault Nat) := do
  let place ← Arithmetic.subtract.checked index 1
  if place.toInt < 0 ∨ length ≤ place.toNat then
    let index ← Arithmetic.add.checked place 1
    return .error (.elementOutOfBounds what index.toInt length)
  return .ok place.toNat

/-- A result that stays within the words is exact. -/
theorem Arithmetic.exists_checked (op : Arithmetic) {x y : BitVec 64} {r : Int}
    (hr : op.onInt x.toInt y.toInt = r) (h₀ : -0x8000000000000000 ≤ r)
    (h₁ : r < 0x8000000000000000) : ∃ w, op.checked x y = some w ∧ w.toInt = r := by
  have hno : ¬op.overflows x y = true := by
    rw [overflows_iff, hr]
    omega
  exact ⟨op.onWords x y, if_neg hno, (toInt_onWords hno).trans hr⟩

theorem Primitive.placeOnWords_payload (what : ObjectMachine.Indexed) (i : SmallInteger)
    (length : Nat) : placeOnWords what i.payload length = some (place what i.val length) := by
  have hmin := i.min_le
  have hmax := i.le_max
  have hone : (1 : BitVec 64).toInt = 1 := by decide
  obtain ⟨w, hw, hplace⟩ : ∃ w, Arithmetic.subtract.checked i.payload 1 = some w ∧
      w.toInt = i.val - 1 := by
    refine Arithmetic.subtract.exists_checked ?_ (by omega) (by omega)
    rw [i.toInt_payload, hone]
    rfl
  obtain ⟨w', hw', hindex⟩ : ∃ w', Arithmetic.add.checked w 1 = some w' ∧ w'.toInt = i.val := by
    refine Arithmetic.add.exists_checked ?_ (by omega) (by omega)
    rw [hplace, hone]
    exact Int.sub_add_cancel i.val 1
  -- A place that is not negative is the same number as a word without sign.
  have hnat : 0 ≤ i.val - 1 → w.toNat = (i.val - 1).toNat := by
    have hsigned := w.toInt_eq_toNat_cond
    split_ifs at hsigned <;> omega
  rw [placeOnWords, hw, Option.bind_eq_bind, Option.bind_some]
  by_cases hinside : 1 ≤ i.val ∧ i.val ≤ length
  · have hcheck : ¬(w.toInt < 0 ∨ length ≤ w.toNat) := by omega
    rw [if_neg hcheck, place_of_inside hinside.1 hinside.2, hnat (by omega)]
    rfl
  · have hcheck : w.toInt < 0 ∨ length ≤ w.toNat := by omega
    rw [if_pos hcheck, place_of_outside hinside, hw', Option.bind_some, hindex]
    rfl

section

variable {m m' : Machine} {what : Indexed} {values : Array Value} {receiver target v : Value}
  {i : SmallInteger} {x : Action (Option Value)}

theorem Hands.answers_put (hx : Hands m what.writer receiver #[.integer i, v] x)
    (h : m.memory.contents? receiver = some (what, values)) (h₀ : 1 ≤ i.val)
    (h₁ : i.val ≤ values.size) (hv : what.Holds v) :
    ∃ m', x m = .ok (some v) m' ∧ m.Answers ⟨what.writer, receiver, #[.integer i, v], v⟩ m' := by
  obtain ⟨journal, hput⟩ := hx.puts h h₀ h₁ hv
  refine ⟨_, hput, .intro (.inr rfl) hx (fun hdecline => ?_) hput⟩
  have heffect := (writer_wants h h₀ h₁ hv).unique hdecline
  cases what with
  | array => cases heffect
  | byteArray =>
    obtain ⟨n, rfl, -⟩ := hv
    cases heffect

theorem Hands.answers_read (hx : Hands m what.reader receiver #[.integer i] x)
    (h : m.memory.contents? receiver = some (what, values)) (h₀ : 1 ≤ i.val)
    (hv : values[i.place]? = some v) :
    ∃ m', x m = .ok (some v) m' ∧ m.Answers ⟨what.reader, receiver, #[.integer i], v⟩ m' := by
  obtain ⟨journal, hread⟩ := hx.answers fun journal =>
    reader_wants (m := { m with journal }) h h₀ hv
  refine ⟨_, hread, .intro (.inl rfl) hx (fun hdecline => ?_) hread⟩
  cases (reader_wants h h₀ hv).unique hdecline

/-- After any sequence of exchanges, with it and with whatever other objects, an indexed
object is a map from the indices from one to its size. An element is put under each of them
and answered; an index answers what was put there last, or the initial element; the size
stays; and an exchange changes no object but the one it is made with. Any other index stops
the machine with a message that names it and the size, with nothing written, and no reckoning
leaves 64-bit words. A value for a byte array that is no integer is declined under whatever
index, so that one out of bounds goes unnoticed then. -/
theorem indexed_objects_are_maps {initial : Array Value} {history : List Exchange}
    (h : m.memory.contents? target = some (what, initial)) (hhistory : m.Exchanges history m') :
    (∀ i : SmallInteger, 1 ≤ i.val → i.val ≤ initial.size →
      (∀ v x, what.Holds v → Hands m' what.writer target #[.integer i, v] x →
        ∃ m'', x m' = .ok (some v) m'' ∧
          m'.Answers ⟨what.writer, target, #[.integer i, v], v⟩ m'') ∧
      ∀ x, Hands m' what.reader target #[.integer i] x →
        ∃ v m'', (lastPut target i history).or initial[i.place]? = some v ∧
          x m' = .ok (some v) m'' ∧ m'.Answers ⟨what.reader, target, #[.integer i], v⟩ m'') ∧
    (∀ (n : SmallInteger) x, n.val = initial.size → Hands m' what.sizer target #[] x →
      ∃ journal, x m' = .ok (some (.integer n)) { m' with journal }) ∧
    (∀ e m'', m'.Answers e m'' → m'.ChangesOnly e.receiver m'') ∧
    (∀ i : SmallInteger, ¬(1 ≤ i.val ∧ i.val ≤ initial.size) →
      ∃ f : Fault, f.message = s!"{what.name} index {i.val} out of bounds 1..={initial.size}" ∧
        (∀ x, Hands m' what.reader target #[.integer i] x →
          ∃ journal, x m' = .error (.fault f) { m' with journal }) ∧
        ∀ v x, what.Considers v → Hands m' what.writer target #[.integer i, v] x →
          ∃ journal, x m' = .error (.fault f) { m' with journal }) ∧
    (∀ i : SmallInteger, Primitive.placeOnWords what i.payload initial.size =
      some (Primitive.place what i.val initial.size)) ∧
    ∀ (i : SmallInteger) (v : Value), ¬what.Considers v →
      (∀ fuel, callPrimitive fuel what.writer target #[.integer i, v] m' = .ok none m') ∧
      ∀ selector method c m₁, Finds m' target selector #[.integer i, v] method c m₁ →
        c.primitive = some what.writer →
        Calls m' target selector #[.integer i, v] (c.call method target #[.integer i, v])
          (m₁.note (.declined what.writer selector)) := by
  obtain ⟨values, hcontents, hsize, hvalues⟩ := hhistory.contents h
  refine ⟨fun i h₀ h₁ => ⟨fun v x hv hx => ?_, fun x hx => ?_⟩, fun n x hn hx => ?_,
    fun e m'' he => he.serves.changesOnly,
    fun i hi => ⟨.elementOutOfBounds what i.val initial.size, rfl, fun x hx => ?_,
      fun v x hv hx => ?_⟩,
    fun i => Primitive.placeOnWords_payload what i _, fun i v hv => ⟨fun fuel => ?_, ?_⟩⟩
  · exact hx.answers_put hcontents h₀ (by rwa [hsize]) hv
  · have hlt : i.place < values.size := SmallInteger.place_lt h₀ (by rwa [hsize])
    have hv := Array.getElem?_eq_getElem hlt
    obtain ⟨m'', hread, hanswers⟩ := hx.answers_read hcontents h₀ hv
    exact ⟨_, m'', (hvalues i h₀).symm.trans hv, hread, hanswers⟩
  · rw [← hsize] at hn
    exact hx.answers fun journal => sizer_wants (m := { m' with journal }) hcontents hn
  · rw [← hsize] at hi ⊢
    exact hx.faults fun journal => reader_wants_fault (m := { m' with journal }) hcontents hi
  · rw [← hsize] at hi ⊢
    exact hx.faults fun journal => writer_wants_fault (m := { m' with journal }) hcontents hi hv
  · rw [callPrimitive_eq, bind_ok (tryPrimitive_eq _ _ _ _ (writer_declines hv))]
    rfl
  · intro selector method c m₁ hfinds hp
    exact .declined hfinds hp (writer_declines hv)

end

/-- A machine that holds an array of one element and a byte array of two. -/
def crate : Machine :=
  ⟨⟨.standard, 8, #[.new .nil (.array #[.nil]), .new .nil (.bytes #[1, 2])], 0, #[]⟩, .none, .empty,
    .empty, #[], none, 0, 10, #[]⟩

theorem crate_contents : crate.memory.contents? (.pointer 1) =
    some (.byteArray, #[.integer (.ofByte 1), .integer (.ofByte 2)]) := by
  simp [crate, Memory.contents?, Memory.body?, Memory.object?, HeapObject.new, Body.contents?]

/-- Bytes put into the crate stay there whatever is put into its array. -/
theorem crate_keeps_its_bytes : ∃ history m', crate.Exchanges history m' ∧ history.length = 2 ∧
    (∃ m'', callPrimitive 0 50 (.pointer 1) #[.integer (.ofByte 2)] m' =
      .ok (some (.integer (.ofByte 7))) m'') ∧
    ∃ m'', callPrimitive 0 50 (.pointer 1) #[.integer (.ofByte 1)] m' =
      .ok (some (.integer (.ofByte 1))) m'' := by
  have harray : crate.memory.contents? (.pointer 0) = some (.array, #[.nil]) := rfl
  obtain ⟨hmap, -⟩ := indexed_objects_are_maps crate_contents .none
  obtain ⟨m₁, -, hfirst⟩ := (hmap (.ofByte 2) (by decide) (by decide)).1 (.integer (.ofByte 7)) _
    ⟨_, rfl, by decide, by decide⟩ (.call 0)
  obtain ⟨hmap, -⟩ := indexed_objects_are_maps harray (.next .none hfirst)
  obtain ⟨m₂, -, hsecond⟩ := (hmap (.ofByte 1) (by decide) (by decide)).1 (.bool true) _ trivial
    (.call 0)
  obtain ⟨hmap, -⟩ := indexed_objects_are_maps crate_contents (.next (.next .none hfirst) hsecond)
  refine ⟨_, m₂, .next (.next .none hfirst) hsecond, rfl, ?_, ?_⟩
  · obtain ⟨v, m₃, hv, hread, -⟩ := (hmap (.ofByte 2) (by decide) (by decide)).2 _ (.call 0)
    obtain rfl := Option.some.inj hv
    exact ⟨m₃, hread⟩
  · obtain ⟨v, m₃, hv, hread, -⟩ := (hmap (.ofByte 1) (by decide) (by decide)).2 _ (.call 0)
    obtain rfl := Option.some.inj hv
    exact ⟨m₃, hread⟩

/-- Not every index out of bounds is noticed: the byte array of the crate declines `nil`
under the index 99, and nothing stops. -/
theorem misplaced_nil_goes_unnoticed :
    ¬∀ (m : Machine) (target : Value) (what : Indexed) (values : Array Value),
      m.memory.contents? target = some (what, values) → ∀ (i : SmallInteger) (v : Value),
        ¬(1 ≤ i.val ∧ i.val ≤ values.size) → ∀ x, Hands m what.writer target #[.integer i, v] x →
          ∃ f m', x m = .error (.fault f) m' := by
  intro hnoticed
  obtain ⟨f, m', hfault⟩ := hnoticed crate (.pointer 1) .byteArray _ crate_contents (.ofByte 99)
    .nil (by decide) _ (.call 0)
  have hdeclined : callPrimitive 0 51 (.pointer 1) #[.integer (.ofByte 99), .nil] crate =
      .ok none crate := rfl
  cases hdeclined.symm.trans hfault

end ObjectMachine

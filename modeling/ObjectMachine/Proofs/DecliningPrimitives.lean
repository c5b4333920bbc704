import ObjectMachine.Proofs.Effects
import ObjectMachine.Proofs.Runs

/-!
# Primitives that decline

A primitive looks at its operands before it does anything, so one that declines has
left the machine as it was, and the code of its method runs with operands that are
still good. What else a primitive can come to depends on which it is: a few make
objects, two call a block, two write one element, and the others only answer.
-/

namespace ObjectMachine

open ObjectMachine.Action

namespace Primitive

def allocates : Primitive → Bool
  | blockNew | stringConcat | basicNew | basicNewSized => true
  | _ => false

def calls : Primitive → Bool
  | blockValue | blockValueArg => true
  | _ => false

def arity : Primitive → Nat
  | basicClass | blockNew | blockValue | stringSize | arraySize | byteArraySize | basicNew => 0
  | arrayAtPut | byteArrayAtPut => 2
  | _ => 1

theorem row?_spec {index : Nat} {row : PrimitiveRow} (h : row? index = some row) :
    row ∈ table ∧ row.index = index :=
  ⟨List.mem_of_find?_eq_some h, by simpa using List.find?_some h⟩

theorem index_of_allocates {index : Nat} {row : PrimitiveRow} (h : row? index = some row)
    (hp : row.primitive.allocates = true) : index ∈ [20, 31, 60, 61] := by
  have hall : ∀ row ∈ table, row.primitive.allocates = true → row.index ∈ [20, 31, 60, 61] := by
    decide
  obtain ⟨hmem, rfl⟩ := row?_spec h
  exact hall row hmem hp

theorem index_of_calls {index : Nat} {row : PrimitiveRow} (h : row? index = some row)
    (hp : row.primitive.calls = true) : index ∈ [21, 22] := by
  have hall : ∀ row ∈ table, row.primitive.calls = true → row.index ∈ [21, 22] := by decide
  obtain ⟨hmem, rfl⟩ := row?_spec h
  exact hall row hmem hp

theorem arity_of_row {index : Nat} {row : PrimitiveRow} (h : row? index = some row) :
    row.primitive.arity = row.arity := by
  have hall : ∀ row ∈ table, row.primitive.arity = row.arity := by decide
  exact hall row (row?_spec h).1

section

variable (m : Machine) (receiver : Value) (args : List Value)

/-- The faults of a primitive: an operand without a class or one that is a boxed integer, a
result that does not fit, or an element or a byte that cannot be. -/
inductive Stumbles : Fault → Prop
  | dangling {v : Value} : v ∈ receiver :: args → m.memory.object? v = none →
      Stumbles (.classOfDangling v)
  | classless {v : Value} {o : HeapObject} : v ∈ receiver :: args →
      m.memory.object? v = some o → o.header.classRef.isNil = true →
      Stumbles (.classless o.body.kind v)
  | boxedInteger {v : Value} : v ∈ receiver :: args → m.classOf v = .ok m.core.integer →
      Stumbles (.boxedInteger v)
  | overflow (a b : Int) (op : Arithmetic) : Value.ofInt? (op.onInt a b) = none →
      Stumbles (.integerOverflow a op.sign b)
  | tooLong (n : Nat) : Value.ofInt? n = none → Stumbles (.integerOutOfRange n)
  | outside {i : SmallInteger} (what : Indexed) (length : Nat) : .integer i ∈ args →
      ¬(1 ≤ i.val ∧ i.val ≤ length) → Stumbles (.elementOutOfBounds what i.val length)
  | byte {n : SmallInteger} : .integer n ∈ args → ¬(0 ≤ n.val ∧ n.val ≤ 255) →
      Stumbles (.byteOutOfRange n.val)

inductive Comes (p : Primitive) : Except Fault Effect → Prop
  | fault {f : Fault} : Stumbles m receiver args f → Comes p (.error f)
  | decline : Comes p (.ok .decline)
  | answer (v : Value) : Comes p (.ok (.answer v))
  | element {i : SmallInteger} {v : Value} {elements : Array Value} : args = [.integer i, v] →
      m.memory.body? receiver = some (.array elements) → 1 ≤ i.val → i.val ≤ elements.size →
      Comes p (.ok (.putElement receiver (i.val - 1).toNat v))
  | byte {i n : SmallInteger} {bytes : Array UInt8} : args = [.integer i, .integer n] →
      m.memory.body? receiver = some (.bytes bytes) → 1 ≤ i.val → i.val ≤ bytes.size →
      0 ≤ n.val → n.val ≤ 255 →
      Comes p (.ok (.putByte receiver (i.val - 1).toNat (.ofNat n.val.toNat) (.integer n)))
  | create (o : HeapObject) : p.allocates = true → Comes p (.ok (.create o))
  | call {b : Block} : p.calls = true → m.memory.body? receiver = some (.block b) →
      Comes p (.ok (.call receiver args.toArray))

end

variable {m : Machine} {receiver : Value} {args : List Value} {p : Primitive}

protected theorem Comes.bind {α : Type} {x : Except Fault α} {g : α → Except Fault Effect}
    (hx : ∀ f, x = .error f → Stumbles m receiver args f)
    (hg : ∀ a, x = .ok a → Comes m receiver args p (g a)) : Comes m receiver args p (x >>= g) := by
  cases x with
  | ok a => exact hg a rfl
  | error f => exact .fault (hx f rfl)

theorem stumbles_of_classOf {v : Value} (hv : v ∈ receiver :: args) {f : Fault}
    (h : m.classOf v = .error f) : Stumbles m receiver args f := by
  unfold Machine.classOf at h
  split at h
  case h_6 =>
    split at h
    · cases h
      exact .dangling hv ‹_›
    · split at h
      · cases h
      · split_ifs at h with hnil
        cases h
        exact .classless hv ‹_› hnil
  all_goals cases h

theorem stumbles_of_number {v : Value} (hv : v ∈ receiver :: args) {f : Fault}
    (h : number m v = .error f) : Stumbles m receiver args f := by
  unfold number at h
  split at h
  case h_3 i =>
    cases hclass : m.classOf (.pointer i) with
    | error f' =>
      rw [hclass] at h
      cases h
      exact stumbles_of_classOf hv hclass
    | ok c =>
      simp only [hclass, bind, Except.bind] at h
      split_ifs at h with hinteger
      · cases h
        exact .boxedInteger hv (by rw [hclass, hinteger])
      · cases h
  all_goals cases h

theorem stumbles_of_bind {α β : Type} {x : Except Fault α} {g : α → Except Fault β} {f : Fault}
    (h : x >>= g = .error f) (hx : x = .error f → Stumbles m receiver args f)
    (hg : ∀ a, g a = .error f → Stumbles m receiver args f) : Stumbles m receiver args f := by
  cases x with
  | ok a => exact hg a h
  | error f' =>
    cases h
    exact hx rfl

/-- The operands of a numeric primitive are the receiver and its one argument. -/
theorem stumbles_of_integerOperands {arg : Value} {f : Fault}
    (h : integerOperands m receiver arg = .error f) : Stumbles m receiver [arg] f := by
  apply stumbles_of_bind h (stumbles_of_number (by simp))
  rintro (_ | (a | x)) h
  · cases h
  · apply stumbles_of_bind h (stumbles_of_number (by simp))
    intro b h
    cases h
  · cases h

theorem stumbles_of_floatOperands {arg : Value} {f : Fault}
    (h : floatOperands m receiver arg = .error f) : Stumbles m receiver [arg] f := by
  apply stumbles_of_bind h (stumbles_of_number (by simp))
  rintro (_ | a) h
  · cases h
  · apply stumbles_of_bind h (stumbles_of_number (by simp))
    intro b h
    cases h

theorem floatEffect_comes (g : Binary64 → Binary64 → Value) (arg : Value) :
    Comes m receiver [arg] p (floatEffect m g receiver arg) := by
  apply Comes.bind
  · intro f hf
    exact stumbles_of_floatOperands hf
  · intro operands _
    cases operands with
    | none => exact .decline
    | some operands => exact .answer _

theorem integerResult_comes (op : Arithmetic) (a b : Int) :
    Comes m receiver args p (integerResult op a b) := by
  unfold integerResult
  cases h : Value.ofInt? (op.onInt a b) with
  | none => exact .fault (.overflow a b op h)
  | some v => exact .answer v

theorem whole_comes (n : Nat) : Comes m receiver args p (whole n) := by
  unfold whole Value.ofInt
  cases h : Value.ofInt? n with
  | none => exact .fault (.tooLong n h)
  | some v => exact .answer v

theorem place_cases (what : Indexed) (index : Int) (length : Nat) :
    ((1 ≤ index ∧ index ≤ length) ∧ place what index length = .ok (index - 1).toNat) ∨
      (¬(1 ≤ index ∧ index ≤ length) ∧
        place what index length = .error (.elementOutOfBounds what index length)) := by
  unfold place
  by_cases h : 1 ≤ index ∧ index ≤ length <;> simp [h]

theorem Comes.place {what : Indexed} {i : SmallInteger} {length : Nat}
    {g : Nat → Except Fault Effect} (hi : .integer i ∈ args)
    (hg : 1 ≤ i.val → i.val ≤ length → Comes m receiver args p (g (i.val - 1).toNat)) :
    Comes m receiver args p (Primitive.place what i.val length >>= g) := by
  rcases place_cases what i.val length with ⟨hinside, hplace⟩ | ⟨houtside, hplace⟩
  · rw [hplace]
    exact hg hinside.1 hinside.2
  · rw [hplace]
    exact .fault (.outside what length hi houtside)

theorem effect_comes (m : Machine) (p : Primitive) (receiver : Value) (args : List Value) :
    Comes m receiver args p (p.effect m receiver args) := by
  unfold effect
  split
  case h_1 op arg =>
    apply Comes.bind
    · intro f hf
      exact stumbles_of_integerOperands hf
    · rintro (_ | ⟨a, b | b⟩) _
      · exact .decline
      · exact integerResult_comes op a b
      · exact .answer _
  case h_2 op arg =>
    apply Comes.bind
    · intro f hf
      exact stumbles_of_integerOperands hf
    · rintro (_ | ⟨a, b | b⟩) _
      · exact .decline
      · exact .answer _
      · exact .answer _
  case h_3 op arg => exact floatEffect_comes _ arg
  case h_4 arg => exact floatEffect_comes _ arg
  case h_5 op arg => exact floatEffect_comes _ arg
  case h_6 =>
    apply Comes.bind
    · intro f hf
      exact stumbles_of_classOf (by simp) hf
    · intro c _
      exact .answer c
  case h_7 => exact .create _ rfl
  case h_8 =>
    split
    case h_1 b hb => exact .call rfl hb
    case h_2 => exact .decline
  case h_9 arg =>
    split
    case h_1 b hb => exact .call rfl hb
    case h_2 => exact .decline
  case h_10 =>
    split
    · exact whole_comes _
    · exact .decline
  case h_11 arg =>
    split
    · exact .create _ rfl
    · exact .decline
  case h_12 index =>
    split
    · exact .place (by simp) fun _ _ => .answer _
    · exact .decline
  case h_13 index v =>
    split
    case h_1 i elements hbody =>
      exact .place (by simp) fun hlow hhigh => .element rfl hbody hlow hhigh
    case h_2 => exact .decline
  case h_14 =>
    split
    · exact whole_comes _
    · exact .decline
  case h_15 index =>
    split
    · exact .place (by simp) fun _ _ => .answer _
    · exact .decline
  case h_16 index v =>
    split
    case h_1 i n bytes hbody =>
      apply Comes.place (by simp)
      intro hlow hhigh
      split_ifs with hbyte
      · exact .byte rfl hbody hlow hhigh hbyte.1 hbyte.2
      · exact .fault (.byte (by simp) hbyte)
    case h_2 => exact .decline
  case h_17 =>
    split
    · exact whole_comes _
    · exact .decline
  case h_18 =>
    split_ifs
    · exact .create _ rfl
    · exact .decline
  case h_19 size =>
    split
    · split_ifs
      · exact .create _ rfl
      · exact .decline
    · exact .decline
  case h_20 => exact .decline

/-- No primitive looks for an argument that it is not given. -/
theorem effect_of_arity (m : Machine) {p : Primitive} (receiver : Value) {args : List Value}
    (h : args.length ≠ p.arity) : p.effect m receiver args = .ok .decline := by
  unfold effect
  split
  case h_20 => rfl
  all_goals exact absurd rfl h

end Primitive

section

variable {m m' : Machine} {index fuel : Nat} {row : PrimitiveRow} {receiver : Value}
  {args : Array Value}

/-- What is left after a primitive that makes no object and runs no code: the machine, or the
machine with one element of the receiver written. -/
inductive Touches (m : Machine) (receiver : Value) (args : Array Value) : Machine → Prop
  | nothing : Touches m receiver args m
  | element {i : SmallInteger} {v : Value} {elements : Array Value} : args = #[.integer i, v] →
      m.memory.body? receiver = some (.array elements) → 1 ≤ i.val → i.val ≤ elements.size →
      Touches m receiver args (m.write receiver (.setElement (i.val - 1).toNat v))
  | byte {i n : SmallInteger} {bytes : Array UInt8} : args = #[.integer i, .integer n] →
      m.memory.body? receiver = some (.bytes bytes) → 1 ≤ i.val → i.val ≤ bytes.size →
      0 ≤ n.val → n.val ≤ 255 →
      Touches m receiver args
        (m.write receiver (.setByte (i.val - 1).toNat (.ofNat n.val.toNat)))

theorem Touches.memory (h : Touches m receiver args m') :
    m'.memory.objects.size = m.memory.objects.size ∧
      m'.memory.collections = m.memory.collections := by
  cases h with
  | nothing => exact ⟨rfl, rfl⟩
  | element | byte =>
    cases receiver <;> simp [Machine.write, Memory.modifyBody, Memory.modifyObject]

theorem Wants.comes (hrow : Primitive.row? index = some row) {r : Except Fault Effect}
    (h : Wants m index receiver args r) :
    Primitive.Comes m receiver args.toList row.primitive r := by
  obtain ⟨row', hrow', rfl⟩ := h
  rw [hrow] at hrow'
  cases hrow'
  exact row.primitive.effect_comes m receiver args.toList

theorem collectionFault_of_allocate {o : HeapObject} {s : Stop} (h : allocate o m = .error s m') :
    ∃ f, s = .fault f ∧ CollectionFault f := by
  unfold allocate at h
  split_ifs at h
  cases hc : m.memory.collect (m.roots ++ o.roots) with
  | error f =>
    simp only [hc] at h
    cases h
    exact ⟨f, rfl, Memory.collectionFault_of_collect hc⟩
  | ok c =>
    simp only [hc] at h
    cases h

inductive Tries (m : Machine) (row : PrimitiveRow) (receiver : Value) (args : Array Value) :
    EStateM.Result Stop Machine Reply → Prop
  | declined : Tries m row receiver args (.ok .declined m)
  | stumbled {f : Fault} : Primitive.Stumbles m receiver args.toList f →
      Tries m row receiver args (.error (.fault f) m)
  | answered {v : Value} {m' : Machine} : Touches m receiver args m' →
      Tries m row receiver args (.ok (.answered v) m')
  | created {v : Value} {m' : Machine} : row.primitive.allocates = true →
      Tries m row receiver args (.ok (.answered v) m')
  | failed {f : Fault} {m' : Machine} : row.primitive.allocates = true → CollectionFault f →
      Tries m row receiver args (.error (.fault f) m')
  | entered {m' : Machine} : row.primitive.calls = true →
      Tries m row receiver args (.ok .entered m')
  | tooDeep : row.primitive.calls = true →
      Tries m row receiver args (.error (.raised (.depthExceeded m.maxDepth)) m)

theorem tryPrimitive_tries (hrow : Primitive.row? index = some row) (m : Machine)
    (receiver : Value) (args : Array Value) :
    Tries m row receiver args (tryPrimitive index receiver args m) := by
  have hrules := tryPrimitive_rules m index receiver args
  generalize tryPrimitive index receiver args m = r at hrules
  cases hrules with
  | unknown hnone =>
    rw [hrow] at hnone
    cases hnone
  | broken hwants =>
    cases hwants.comes hrow with
    | fault hstumbles => exact .stumbled hstumbles
  | declined => exact .declined
  | @answered e v m' hwants hperforms =>
    have hcomes := hwants.comes hrow
    generalize hr : EStateM.Result.ok v m' = r at hperforms
    cases hperforms with
    | answer =>
      cases hr
      exact .answered .nothing
    | putElement =>
      cases hr
      cases hcomes with
      | element hargs hbody hlow hhigh =>
        exact .answered (.element (Array.toList_inj.mp hargs) hbody hlow hhigh)
    | putByte =>
      cases hr
      cases hcomes with
      | byte hargs hbody hlow hhigh hbyte hlimit =>
        exact .answered (.byte (Array.toList_inj.mp hargs) hbody hlow hhigh hbyte hlimit)
    | create =>
      cases hcomes with
      | create _ hallocates => exact .created hallocates
  | @failed e s m' hwants hperforms =>
    have hcomes := hwants.comes hrow
    generalize hr : EStateM.Result.error s m' = r at hperforms
    cases hperforms with
    | create =>
      obtain ⟨f, rfl, hfault⟩ := collectionFault_of_allocate hr.symm
      cases hcomes with
      | create _ hallocates => exact .failed hallocates hfault
    | _ => cases hr
  | notBlock hwants hnone =>
    cases hwants.comes hrow with
    | call _ hbody => exact absurd hbody (hnone _)
  | entered hwants =>
    cases hwants.comes hrow with
    | call hcalls => exact .entered hcalls
  | tooDeep hwants =>
    cases hwants.comes hrow with
    | call hcalls => exact .tooDeep hcalls

/-- A call of a primitive is an attempt, and the run of the block if one has become active. -/
def Reply.follow (base fuel : Nat) : Reply → Action (Option Value)
  | declined => return none
  | answered v => return some v
  | entered => return some (← run base fuel)

theorem callPrimitive_eq (m : Machine) (fuel index : Nat) (receiver : Value)
    (args : Array Value) :
    callPrimitive fuel index receiver args m = unwindRaised m.depth
      ((tryPrimitive index receiver args >>= Reply.follow m.depth fuel) m) := by
  rw [callPrimitive, protect_eq, bind_get]
  congr 1

/-- A primitive that runs no code ends at once, where the attempt has ended. -/
theorem callPrimitive_of_not_calls (hrow : Primitive.row? index = some row) (m : Machine)
    (fuel : Nat) (receiver : Value) (args : Array Value) (hcalls : row.primitive.calls = false) :
    (tryPrimitive index receiver args m = .ok .declined m ∧
        callPrimitive fuel index receiver args m = .ok none m) ∨
      (∃ v m', tryPrimitive index receiver args m = .ok (.answered v) m' ∧
        callPrimitive fuel index receiver args m = .ok (some v) m') ∨
      ∃ f m', tryPrimitive index receiver args m = .error (.fault f) m' ∧
        callPrimitive fuel index receiver args m = .error (.fault f) m' := by
  have htries := tryPrimitive_tries hrow m receiver args
  rw [callPrimitive_eq]
  generalize htry : tryPrimitive index receiver args m = r at htries
  cases htries with
  | declined =>
    rw [bind_ok htry]
    exact .inl ⟨rfl, rfl⟩
  | answered | created =>
    rw [bind_ok htry]
    exact .inr (.inl ⟨_, _, rfl, rfl⟩)
  | stumbled | failed =>
    rw [bind_error htry]
    exact .inr (.inr ⟨_, _, rfl, rfl⟩)
  | entered h | tooDeep h =>
    rw [hcalls] at h
    cases h

theorem eq_of_declined (hrow : Primitive.row? index = some row)
    (h : tryPrimitive index receiver args m = .ok .declined m') : m' = m := by
  have htries := tryPrimitive_tries hrow m receiver args
  rw [h] at htries
  cases htries
  rfl

/-- Only a primitive that declines gives no answer. -/
theorem declined_of_callPrimitive (h : callPrimitive fuel index receiver args m = .ok none m') :
    tryPrimitive index receiver args m = .ok .declined m' := by
  rw [callPrimitive_eq] at h
  cases htry : tryPrimitive index receiver args m with
  | error s m₁ =>
    rw [bind_error htry] at h
    cases s <;> cases h
  | ok reply m₁ =>
    rw [bind_ok htry] at h
    cases reply with
    | declined =>
      cases h
      rfl
    | answered v => cases h
    | entered =>
      rw [Reply.follow] at h
      cases hrun : run m.depth fuel m₁ with
      | ok v m₂ =>
        rw [bind_ok hrun] at h
        cases h
      | error s m₂ =>
        rw [bind_error hrun] at h
        cases s <;> cases h

/-- The code of a method whose primitive has declined starts in the machine that the send has
found, with the operands of the send. -/
theorem fallback_of_declined (hrow : Primitive.row? index = some row) {m₀ : Machine}
    {selector : String} {method : Value} {c : Method}
    (hfinds : Finds m₀ receiver selector args method c m) (hprimitive : c.primitive = some index)
    (htry : tryPrimitive index receiver args m = .ok .declined m') :
    (∃ e, m = m₀.note e) ∧ m.memory.body? method = some (.method c) ∧
      startSend receiver selector args m₀ =
        (c.call method receiver args).start (m.note (.declined index selector)) := by
  have hsend := hfinds.startSend_eq_conclude hprimitive
  rw [bind_ok htry, eq_of_declined hrow htry] at hsend
  refine ⟨?_, ?_, hsend⟩
  · cases hfinds
    exact ⟨_, rfl⟩
  · cases hfinds with
    | found _ hentry => exact Machine.body?_of_entry hentry

theorem callPrimitive_of_arity (hrow : Primitive.row? index = some row)
    (h : args.size ≠ row.arity) : callPrimitive fuel index receiver args m = .ok none m := by
  have harity : args.toList.length ≠ row.primitive.arity := by
    rwa [Array.length_toList, Primitive.arity_of_row hrow]
  have hwants : Wants m index receiver args (.ok .decline) :=
    ⟨row, hrow, Primitive.effect_of_arity m receiver harity⟩
  rw [callPrimitive_eq, bind_ok (tryPrimitive_eq m index receiver args hwants)]
  rfl

end

/-- A machine that holds an array of two elements. -/
def shelf : Machine :=
  ⟨⟨.standard, 8, #[.new .nil (.array #[.nil, .nil])], 0, #[]⟩, .none, .empty, .empty, #[], none, 0,
    10, #[]⟩

end ObjectMachine

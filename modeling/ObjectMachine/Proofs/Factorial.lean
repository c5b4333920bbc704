import ObjectMachine.Proofs.ExactIntegers
import ObjectMachine.Proofs.FreshMachine
import ObjectMachine.Proofs.Stretches
import ObjectMachine.Samples
import Mathlib.Data.Nat.Factorial.Basic

/-!
# The factorial sample

Each activation of the sample tests its receiver, and unless that is one it asks the
predecessor for its factorial and multiplies. So a receiver from one on needs as many
contexts as it says. A receiver below one counts down until either no further context
may be entered or there is no integer left below.
-/

namespace ObjectMachine

open ObjectMachine.Action

def factorialCode : Code :=
  (Samples.factorial .nil).toOption.elim [] fun d => d.assembly.code

/-- The instructions with their offsets. The branch for one is from 21 on, the other one
from 32 on. -/
def factorialListing : List (Nat × Instruction) :=
  [(0, .pushSelf), (1, .pushLiteral 0), (6, .send 1 1), (15, .duplicate), (16, .jump .ifFalse 11),
    (21, .pop), (22, .pushLiteral 0), (27, .jump .always 35),
    (32, .pop), (33, .pushSelf), (34, .pushSelf), (35, .pushLiteral 0), (40, .send 2 1),
    (49, .send 3 0), (58, .send 4 1), (67, .returnTop)]

theorem fetch?_factorialCode {pc : Nat} {i : Instruction} (h : (pc, i) ∈ factorialListing) :
    factorialCode.fetch? pc = some (.ok i) := by
  have hall : ∀ e ∈ factorialListing,
      (factorialCode.fetch? e.1).map Except.toOption = some (some e.2) := by decide +kernel
  obtain ⟨r, hr, hok⟩ := Option.map_eq_some_iff.mp (hall _ h)
  rw [hr, eq_ok_of_toOption hok]

theorem length_factorialCode : factorialCode.length = 68 := by decide +kernel

def factorialSelectors : List (Nat × String) := [(1, "="), (2, "-"), (3, "factorial"), (4, "*")]

def factorialPrimitives : List (String × Nat) := [("=", 3), ("-", 4), ("*", 2)]

def SmallInteger.one : SmallInteger := .ofByte 1

theorem SmallInteger.exists_factorial {j : Nat} (hj : j ≤ 19) :
    ∃ a : SmallInteger, a.val = j.factorial := by
  have hle := Nat.factorial_le hj
  have hlast : Nat.factorial 19 = 121645100408832000 := by decide
  exact ⟨⟨j.factorial, by omega, by omega⟩, rfl⟩

namespace Machine

/-- Integers have the sample as `x`, and the primitives for the messages that it sends. -/
structure HasFactorial (m : Machine) (method : Value) (x : Method) : Prop where
  understands : m.Understands "factorial" method x
  plain : x.primitive = none
  code : x.code = factorialCode
  one : x.literals[0]? = some (.integer .one)
  selectors : ∀ e ∈ factorialSelectors, (x.literals[e.1]?).bind m.symbolName? = some e.2
  primitives : ∀ e ∈ factorialPrimitives,
    ∃ v y, m.Understands e.1 v y ∧ y.primitive = some e.2

namespace HasFactorial

variable {m : Machine} {method : Value} {x : Method} (h : m.HasFactorial method x)

include h

theorem congr {m' : Machine} (hobjects : m'.memory.objects = m.memory.objects)
    (hcore : m'.core = m.core) : m'.HasFactorial method x where
  understands := h.understands.congr hobjects hcore
  plain := h.plain
  code := h.code
  one := h.one
  selectors e he := by
    rw [← h.selectors e he]
    congr 1
    funext v
    rw [symbolName?, symbolName?, body?_congr hobjects]
  primitives e he := by
    obtain ⟨v, y, hy, hprimitive⟩ := h.primitives e he
    exact ⟨v, y, hy.congr hobjects hcore, hprimitive⟩

theorem program_eq : m.program method = .ok (factorialCode, x.literals) := by
  rw [h.understands.program_eq, h.code]

theorem sendsAt {pc next : Nat} (index count : UInt32) (name : String)
    (hlisted : (pc, .send index count) ∈ factorialListing)
    (hname : (index.toNat, name) ∈ factorialSelectors)
    (hnext : pc + (Instruction.send index count).size = next) :
    m.SendsAt method pc name count.toNat next := by
  obtain ⟨selector, hselector, hsymbol⟩ := Option.bind_eq_some_iff.mp (h.selectors _ hname)
  exact ⟨_, _, index, count, selector, h.program_eq, fetch?_factorialCode hlisted, hselector,
    hsymbol, rfl, hnext⟩

theorem compares (n : SmallInteger) :
    m.Stretch method (.integer n) 4 #[] 0
      #[.bool (decide (n.val = 1)), .bool (decide (n.val = 1))] 16 := by
  have hself : m.Stretch method (.integer n) 1 #[] 0 #[.integer n] 1 :=
    .pushSelf h.program_eq (fetch?_factorialCode (by decide)) rfl
  have hone : m.Stretch method (.integer n) 1 #[.integer n] 1 #[.integer n, .integer .one] 6 :=
    .pushLiteral h.program_eq (fetch?_factorialCode (i := .pushLiteral 0) (by decide)) h.one rfl
  have hequal : m.Stretch method (.integer n) 1 #[.integer n, .integer .one] 6
      #[.bool (decide (n.val = 1))] 15 := by
    apply Stretch.answer #[] (.integer n) #[.integer .one]
      (h.sendsAt 1 1 "=" (by decide) (by decide) rfl) rfl
    intro m' hm
    obtain ⟨v, y, hy, hprimitive⟩ := h.primitives ("=", 3) (by decide)
    exact ⟨_, (hy.same hm).startSend_answered hprimitive rfl fun _ => rfl⟩
  have htwice : m.Stretch method (.integer n) 1 #[.bool (decide (n.val = 1))] 15
      #[.bool (decide (n.val = 1)), .bool (decide (n.val = 1))] 16 :=
    .duplicate h.program_eq #[] (fetch?_factorialCode (by decide)) rfl
  exact ((hself.trans hone).trans hequal).trans htwice

variable {n : SmallInteger}

theorem answersOne (hn : n.val = 1) :
    m.Stretch method (.integer n) 8 #[] 0 #[.integer .one] 67 := by
  have hcompares := h.compares n
  rw [hn] at hcompares
  have hpassed : m.Stretch method (.integer n) 1 #[.bool true, .bool true] 16 #[.bool true] 21 :=
    .jumpPassed h.program_eq #[.bool true] (by simp)
      (fetch?_factorialCode (i := .jump .ifFalse 11) (by decide)) rfl rfl
  have hpop : m.Stretch method (.integer n) 1 #[.bool true] 21 #[] 22 :=
    .pop h.program_eq #[] (fetch?_factorialCode (by decide)) rfl
  have hone : m.Stretch method (.integer n) 1 #[] 22 #[.integer .one] 27 :=
    .pushLiteral h.program_eq (fetch?_factorialCode (i := .pushLiteral 0) (by decide)) h.one rfl
  have hjump : m.Stretch method (.integer n) 1 #[.integer .one] 27 #[.integer .one] 67 :=
    .jump h.program_eq (fetch?_factorialCode (i := .jump .always 35) (by decide)) (by decide)
      (by rw [length_factorialCode]; decide)
  exact (((hcompares.trans hpassed).trans hpop).trans hone).trans hjump

/-- The other branch, up to the subtraction. -/
theorem goesOn (hn : n.val ≠ 1) :
    m.Stretch method (.integer n) 9 #[] 0 #[.integer n, .integer n, .integer .one] 40 := by
  have hcompares := h.compares n
  rw [decide_eq_false hn] at hcompares
  have htaken : m.Stretch method (.integer n) 1 #[.bool false, .bool false] 16 #[.bool false] 32 :=
    .jumpTaken h.program_eq #[.bool false] (by simp)
      (fetch?_factorialCode (i := .jump .ifFalse 11) (by decide)) rfl (by decide)
      (by rw [length_factorialCode]; decide)
  have hpop : m.Stretch method (.integer n) 1 #[.bool false] 32 #[] 33 :=
    .pop h.program_eq #[] (fetch?_factorialCode (by decide)) rfl
  have hself : m.Stretch method (.integer n) 1 #[] 33 #[.integer n] 34 :=
    .pushSelf h.program_eq (fetch?_factorialCode (by decide)) rfl
  have hagain : m.Stretch method (.integer n) 1 #[.integer n] 34 #[.integer n, .integer n] 35 :=
    .pushSelf h.program_eq (fetch?_factorialCode (by decide)) rfl
  have hone : m.Stretch method (.integer n) 1 #[.integer n, .integer n] 35
      #[.integer n, .integer n, .integer .one] 40 :=
    .pushLiteral h.program_eq (fetch?_factorialCode (i := .pushLiteral 0) (by decide)) h.one rfl
  exact ((((hcompares.trans htaken).trans hpop).trans hself).trans hagain).trans hone

/-- The other branch, up to the message to the predecessor `k`. -/
theorem descends {k : SmallInteger} (hn : n.val ≠ 1) (hk : k.val = n.val - 1) :
    m.Stretch method (.integer n) 10 #[] 0 #[.integer n, .integer k] 49 := by
  have hminus : m.Stretch method (.integer n) 1 #[.integer n, .integer n, .integer .one] 40
      #[.integer n, .integer k] 49 := by
    apply Stretch.answer #[.integer n] (.integer n) #[.integer .one]
      (h.sendsAt 2 1 "-" (by decide) (by decide) rfl) rfl
    intro m' hm
    obtain ⟨v, y, hy, hprimitive⟩ := h.primitives ("-", 4) (by decide)
    exact ⟨_, (hy.same hm).startSend_answered hprimitive rfl fun _ =>
      Primitive.integerResult_eq hk⟩
  exact (h.goesOn hn).trans hminus

/-- The receiver is multiplied with the answer `a` of the predecessor. -/
theorem multiplies {a b : SmallInteger} (hb : b.val = n.val * a.val) :
    m.Stretch method (.integer n) 1 #[.integer n, .integer a] 58 #[.integer b] 67 := by
  apply Stretch.answer #[] (.integer n) #[.integer a]
    (h.sendsAt 4 1 "*" (by decide) (by decide) rfl) rfl
  intro m' hm
  obtain ⟨v, y, hy, hprimitive⟩ := h.primitives ("*", 2) (by decide)
  exact ⟨_, (hy.same hm).startSend_answered hprimitive rfl fun _ =>
    Primitive.integerResult_eq hb⟩

variable {m₁ m₂ m₃ : Machine} {a b : SmallInteger} (hm : m.SameObjects m₁)

include hm

/-- An activation that has its answer on top ends. -/
theorem returns {receiver v : Value} (hstands : m₁.Stands method receiver #[v] 67 m₂) :
    ∃ m', m₁.Resumes m' ∧ ComesTo m₁.depth m₂ (.ok v m') := by
  have hprogram := h.program_eq
  rw [← hm.program_eq] at hprogram
  obtain ⟨m', hresumes, hstep⟩ :=
    hstands.return_eq (v := v) hprogram (fetch?_factorialCode (by decide)) rfl
  exact ⟨m', hresumes, .of_answer hstep hresumes.depth.le⟩

theorem one_comesTo (hn : n.val = 1) :
    ∃ m', m₁.Resumes m' ∧
      ComesTo m₁.depth (m₁.activate (x.call method (.integer n) #[])) (.ok (.integer .one) m') := by
  obtain ⟨m₂, hstands, hgets⟩ := (m₁.stands_activate (x.call method (.integer n) #[])).stretch hm
    (h.answersOne hn)
  obtain ⟨m', hresumes, hcomes⟩ := h.returns hm hstands
  exact ⟨m', hresumes, (hgets _).comesTo hcomes⟩

/-- An activation for another receiver asks the predecessor `k`, if another context may run. -/
theorem asks (hn : n.val ≠ 1) (hleast : -0x2000000000000000 < n.val) :
    ∃ k m₂, (k : SmallInteger).val = n.val - 1 ∧
      m₁.Stands method (.integer n) #[.integer n] 58 m₂ ∧ m₂.depth = m₁.depth + 1 ∧
      m₂.maxDepth = m₁.maxDepth ∧ ∀ base,
        (m₂.depth < m₂.maxDepth →
          Gets base (m₁.activate (x.call method (.integer n) #[]))
            (m₂.activate (x.call method (.integer k) #[]))) ∧
        (m₂.maxDepth ≤ m₂.depth →
          ComesTo base (m₁.activate (x.call method (.integer n) #[]))
            (.error (.raised (.depthExceeded m₂.maxDepth)) m₂)) := by
  obtain ⟨k, hk⟩ : ∃ k : SmallInteger, k.val = n.val - 1 :=
    ⟨⟨n.val - 1, by omega, by have := n.le_max; omega⟩, rfl⟩
  obtain ⟨m', hstands, hgets⟩ := (m₁.stands_activate (x.call method (.integer n) #[])).stretch hm
    (h.descends hn hk)
  have hsends : m.SendsAt method 49 "factorial" (#[] : Array Value).size 58 :=
    h.sendsAt 3 0 "factorial" (by decide) (by decide) rfl
  have hoperands : (#[.integer n, .integer k] : Array Value) =
      #[.integer n].push (.integer k) ++ #[] := rfl
  obtain ⟨m₂, hwaits, hstep⟩ := hstands.call_eq hm hsends hoperands h.understands h.plain
  refine ⟨k, m₂, hk, hwaits, hwaits.depth_eq, hwaits.same.maxDepth_eq,
    fun base => ⟨fun hdepth => ?_, fun hdepth => ?_⟩⟩
  · exact (hgets base).trans (.of_start hstep hdepth)
  · exact (hgets base).comesTo (.of_start hstep hdepth)

/-- The least integer has no predecessor to ask. -/
theorem least_comesTo (hn : n.val = -0x2000000000000000) (base : Nat) :
    ∃ m', ComesTo base (m₁.activate (x.call method (.integer n) #[]))
      (.error (.fault (.integerOverflow (-0x2000000000000000) "-" 1)) m') := by
  obtain ⟨m', hstands, hgets⟩ := (m₁.stands_activate (x.call method (.integer n) #[])).stretch hm
    (h.goesOn (n := n) (by omega))
  have hsends : m.SendsAt method 40 "-" (#[.integer .one] : Array Value).size 49 :=
    h.sendsAt 2 1 "-" (by decide) (by decide) rfl
  obtain ⟨v, y, hy, hprimitive⟩ := h.primitives ("-", 4) (by decide)
  have hoperands : (#[.integer n, .integer n, .integer .one] : Array Value) =
      #[.integer n].push (.integer n) ++ #[.integer .one] := rfl
  have hless : Arithmetic.subtract.onInt n.val 1 < -0x2000000000000000 := by
    simp only [Arithmetic.onInt]
    omega
  obtain ⟨m'', hstep⟩ := hstands.fault_eq hm hsends hoperands hy hprimitive rfl fun _ =>
    Primitive.integerResult_eq_error (.inl hless)
  rw [hn] at hstep
  exact ⟨m'', (hgets base).comesTo (.of_error hstep)⟩

/-- When the predecessor has answered, the activation multiplies and ends. -/
theorem product_comesTo (hwaits : m₁.Stands method (.integer n) #[.integer n] 58 m₂)
    (hresumes : m₂.Resumes m₃) (hb : b.val = n.val * a.val) :
    ∃ m', m₁.Resumes m' ∧ ComesTo m₁.depth (m₃.pushed (.integer a)) (.ok (.integer b) m') := by
  obtain ⟨m', hstands, hgets⟩ := ((hwaits.resumes hresumes).pushed (.integer a)).stretch hm
    (h.multiplies hb)
  obtain ⟨m'', hresumes, hcomes⟩ := h.returns hm hstands
  exact ⟨m'', hresumes, (hgets _).comesTo hcomes⟩

/-- An activation whose product does not fit stops at the fault. -/
theorem overflow_comesTo (hwaits : m₁.Stands method (.integer n) #[.integer n] 58 m₂)
    (hresumes : m₂.Resumes m₃) (hout : 0x1FFFFFFFFFFFFFFF < n.val * a.val) (base : Nat) :
    ∃ m', ComesTo base (m₃.pushed (.integer a))
      (.error (.fault (.integerOverflow n.val "*" a.val)) m') := by
  have hsends : m.SendsAt method 58 "*" (#[.integer a] : Array Value).size 67 :=
    h.sendsAt 4 1 "*" (by decide) (by decide) rfl
  obtain ⟨v, y, hy, hprimitive⟩ := h.primitives ("*", 2) (by decide)
  have hoperands : (#[.integer n].push (.integer a) : Array Value) =
      #[].push (.integer n) ++ #[.integer a] := rfl
  have hmore : 0x1FFFFFFFFFFFFFFF < Arithmetic.multiply.onInt n.val a.val := hout
  obtain ⟨m', hstep⟩ := ((hwaits.resumes hresumes).pushed (.integer a)).fault_eq hm hsends
    hoperands hy hprimitive rfl fun _ => Primitive.integerResult_eq_error (.inr hmore)
  exact ⟨m', .of_error hstep⟩

-- One context is entered for each receiver on the way down, so what is said about a receiver
-- is also about the contexts that may still be entered.

/-- From one to 19 the factorial is answered. -/
theorem factorial_comesTo {j : Nat} (hn : n.val = j + 1) (hj : j + 1 ≤ 19)
    (hdepth : m₁.depth + (j + 1) ≤ m₁.maxDepth) :
    ∃ a m', (a : SmallInteger).val = (j + 1).factorial ∧ m₁.Resumes m' ∧
      ComesTo m₁.depth (m₁.activate (x.call method (.integer n) #[])) (.ok (.integer a) m') := by
  induction j generalizing n m₁ with
  | zero =>
    obtain ⟨m', hresumes, hcomes⟩ := h.one_comesTo hm (n := n) (by omega)
    exact ⟨.one, m', rfl, hresumes, hcomes⟩
  | succ j ih =>
    obtain ⟨k, m₂, hk, hwaits, hdepth₂, hlimit₂, hasks⟩ :=
      h.asks hm (n := n) (by omega) (by omega)
    obtain ⟨a, m₃, ha, hresumes, hcomes⟩ :=
      ih (hm.trans hwaits.same) (n := k) (by omega) (by omega) (by omega)
    obtain ⟨b, hb⟩ := SmallInteger.exists_factorial hj
    have hproduct : b.val = n.val * a.val := by
      rw [hb, ha, hn, Nat.factorial_succ (j + 1)]
      push_cast
      rfl
    obtain ⟨m', hresumes', hcomes'⟩ := h.product_comesTo hm hwaits hresumes hproduct
    have hgets := (hasks m₁.depth).1 (by omega)
    have hanswer := hcomes.gets hresumes.depth (show m₁.depth < m₂.depth by omega)
    exact ⟨b, m', hb, hresumes', (hgets.trans hanswer).comesTo hcomes'⟩

/-- From 20 on the product of 20 and the factorial of 19 does not fit. -/
theorem large_comesTo {j : Nat} (hn : n.val = j + 20) (hdepth : m₁.depth + (j + 20) ≤ m₁.maxDepth)
    {base : Nat} (hbase : base ≤ m₁.depth) :
    ∃ m', ComesTo base (m₁.activate (x.call method (.integer n) #[]))
      (.error (.fault (.integerOverflow 20 "*" (Nat.factorial 19))) m') := by
  induction j generalizing n m₁ with
  | zero =>
    -- 19 is still answered, and 20 multiplies with that
    obtain ⟨k, m₂, hk, hwaits, hdepth₂, hlimit₂, hasks⟩ :=
      h.asks hm (n := n) (by omega) (by omega)
    obtain ⟨a, m₃, ha, hresumes, hcomes⟩ := h.factorial_comesTo (hm.trans hwaits.same) (n := k)
      (j := 18) (by omega) (by omega) (by omega)
    have hlast : Nat.factorial 19 = 121645100408832000 := by decide
    obtain ⟨m', hcomes'⟩ := h.overflow_comesTo hm hwaits hresumes (a := a)
      (by rw [hn, ha, hlast]; decide) base
    have hgets := (hasks base).1 (by omega)
    have hanswer := hcomes.gets hresumes.depth (show base < m₂.depth by omega)
    rw [hn, ha] at hcomes'
    exact ⟨m', (hgets.trans hanswer).comesTo hcomes'⟩
  | succ j ih =>
    obtain ⟨k, m₂, hk, hwaits, hdepth₂, hlimit₂, hasks⟩ :=
      h.asks hm (n := n) (by omega) (by omega)
    obtain ⟨m', hcomes⟩ := ih (hm.trans hwaits.same) (n := k) (by omega) (by omega) (by omega)
    exact ⟨m', ((hasks base).1 (by omega)).comesTo hcomes⟩

theorem deep_comesTo {j : Nat} (hlimit : m₁.maxDepth = m₁.depth + 1 + j)
    (hn : j + 1 < n.val ∨ n.val ≤ 0 ∧ j + 1 ≤ n.val + 0x2000000000000000) (base : Nat) :
    ∃ m', m.SameObjects m' ∧ ComesTo base (m₁.activate (x.call method (.integer n) #[]))
      (.error (.raised (.depthExceeded m.maxDepth)) m') := by
  -- on the contexts that may still be entered: neither one nor the least integer comes first
  induction j generalizing n m₁ with
  | zero =>
    obtain ⟨k, m₂, hk, hwaits, hdepth₂, hlimit₂, hasks⟩ :=
      h.asks hm (n := n) (by omega) (by omega)
    have hcomes := (hasks base).2 (by omega)
    rw [(hm.trans hwaits.same).maxDepth_eq] at hcomes
    exact ⟨m₂, hm.trans hwaits.same, hcomes⟩
  | succ j ih =>
    obtain ⟨k, m₂, hk, hwaits, hdepth₂, hlimit₂, hasks⟩ :=
      h.asks hm (n := n) (by omega) (by omega)
    obtain ⟨m', hsame, hcomes⟩ := ih (hm.trans hwaits.same) (n := k) (by omega) (by omega)
    exact ⟨m', hsame, ((hasks base).1 (by omega)).comesTo hcomes⟩

/-- A receiver below one counts down to the least integer if enough contexts may run. -/
theorem low_comesTo {j : Nat} (hn : n.val = -0x2000000000000000 + j) (hlow : n.val ≤ 0)
    (hdepth : m₁.depth + 1 + j ≤ m₁.maxDepth) (base : Nat) :
    ∃ m', ComesTo base (m₁.activate (x.call method (.integer n) #[]))
      (.error (.fault (.integerOverflow (-0x2000000000000000) "-" 1)) m') := by
  induction j generalizing n m₁ with
  | zero => exact h.least_comesTo hm (by omega) base
  | succ j ih =>
    obtain ⟨k, m₂, hk, hwaits, hdepth₂, hlimit₂, hasks⟩ :=
      h.asks hm (n := n) (by omega) (by omega)
    obtain ⟨m', hcomes⟩ := ih (hm.trans hwaits.same) (n := k) (by omega) (by omega) (by omega)
    exact ⟨m', ((hasks base).1 (by omega)).comesTo hcomes⟩

end HasFactorial

end Machine

/-- A message comes to `r` if its run may take enough steps. -/
def SendComesTo (m : Machine) (receiver : Value) (selector : String) (args : Array Value)
    (r : EStateM.Result Stop Machine Value) : Prop :=
  ∃ bound, ∀ fuel, bound ≤ fuel → send fuel receiver selector args m = r

namespace Machine.HasFactorial

variable {m : Machine} {method : Value} {x : Method} (h : m.HasFactorial method x)

include h

theorem startSend_eq (n : SmallInteger) :
    ∃ e, startSend (.integer n) "factorial" #[] m =
      (x.call method (.integer n) #[]).start (m.note e) :=
  ⟨_, (h.understands.finds n #[]).startSend_eq_start h.plain⟩

/-- The message is the call of the sample, if a context may run. -/
theorem sendComesTo (hdepth : m.depth < m.maxDepth) (n : SmallInteger) :
    ∃ m₁, m.Resumes m₁ ∧ ∀ r,
      ComesTo m.depth (m₁.activate (x.call method (.integer n) #[])) r →
      SendComesTo m (.integer n) "factorial" #[] (unwindRaised m.depth r) := by
  obtain ⟨e, hstart⟩ := h.startSend_eq n
  refine ⟨m.note e, m.resumes_note e, fun r ⟨used, hrun⟩ => ⟨used, fun fuel hfuel => ?_⟩⟩
  rcases (x.call method (.integer n) #[]).start_rules (m.note e) with ⟨-, hok⟩ | ⟨hdeep, -⟩
  · have hfuel' : fuel = fuel - used + used := by omega
    rw [send_eq_launch, launch_eq_run (hstart.trans hok), hfuel', hrun]
  · exact absurd hdepth (not_lt.mpr hdeep)

variable {n : SmallInteger}

theorem send_small (hlow : 1 ≤ n.val) (hhigh : m.depth + n.val ≤ m.maxDepth)
    (hfits : n.val ≤ 19) :
    ∃ a m', (a : SmallInteger).val = n.val.toNat.factorial ∧ m.Resumes m' ∧
      SendComesTo m (.integer n) "factorial" #[] (.ok (.integer a) m') := by
  obtain ⟨m₁, hm, hsend⟩ := h.sendComesTo (by omega) n
  have hdepth := hm.depth
  have hlimit := hm.same.maxDepth_eq
  obtain ⟨j, hj⟩ : ∃ j : Nat, n.val = j + 1 := ⟨n.val.toNat - 1, by omega⟩
  obtain ⟨a, m', ha, hresumes, hcomes⟩ :=
    h.factorial_comesTo hm.same hj (by omega) (by omega)
  rw [hdepth] at hcomes
  refine ⟨a, m', ?_, hm.trans hresumes, hsend _ hcomes⟩
  rw [ha, hj]
  rfl

theorem send_large (hlow : 20 ≤ n.val) (hhigh : m.depth + n.val ≤ m.maxDepth) :
    ∃ m', SendComesTo m (.integer n) "factorial" #[]
      (.error (.fault (.integerOverflow 20 "*" (Nat.factorial 19))) m') := by
  obtain ⟨m₁, hm, hsend⟩ := h.sendComesTo (by omega) n
  have hdepth := hm.depth
  have hlimit := hm.same.maxDepth_eq
  obtain ⟨j, hj⟩ : ∃ j : Nat, n.val = j + 20 := ⟨n.val.toNat - 20, by omega⟩
  obtain ⟨m', hcomes⟩ := h.large_comesTo hm.same hj (by omega) hdepth.ge
  exact ⟨m', hsend _ hcomes⟩

/-- Whatever has run when no context may be entered any more has been ended. -/
theorem send_deep (hn : m.maxDepth < m.depth + n.val ∨
    n.val ≤ 0 ∧ m.maxDepth ≤ m.depth + (n.val + 0x2000000000000000)) :
    ∃ m', m.SameObjects m' ∧ SendComesTo m (.integer n) "factorial" #[]
      (.error (.raised (.depthExceeded m.maxDepth)) m') := by
  by_cases hdepth : m.depth < m.maxDepth
  · obtain ⟨m₁, hm, hsend⟩ := h.sendComesTo hdepth n
    have hdepth₁ := hm.depth
    have hlimit := hm.same.maxDepth_eq
    obtain ⟨j, hj⟩ : ∃ j : Nat, m.maxDepth = m.depth + 1 + j :=
      ⟨m.maxDepth - m.depth - 1, by omega⟩
    obtain ⟨m', hsame, hcomes⟩ :=
      h.deep_comesTo hm.same (n := n) (j := j) (by omega) (by omega) m.depth
    exact ⟨_, hsame.unwind m.depth, hsend _ hcomes⟩
  · obtain ⟨e, hstart⟩ := h.startSend_eq n
    have hsame := (SameObjects.refl m).note e
    refine ⟨_, hsame.unwind m.depth, 0, fun fuel _ => ?_⟩
    rcases (x.call method (.integer n) #[]).start_rules (m.note e) with ⟨hlow, -⟩ | ⟨-, herror⟩
    · exact absurd hlow hdepth
    · rw [send_eq_launch, launch_eq_error (hstart.trans herror)]
      rfl

theorem send_low (hlow : n.val ≤ 0)
    (hdepth : m.depth + (n.val + 0x2000000000000000) < m.maxDepth) :
    ∃ m', SendComesTo m (.integer n) "factorial" #[]
      (.error (.fault (.integerOverflow (-0x2000000000000000) "-" 1)) m') := by
  have hmin := n.min_le
  obtain ⟨m₁, hm, hsend⟩ := h.sendComesTo (by omega) n
  have hdepth₁ := hm.depth
  have hlimit := hm.same.maxDepth_eq
  obtain ⟨j, hj⟩ : ∃ j : Nat, n.val = -0x2000000000000000 + j :=
    ⟨(n.val + 0x2000000000000000).toNat, by omega⟩
  obtain ⟨m', hcomes⟩ := h.low_comesTo hm.same hj hlow (by omega) m.depth
  exact ⟨m', hsend _ hcomes⟩

end Machine.HasFactorial

def Machine.integerMethod? (m : Machine) (selector : String) : Option (Value × Method) := do
  let v ← (m.lookup m.core.integer selector).toOption.join
  let x ← m.memory.method? v
  return (v, x)

theorem Machine.understands_of_integerMethod? {m : Machine} {selector : String} {v : Value}
    {x : Method} (h : m.integerMethod? selector = some (v, x)) : m.Understands selector v x := by
  obtain ⟨v', hv, h⟩ := Option.bind_eq_some_iff.mp h
  obtain ⟨x', hx, h⟩ := Option.bind_eq_some_iff.mp h
  cases h
  constructor
  · exact eq_ok_of_toOption (Option.join_eq_some_iff.mp hv)
  · obtain ⟨b, hb, hmethod⟩ := Option.bind_eq_some_iff.mp hx
    cases b with
    | method y =>
      cases hmethod
      exact hb
    | _ => cases hmethod

def Machine.showsFactorial (m : Machine) (method : Value) : Bool :=
  (m.integerMethod? "factorial").any fun p =>
    decide (p.1 = method ∧ p.2.primitive = none ∧ p.2.code = factorialCode ∧
      p.2.literals[0]? = some (.integer .one) ∧
      (∀ e ∈ factorialSelectors, (p.2.literals[e.1]?).bind m.symbolName? = some e.2) ∧
      ∀ e ∈ factorialPrimitives,
        (m.integerMethod? e.1).map (fun q => q.2.primitive) = some (some e.2))

theorem Machine.HasFactorial.of_shows {m : Machine} {method : Value}
    (h : m.showsFactorial method = true) : ∃ x, m.HasFactorial method x := by
  obtain ⟨⟨v, x⟩, hx, htest⟩ := (Option.any_eq_true _ _).mp h
  obtain ⟨rfl, hplain, hcode, hone, hselectors, hprimitives⟩ := of_decide_eq_true htest
  refine ⟨x, understands_of_integerMethod? hx, hplain, hcode, hone, hselectors, fun e he => ?_⟩
  obtain ⟨⟨u, y⟩, hy, hprimitive⟩ := Option.map_eq_some_iff.mp (hprimitives e he)
  exact ⟨u, y, understands_of_integerMethod? hy, hprimitive⟩

theorem Lasts.installFactorial : Lasts Samples.installFactorial := by
  apply read fun _ _ => rfl
  intro m
  exact (ofExcept _).bind fun _ => .install _

/-- Under every limit the sample can be installed. -/
theorem exists_factorial_machine (d : Nat) :
    ∃ m method m₁ x, bootstrap .standard d = .ok m ∧
      Samples.installFactorial m = .ok method m₁ ∧ m₁.HasFactorial method x ∧ m₁.depth = 0 ∧
      m₁.maxDepth = d := by
  -- one machine is looked at; another differs from it in the limit only
  obtain ⟨m, hboot, htest⟩ := exists_of_boots
    (show boots .standard 0 (fun m => Action.answers Samples.installFactorial m fun method m₁ =>
      m₁.showsFactorial method && decide (m₁.depth = 0)) = true by decide +kernel)
  obtain ⟨method, m₁, hinstall, htest⟩ := Action.exists_of_answers htest
  rw [Bool.and_eq_true] at htest
  obtain ⟨x, hx⟩ := Machine.HasFactorial.of_shows htest.1
  have hdepth := of_decide_eq_true htest.2
  obtain ⟨m', rfl, hboot'⟩ := bootstrap_allowing hboot d
  have hlasts := Lasts.installFactorial 0 d (Nat.zero_le d) m'
  rw [hinstall] at hlasts
  generalize hr : Samples.installFactorial (m'.allowing d) = r at hlasts
  cases hlasts with
  | ok _ m₂ => exact ⟨_, method, m₂.allowing d, x, hboot', hr, hx.congr rfl rfl, hdepth, rfl⟩

/-- In a fresh machine with the sample, under every limit `d`, the message `factorial` to an
integer from one to 19 and not above `d` is answered with its factorial. From 20 to `d` the
product does not fit. A receiver above `d` needs too many contexts, and so does one below one
with at least `d` integers below it; with fewer, it counts down to the least integer. Where
there is an answer or an error, no object has been made, moved or written. -/
theorem factorial_sample_computes_factorial (d : Nat) :
    ∃ m method m₁, bootstrap .standard d = .ok m ∧
      Samples.installFactorial m = .ok method m₁ ∧
      ∀ n : SmallInteger,
        (1 ≤ n.val → n.val ≤ d → n.val ≤ 19 →
          ∃ a m', (a : SmallInteger).val = n.val.toNat.factorial ∧ m₁.Resumes m' ∧
            SendComesTo m₁ (.integer n) "factorial" #[] (.ok (.integer a) m')) ∧
        (20 ≤ n.val → n.val ≤ d →
          ∃ m', SendComesTo m₁ (.integer n) "factorial" #[]
            (.error (.fault (.integerOverflow 20 "*" (Nat.factorial 19))) m')) ∧
        (d < n.val ∨ n.val ≤ 0 ∧ d ≤ n.val - -0x2000000000000000 →
          ∃ m', m₁.SameObjects m' ∧ SendComesTo m₁ (.integer n) "factorial" #[]
            (.error (.raised (.depthExceeded d)) m')) ∧
        (n.val ≤ 0 → n.val - -0x2000000000000000 < d →
          ∃ m', SendComesTo m₁ (.integer n) "factorial" #[]
            (.error (.fault (.integerOverflow (-0x2000000000000000) "-" 1)) m')) := by
  obtain ⟨m, method, m₁, x, hboot, hinstall, h, hzero, rfl⟩ := exists_factorial_machine d
  refine ⟨m, method, m₁, hboot, hinstall, fun n => ⟨?_, ?_, ?_, ?_⟩⟩
  · intro hlow hhigh hfits
    exact h.send_small hlow (by omega) hfits
  · intro hlow hhigh
    exact h.send_large hlow (by omega)
  · intro hn
    exact h.send_deep (by omega)
  · intro hlow hhigh
    exact h.send_low hlow (by omega)

/-- Under a limit of 20 contexts. -/
theorem factorial_sample_in_twenty_contexts :
    ∃ m method m₁, bootstrap .standard 20 = .ok m ∧
      Samples.installFactorial m = .ok method m₁ ∧
      (∃ a m', (a : SmallInteger).val = Nat.factorial 19 ∧ m₁.Resumes m' ∧
        SendComesTo m₁ (.integer ⟨19, by decide, by decide⟩) "factorial" #[]
          (.ok (.integer a) m')) ∧
      (∃ m', SendComesTo m₁ (.integer ⟨20, by decide, by decide⟩) "factorial" #[]
        (.error (.fault (.integerOverflow 20 "*" (Nat.factorial 19))) m')) ∧
      (∃ m', m₁.SameObjects m' ∧
        SendComesTo m₁ (.integer ⟨0, by decide, by decide⟩) "factorial" #[]
          (.error (.raised (.depthExceeded 20)) m')) ∧
      ∃ m', SendComesTo m₁ (.integer ⟨-0x2000000000000000 + 19, by decide, by decide⟩)
        "factorial" #[] (.error (.fault (.integerOverflow (-0x2000000000000000) "-" 1)) m') := by
  obtain ⟨m, method, m₁, hboot, hinstall, h⟩ := factorial_sample_computes_factorial 20
  have hsmall := (h ⟨19, by decide, by decide⟩).1 (by decide) (by decide) (by decide)
  exact ⟨m, method, m₁, hboot, hinstall, hsmall, (h _).2.1 (by decide) (by decide),
    (h _).2.2.1 (by decide), (h _).2.2.2 (by decide) (by decide)⟩

end ObjectMachine

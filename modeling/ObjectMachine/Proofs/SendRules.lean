import ObjectMachine.Execution
import Mathlib.Tactic.SplitIfs

/-!
# Rules for calls and sends

What a send can do is said here once, by rules with their conditions: the method
it finds, what the primitive of that method does, the call it comes to. Every
send follows them. What holds of the machine while it runs is derived from such
rules, without opening the interpreter again.
-/

namespace ObjectMachine

open ObjectMachine.Action

section

variable {α β : Type} {x : Action α} {f : α → Action β} {m m' : Machine}

theorem Action.bind_ok {a : α} (hx : x m = .ok a m') : (x >>= f) m = f a m' := by
  simp only [bind, EStateM.bind, hx]

theorem Action.bind_error {e : Stop} (hx : x m = .error e m') : (x >>= f) m = .error e m' := by
  simp only [bind, EStateM.bind, hx]

theorem Action.bind_eq {y : Action α} (h : x m = y m') (f : α → Action β) :
    (x >>= f) m = (y >>= f) m' := by
  simp only [bind, EStateM.bind, h]

theorem Action.bind_get (f : Machine → Action β) : (get >>= f) m = f m m := rfl

theorem Action.ofExcept_ok (a : α) : ofExcept (.ok a) m = .ok a m := rfl

theorem Action.ofExcept_error (f : Fault) :
    (ofExcept (.error f) : Action α) m = .error (.fault f) m := rfl

theorem Action.bind_modify (g : Machine → Machine) (f : Unit → Action β) :
    (modify g >>= f) m = f () (g m) := rfl

end

theorem Memory.modifyContext_eq (mem : Memory) {id : ContextId} {c : Context}
    (h : mem.contexts[id]? = some c) (f : Context → Context) :
    mem.modifyContext id f = mem.modifyContext id fun _ => f c := by
  simp only [modifyContext]
  congr 1
  refine Array.ext_getElem? fun i => ?_
  simp only [Array.getElem?_modify]
  split_ifs with hid
  · subst hid
    rw [h]
    rfl
  · rfl

namespace Machine

def setContext (m : Machine) (id : ContextId) (c : Context) : Machine :=
  { m with memory := m.memory.modifyContext id fun _ => c }

def pushed (m : Machine) (v : Value) : Machine :=
  match m.active with
  | some id => { m with memory := m.memory.modifyContext id fun c => c.push v }
  | none => m

def note (m : Machine) (e : Event) : Machine := { m with journal := m.journal.push e }

structure Runs (m : Machine) (id : ContextId) (c : Context) : Prop where
  active : m.active = some id
  context : m.memory.contexts[id]? = some c

variable {m : Machine} {id : ContextId} {c c' : Context}

theorem getElem?_setContext (h : m.memory.contexts[id]? = some c) (c' : Context) :
    (m.setContext id c').memory.contexts[id]? = some c' := by
  simp [setContext, Memory.modifyContext, Array.getElem?_modify, h]

theorem setContext_setContext (m : Machine) (id : ContextId) (c c' : Context) :
    (m.setContext id c).setContext id c' = m.setContext id c' := by
  simp only [setContext, Memory.modifyContext]
  congr 2
  refine Array.ext_getElem? fun i => ?_
  simp only [Array.getElem?_modify]
  split_ifs
  · cases m.memory.contexts[i]? <;> rfl
  · rfl

theorem setContext_self (h : m.memory.contexts[id]? = some c) : m.setContext id c = m := by
  have hsame : m.memory.contexts.modify id (fun _ => c) = m.memory.contexts := by
    refine Array.ext_getElem? fun i => ?_
    rw [Array.getElem?_modify]
    split_ifs with hid
    · subst hid
      rw [h]
      rfl
    · rfl
  rw [setContext, Memory.modifyContext, hsame]

theorem Runs.setContext (h : m.Runs id c) (c' : Context) : (m.setContext id c').Runs id c' :=
  ⟨h.active, getElem?_setContext h.context c'⟩

end Machine

namespace Action

variable {m : Machine} {id : ContextId} {c : Context}

theorem push_eq (m : Machine) (v : Value) : push v m = .ok () (m.pushed v) := rfl

theorem activeId_eq (h : m.Runs id c) : activeId m = .ok id m := by
  simp only [activeId, bind_get, h.active]
  rfl

theorem active_eq (h : m.Runs id c) : active m = .ok c m := by
  rw [active, bind_ok (activeId_eq h), bind_get, h.context]
  rfl

theorem modifyActive_eq (h : m.Runs id c) (f : Context → Context) :
    modifyActive f m = .ok () (m.setContext id (f c)) := by
  rw [Machine.setContext, ← m.memory.modifyContext_eq h.context]
  change EStateM.Result.ok () _ = _
  simp only [h.active]

theorem top_eq (h : m.Runs id c) {v : Value} (hv : c.stack.back? = some v) : top m = .ok v m := by
  rw [top, bind_ok (active_eq h), Context.top, hv]
  rfl

theorem top_eq_error (h : m.Runs id c) (hv : c.stack.back? = none) :
    top m = .error (.fault (.stackUnderflow c.pc)) m := by
  rw [top, bind_ok (active_eq h), Context.top, hv]
  rfl

theorem pop_eq (h : m.Runs id c) {v : Value} (hv : c.stack.back? = some v) :
    pop m = .ok v (m.setContext id { c with stack := c.stack.pop }) := by
  rw [pop, bind_ok (top_eq h hv), bind_ok (modifyActive_eq h _)]
  rfl

theorem pop_eq_error (h : m.Runs id c) (hv : c.stack.back? = none) :
    pop m = .error (.fault (.stackUnderflow c.pc)) m := by
  rw [pop, bind_error (top_eq_error h hv)]

theorem popMany_eq (h : m.Runs id c) {below args : Array Value} (hstack : c.stack = below ++ args) :
    popMany args.size m = .ok args (m.setContext id { c with stack := below }) := by
  have hsize : c.stack.size - args.size = below.size := by
    rw [hstack, Array.size_append]
    omega
  have hargs : c.stack.extract below.size c.stack.size = args := by
    simp [hstack, Array.extract_append]
  have hbelow : c.stack.take below.size = below := by
    simp [hstack, Array.take]
  have henough : ¬c.stack.size < args.size := by
    rw [hstack, Array.size_append]
    omega
  rw [popMany, bind_ok (active_eq h), Context.popMany, if_neg henough, bind_ok (ofExcept_ok _)]
  refine (bind_ok (modifyActive_eq h _)).trans ?_
  rw [hsize, hargs, hbelow]
  rfl

theorem popMany_eq_error (h : m.Runs id c) {count : Nat} (hcount : c.stack.size < count) :
    popMany count m = .error (.fault (.stackShortage c.pc count c.stack.size)) m := by
  rw [popMany, bind_ok (active_eq h), Context.popMany, if_pos hcount]
  rfl

end Action

/-- The activation of a method or a block that is asked for. -/
structure Call where
  method : Value
  receiver : Value
  args : Array Value
  temporaryCount : Nat
  outer : Option ContextId

/-- The block is the receiver of its own context. -/
def Block.call (b : Block) (block : Value) (args : Array Value) : Call :=
  ⟨block, block, args, b.temporaryCount, b.outer⟩

def Method.call (c : Method) (method receiver : Value) (args : Array Value) : Call :=
  ⟨method, receiver, args, c.temporaries.length, none⟩

def Machine.activate (m : Machine) (call : Call) : Machine :=
  { m with
    memory := m.memory.addContext
      (.new call.method call.receiver call.args call.temporaryCount m.active call.outer)
    active := some m.memory.contexts.size
    depth := m.depth + 1 }

def Call.enter (call : Call) : Action Unit :=
  ObjectMachine.enter call.method call.receiver call.args call.temporaryCount call.outer

/-- A call is made unless as many contexts run as may. -/
inductive Enters (m : Machine) (call : Call) : EStateM.Result Stop Machine Unit → Prop
  | activated : m.depth < m.maxDepth → Enters m call (.ok () (m.activate call))
  | tooDeep : m.maxDepth ≤ m.depth →
      Enters m call (.error (.raised (.depthExceeded m.maxDepth)) m)

theorem Call.enter_rules (call : Call) (m : Machine) : Enters m call (call.enter m) := by
  rw [enter, ObjectMachine.enter, bind_get]
  split_ifs with hdeep
  · exact .tooDeep hdeep
  · exact .activated (Nat.lt_of_not_le hdeep)

namespace Body

def setSlot (place : Nat) (v : Value) : Body → Body
  | .slots values => .slots (values.set! place v)
  | body => body

def setElement (place : Nat) (v : Value) : Body → Body
  | .array elements => .array (elements.set! place v)
  | body => body

def setByte (place : Nat) (byte : UInt8) : Body → Body
  | .bytes data => .bytes (data.set! place byte)
  | body => body

end Body

def Machine.write (m : Machine) (v : Value) (g : Body → Body) : Machine :=
  { m with memory := m.memory.modifyBody v g }

theorem enterMethod_eq {m : Machine} {method : Value} {c : Method}
    (h : m.memory.body? method = some (.method c)) (receiver : Value) (args : Array Value) :
    enterMethod method receiver args m = (c.call method receiver args).enter m := by
  rw [enterMethod, bind_get, h]
  rfl

theorem enterMethod_eq_error {m : Machine} {method : Value}
    (h : ∀ c, m.memory.body? method ≠ some (.method c)) (receiver : Value) (args : Array Value) :
    enterMethod method receiver args m = .error (.raised (.type .method method)) m := by
  cases hbody : m.memory.body? method with
  | none =>
    rw [enterMethod, bind_get, hbody]
    rfl
  | some body =>
    cases body with
    | method c => exact absurd hbody (h c)
    | _ =>
      rw [enterMethod, bind_get, hbody]
      rfl

theorem enterBlock_eq {m : Machine} {block : Value} {b : Block}
    (h : m.memory.body? block = some (.block b)) (args : Array Value) :
    enterBlock block args m = (b.call block args).enter m := by
  rw [enterBlock, bind_get, h]
  rfl

theorem enterBlock_eq_error {m : Machine} {block : Value}
    (h : ∀ b, m.memory.body? block ≠ some (.block b)) (args : Array Value) :
    enterBlock block args m = .error (.raised (.type .block block)) m := by
  cases hbody : m.memory.body? block with
  | none =>
    rw [enterBlock, bind_get, hbody]
    rfl
  | some body =>
    cases body with
    | block b => exact absurd hbody (h b)
    | _ =>
      rw [enterBlock, bind_get, hbody]
      rfl

/-- What a primitive does at once. -/
inductive Performs (m : Machine) : Effect → EStateM.Result Stop Machine Value → Prop
  | answer (v : Value) : Performs m (.answer v) (.ok v m)
  | putElement (target : Value) (place : Nat) (v : Value) :
      Performs m (.putElement target place v) (.ok v (m.write target (.setElement place v)))
  | putByte (target : Value) (place : Nat) (byte : UInt8) (v : Value) :
      Performs m (.putByte target place byte v) (.ok v (m.write target (.setByte place byte)))
  | create (o : HeapObject) : Performs m (.create o) (allocate o m)

section

variable (m : Machine) (index : Nat) (receiver : Value) (args : Array Value)

/-- The primitive with that index wants this. -/
def Wants (r : Except Fault Effect) : Prop :=
  ∃ row, Primitive.row? index = some row ∧ row.primitive.effect m receiver args.toList = r

inductive Replies : EStateM.Result Stop Machine Reply → Prop
  | unknown : Primitive.row? index = none → Replies (.error (.fault (.unknownPrimitive index)) m)
  | broken {f : Fault} : Wants m index receiver args (.error f) → Replies (.error (.fault f) m)
  | declined : Wants m index receiver args (.ok .decline) → Replies (.ok .declined m)
  | answered {e : Effect} {v : Value} {m' : Machine} : Wants m index receiver args (.ok e) →
      Performs m e (.ok v m') → Replies (.ok (.answered v) m')
  | failed {e : Effect} {s : Stop} {m' : Machine} : Wants m index receiver args (.ok e) →
      Performs m e (.error s m') → Replies (.error s m')
  | notBlock {block : Value} {args' : Array Value} :
      Wants m index receiver args (.ok (.call block args')) →
      (∀ b, m.memory.body? block ≠ some (.block b)) →
      Replies (.error (.raised (.type .block block)) m)
  | entered {block : Value} {b : Block} {args' : Array Value} :
      Wants m index receiver args (.ok (.call block args')) →
      m.memory.body? block = some (.block b) → m.depth < m.maxDepth →
      Replies (.ok .entered (m.activate (b.call block args')))
  | tooDeep {block : Value} {b : Block} {args' : Array Value} :
      Wants m index receiver args (.ok (.call block args')) →
      m.memory.body? block = some (.block b) → m.maxDepth ≤ m.depth →
      Replies (.error (.raised (.depthExceeded m.maxDepth)) m)

theorem tryPrimitive_eq {e : Effect} (h : Wants m index receiver args (.ok e)) :
    tryPrimitive index receiver args m = perform e m := by
  obtain ⟨row, hrow, heffect⟩ := h
  rw [tryPrimitive, hrow]
  dsimp only
  rw [bind_get, heffect, bind_ok (ofExcept_ok e)]

theorem tryPrimitive_eq_error {f : Fault} (h : Wants m index receiver args (.error f)) :
    tryPrimitive index receiver args m = .error (.fault f) m := by
  obtain ⟨row, hrow, heffect⟩ := h
  rw [tryPrimitive, hrow]
  dsimp only
  rw [bind_get, heffect, bind_error (ofExcept_error f)]

theorem tryPrimitive_rules :
    Replies m index receiver args (tryPrimitive index receiver args m) := by
  cases hrow : Primitive.row? index with
  | none =>
    rw [tryPrimitive, hrow]
    exact .unknown hrow
  | some row =>
    cases heffect : row.primitive.effect m receiver args.toList with
    | error f =>
      have hwants : Wants m index receiver args (.error f) := ⟨row, hrow, heffect⟩
      rw [tryPrimitive_eq_error m index receiver args hwants]
      exact .broken hwants
    | ok e =>
      have hwants : Wants m index receiver args (.ok e) := ⟨row, hrow, heffect⟩
      rw [tryPrimitive_eq m index receiver args hwants]
      cases e with
      | decline => exact .declined hwants
      | answer v => exact .answered hwants (.answer v)
      | putElement target place v => exact .answered hwants (.putElement target place v)
      | putByte target place byte v => exact .answered hwants (.putByte target place byte v)
      | create o =>
        have hperforms := Performs.create (m := m) o
        rw [perform]
        cases hallocate : allocate o m with
        | ok v m' =>
          rw [bind_ok hallocate]
          exact .answered hwants (hallocate ▸ hperforms)
        | error s m' =>
          rw [bind_error hallocate]
          exact .failed hwants (hallocate ▸ hperforms)
      | call block args' =>
        rw [perform]
        by_cases hblock : ∃ b, m.memory.body? block = some (.block b)
        · obtain ⟨b, hb⟩ := hblock
          have henter := enterBlock_eq hb args'
          have hrules := (b.call block args').enter_rules m
          generalize (b.call block args').enter m = r at henter hrules
          cases hrules with
          | activated hdepth =>
            rw [bind_ok henter]
            exact .entered hwants hb hdepth
          | tooDeep hdepth =>
            rw [bind_error henter]
            exact .tooDeep hwants hb hdepth
        · have hnone : ∀ b, m.memory.body? block ≠ some (.block b) := fun b hb => hblock ⟨b, hb⟩
          rw [bind_error (enterBlock_eq_error hnone args')]
          exact .notBlock hwants hnone

end

section

variable (m : Machine) (receiver : Value) (selector : String) (args : Array Value)

/-- The method that a send finds, and the machine with the send in its journal. -/
inductive Finds : Value → Method → Machine → Prop
  | found {classRef method : Value} {c : Method} :
      m.resolve receiver selector = .ok (classRef, some method) → m.entry selector method = .ok c →
      Finds method c (m.note (.sent (m.className classRef) selector args.size))

/-- The call that a send comes to: of the method found, if it has no primitive or
one that declines, or of the block that its primitive calls. -/
inductive Calls : Call → Machine → Prop
  | plain {method : Value} {c : Method} {m' : Machine} :
      Finds m receiver selector args method c m' → c.primitive = none →
      Calls (c.call method receiver args) m'
  | declined {method : Value} {c : Method} {index : Nat} {m' : Machine} :
      Finds m receiver selector args method c m' → c.primitive = some index →
      Wants m' index receiver args (.ok .decline) →
      Calls (c.call method receiver args) (m'.note (.declined index selector))
  | block {method block : Value} {c : Method} {index : Nat} {b : Block} {args' : Array Value}
      {m' : Machine} :
      Finds m receiver selector args method c m' → c.primitive = some index →
      Wants m' index receiver args (.ok (.call block args')) →
      m'.memory.body? block = some (.block b) → Calls (b.call block args') m'

inductive Responds : EStateM.Result Stop Machine (Option Value) → Prop
  | unresolved {f : Fault} : m.resolve receiver selector = .error f → Responds (.error (.fault f) m)
  | missing {classRef : Value} : m.resolve receiver selector = .ok (classRef, none) →
      Responds (.error (.raised (.methodNotFound (m.className classRef) selector)) m)
  | corrupt {classRef method : Value} {f : Fault} :
      m.resolve receiver selector = .ok (classRef, some method) →
      m.entry selector method = .error f →
      Responds (.error (.fault f) (m.note (.sent (m.className classRef) selector args.size)))
  | stopped {method : Value} {c : Method} {index : Nat} {s : Stop} {m' m'' : Machine} :
      Finds m receiver selector args method c m' → c.primitive = some index →
      Replies m' index receiver args (.error s m'') → Responds (.error s m'')
  | answered {method v : Value} {c : Method} {index : Nat} {m' m'' : Machine} :
      Finds m receiver selector args method c m' → c.primitive = some index →
      Replies m' index receiver args (.ok (.answered v) m'') → Responds (.ok (some v) m'')
  | entered {call : Call} {m' : Machine} : Calls m receiver selector args call m' →
      m'.depth < m'.maxDepth → Responds (.ok none (m'.activate call))
  | tooDeep {call : Call} {m' : Machine} : Calls m receiver selector args call m' →
      m'.maxDepth ≤ m'.depth → Responds (.error (.raised (.depthExceeded m'.maxDepth)) m')

/-- Ask for a call that will answer later. -/
def Call.start (call : Call) : Action (Option Value) := do
  call.enter
  return none

theorem Call.start_rules (call : Call) (m : Machine) :
    (m.depth < m.maxDepth ∧ call.start m = .ok none (m.activate call)) ∨
      (m.maxDepth ≤ m.depth ∧
        call.start m = .error (.raised (.depthExceeded m.maxDepth)) m) := by
  have hrules := call.enter_rules m
  generalize henter : call.enter m = r at hrules
  cases hrules with
  | activated hdepth =>
    left
    rw [start, bind_ok henter]
    exact ⟨hdepth, rfl⟩
  | tooDeep hdepth =>
    right
    rw [start, bind_error henter]
    exact ⟨hdepth, rfl⟩

/-- What a send makes of the reply of the primitive that it has tried. -/
def Call.conclude (call : Call) (index : Nat) (selector : String) : Reply → Action (Option Value)
  | .answered v => return some v
  | .entered => return none
  | .declined => do
    record (.declined index selector)
    call.start

variable {m receiver selector args}

namespace Finds

variable {method : Value} {c : Method} {m' : Machine}

theorem startSend_eq_start (h : Finds m receiver selector args method c m')
    (hprimitive : c.primitive = none) :
    startSend receiver selector args m = (c.call method receiver args).start m' := by
  obtain ⟨hresolve, hentry⟩ := h
  rw [startSend, bind_get, hresolve, bind_ok (ofExcept_ok _)]
  dsimp only
  rw [bind_get, record, bind_modify, bind_get, ← Machine.note,
    show Machine.entry (Machine.note _ _) selector method = .ok c from hentry,
    bind_ok (ofExcept_ok c), hprimitive]
  rfl

theorem startSend_eq_conclude (h : Finds m receiver selector args method c m') {index : Nat}
    (hprimitive : c.primitive = some index) :
    startSend receiver selector args m =
      (tryPrimitive index receiver args >>=
        (c.call method receiver args).conclude index selector) m' := by
  obtain ⟨hresolve, hentry⟩ := h
  rw [startSend, bind_get, hresolve, bind_ok (ofExcept_ok _)]
  dsimp only
  rw [bind_get, record, bind_modify, bind_get, ← Machine.note,
    show Machine.entry (Machine.note _ _) selector method = .ok c from hentry,
    bind_ok (ofExcept_ok c), hprimitive]
  exact congrFun (bind_congr fun reply => by cases reply <;> rfl) _

end Finds

theorem Calls.startSend_eq {call : Call} {m' : Machine}
    (h : Calls m receiver selector args call m') :
    startSend receiver selector args m = call.start m' := by
  cases h with
  | plain hfinds hprimitive => exact hfinds.startSend_eq_start hprimitive
  | declined hfinds hprimitive hwants =>
    rw [hfinds.startSend_eq_conclude hprimitive, bind_ok (tryPrimitive_eq _ _ _ _ hwants)]
    rfl
  | @block method block c index b args' _ hfinds hprimitive hwants hb =>
    have htry := tryPrimitive_eq _ _ _ _ hwants
    have henter := enterBlock_eq hb args'
    rw [hfinds.startSend_eq_conclude hprimitive, Call.start]
    rw [perform] at htry
    cases hcall : (b.call block args').enter m' with
    | ok _ m'' =>
      rw [bind_ok (henter.trans hcall)] at htry
      rw [bind_ok htry, bind_ok hcall]
      rfl
    | error s m'' =>
      rw [bind_error (henter.trans hcall)] at htry
      rw [bind_error htry, bind_error hcall]

/-- A call that a send comes to is made if it can be. -/
theorem Calls.responds {call : Call} {m' : Machine} (h : Calls m receiver selector args call m') :
    Responds m receiver selector args (call.start m') := by
  rcases call.start_rules m' with ⟨hdepth, heq⟩ | ⟨hdepth, heq⟩
  · rw [heq]
    exact .entered h hdepth
  · rw [heq]
    exact .tooDeep h hdepth

theorem startSend_rules (m : Machine) (receiver : Value) (selector : String) (args : Array Value) :
    Responds m receiver selector args (startSend receiver selector args m) := by
  cases hresolve : m.resolve receiver selector with
  | error f =>
    rw [startSend, bind_get, hresolve]
    exact .unresolved hresolve
  | ok found =>
    obtain ⟨classRef, found⟩ := found
    cases found with
    | none =>
      rw [startSend, bind_get, hresolve]
      exact .missing hresolve
    | some method =>
      cases hentry : m.entry selector method with
      | error f =>
        rw [startSend, bind_get, hresolve, bind_ok (ofExcept_ok _)]
        dsimp only
        rw [bind_get, record, bind_modify, bind_get, ← Machine.note,
          show Machine.entry (Machine.note _ _) selector method = .error f from hentry]
        exact .corrupt hresolve hentry
      | ok c =>
        have hfinds : Finds m receiver selector args method c _ := .found hresolve hentry
        generalize m.note _ = m' at hfinds
        cases hprimitive : c.primitive with
        | none =>
          have hcalls := Calls.plain hfinds hprimitive
          exact hcalls.startSend_eq ▸ hcalls.responds
        | some index =>
          have hrules := tryPrimitive_rules m' index receiver args
          generalize htry : tryPrimitive index receiver args m' = r at hrules
          cases r with
          | error s m'' =>
            rw [hfinds.startSend_eq_conclude hprimitive, bind_error htry]
            exact .stopped hfinds hprimitive hrules
          | ok reply m'' =>
            cases hrules with
            | declined hwants =>
              have hcalls := Calls.declined hfinds hprimitive hwants
              exact hcalls.startSend_eq ▸ hcalls.responds
            | answered hwants hperforms =>
              rw [hfinds.startSend_eq_conclude hprimitive, bind_ok htry]
              exact .answered hfinds hprimitive (.answered hwants hperforms)
            | entered hwants hb hdepth =>
              rw [hfinds.startSend_eq_conclude hprimitive, bind_ok htry]
              exact .entered (.block hfinds hprimitive hwants hb) hdepth

end

end ObjectMachine

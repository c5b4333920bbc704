import ObjectMachine.Proofs.SendRules

/-!
# Rules for steps

The instructions in three groups: those that change only the operands and the
offset of the active context, those that cannot be carried out, and the rest,
which write to memory or call. `step_rules` shows that every step follows one of
the rules, and `Asks` singles out the steps that call.
-/

namespace ObjectMachine

open ObjectMachine.Action

def JumpKind.taken : JumpKind → Value → Bool
  | always, _ => true
  | ifTrue, v => v.isTrue
  | ifFalse, v => !v.isTrue

/-- The instructions that look at the top operand and at no other. -/
def Instruction.usesTop : Instruction → Bool
  | storeInstanceVariable _ | storeTemporary _ | pop | duplicate => true
  | jump kind _ => kind ≠ .always
  | _ => false

/-- A jump from the offset of `c` lands at `target`, inside the code. -/
structure Context.Lands (c : Context) (code : Code) (offset : Int32) (target : Nat) : Prop where
  eq : (c.pc + offset.toInt : Int) = target
  inside : target < code.length

section

variable (m : Machine) (id : ContextId) (c : Context) (code : Code) (literals : Array Value)

/-- Instructions that change only operands and offset of the active context `c`:
these are the operands and the offset after them. -/
inductive Operates : Instruction → Array Value → Nat → Prop
  | pushLiteral {index : UInt32} {v : Value} : literals[index.toNat]? = some v →
      Operates (.pushLiteral index) (c.stack.push v) c.pc
  | pushInstanceVariable {index : UInt32} {v : Value} :
      (m.memory.slots c.receiver)[index.toNat]? = some v →
      Operates (.pushInstanceVariable index) (c.stack.push v) c.pc
  | pushTemporary {index : UInt32} {v : Value} : m.memory.temporary? id index.toNat = some v →
      Operates (.pushTemporary index) (c.stack.push v) c.pc
  | pushSelf : Operates .pushSelf (c.stack.push c.receiver) c.pc
  | pop {v : Value} : c.stack.back? = some v → Operates .pop c.stack.pop c.pc
  | duplicate {v : Value} : c.stack.back? = some v → Operates .duplicate (c.stack.push v) c.pc
  | jump {offset : Int32} {target : Nat} : c.Lands code offset target →
      Operates (.jump .always offset) c.stack target
  | taken {kind : JumpKind} {offset : Int32} {v : Value} {target : Nat} : kind ≠ .always →
      c.stack.back? = some v → kind.taken v = true → c.Lands code offset target →
      Operates (.jump kind offset) c.stack.pop target
  | passed {kind : JumpKind} {offset : Int32} {v : Value} : kind ≠ .always →
      c.stack.back? = some v → kind.taken v = false → Operates (.jump kind offset) c.stack.pop c.pc

/-- Instructions that cannot be carried out: why, and the operands that are left. -/
inductive Refuses : Instruction → Stop → Array Value → Prop
  | pushLiteral {index : UInt32} : literals.size ≤ index.toNat →
      Refuses (.pushLiteral index) (.raised (.literalOutOfBounds index.toNat literals.size)) c.stack
  | pushInstanceVariable {index : UInt32} : (m.memory.slots c.receiver).size ≤ index.toNat →
      Refuses (.pushInstanceVariable index)
        (.raised (.instanceVariableOutOfBounds index.toNat (m.memory.slots c.receiver).size))
        c.stack
  | storeInstanceVariable {index : UInt32} {v : Value} : c.stack.back? = some v →
      (m.memory.slots c.receiver).size ≤ index.toNat →
      Refuses (.storeInstanceVariable index)
        (.raised (.instanceVariableOutOfBounds index.toNat (m.memory.slots c.receiver).size))
        c.stack
  | pushTemporary {index : UInt32} : m.memory.temporary? id index.toNat = none →
      Refuses (.pushTemporary index) (.raised (.temporaryOutOfBounds index.toNat)) c.stack
  | storeTemporary {index : UInt32} {v : Value} : c.stack.back? = some v →
      m.memory.home? id index.toNat = none →
      Refuses (.storeTemporary index) (.raised (.temporaryOutOfBounds index.toNat)) c.stack
  | jump {offset : Int32} : (∀ target, ¬c.Lands code offset target) →
      Refuses (.jump .always offset)
        (.raised (.jumpOutOfBounds (c.pc + offset.toInt) code.length)) c.stack
  | taken {kind : JumpKind} {offset : Int32} {v : Value} : kind ≠ .always →
      c.stack.back? = some v → kind.taken v = true → (∀ target, ¬c.Lands code offset target) →
      Refuses (.jump kind offset)
        (.raised (.jumpOutOfBounds (c.pc + offset.toInt) code.length)) c.stack.pop
  | underflow {i : Instruction} : i.usesTop = true → c.stack.back? = none →
      Refuses i (.fault (.stackUnderflow c.pc)) c.stack
  | noSelector {index argc : UInt32} : literals.size ≤ index.toNat →
      Refuses (.send index argc) (.raised (.literalOutOfBounds index.toNat literals.size)) c.stack
  | notSymbol {index argc : UInt32} {selector : Value} : literals[index.toNat]? = some selector →
      m.symbolName? selector = none →
      Refuses (.send index argc) (.raised (.selectorNotSymbol selector)) c.stack
  | fewArguments {index argc : UInt32} {selector : Value} {name : String} :
      literals[index.toNat]? = some selector → m.symbolName? selector = some name →
      c.stack.size < argc.toNat →
      Refuses (.send index argc) (.fault (.stackShortage c.pc argc.toNat c.stack.size)) c.stack
  | noReceiver {index argc : UInt32} {selector : Value} {name : String} :
      literals[index.toNat]? = some selector → m.symbolName? selector = some name →
      c.stack.size = argc.toNat → Refuses (.send index argc) (.raised (.nilReceiver name)) #[]
  | manyLiterals {body : Code} {count temporaries : UInt32} : literals.size < count.toNat →
      Refuses (.createBlock body count temporaries)
        (.raised (.literalOutOfBounds count.toNat literals.size)) c.stack
  | fewBlockArguments {argc : UInt32} : c.stack.size < argc.toNat →
      Refuses (.executeBlock argc) (.fault (.stackShortage c.pc argc.toNat c.stack.size)) c.stack
  | noBlock {argc : UInt32} : c.stack.size = argc.toNat →
      Refuses (.executeBlock argc) (.fault (.stackUnderflow c.pc)) #[]
  | notBlock {argc : UInt32} {rest args : Array Value} {block : Value} :
      c.stack = rest.push block ++ args → args.size = argc.toNat →
      (∀ b, m.memory.body? block ≠ some (.block b)) →
      Refuses (.executeBlock argc) (.raised (.type .block block)) rest

/-- How an instruction other than a return is carried out by the active context
`c`, which stands after it. -/
inductive Carries : Instruction → EStateM.Result Stop Machine Unit → Prop
  | operated {i : Instruction} {stack : Array Value} {pc : Nat} :
      Operates m id c code literals i stack pc →
      Carries i (.ok () (m.setContext id { c with stack, pc }))
  | refused {i : Instruction} {s : Stop} {stack : Array Value} :
      Refuses m id c code literals i s stack →
      Carries i (.error s (m.setContext id { c with stack }))
  | slotStored {index : UInt32} {v : Value} : c.stack.back? = some v →
      index.toNat < (m.memory.slots c.receiver).size →
      Carries (.storeInstanceVariable index) (.ok () (m.write c.receiver (.setSlot index.toNat v)))
  | temporaryStored {index : UInt32} {v : Value} {home : ContextId} : c.stack.back? = some v →
      m.memory.home? id index.toNat = some home →
      Carries (.storeTemporary index)
        (.ok () { m with memory := m.memory.setTemporary home index.toNat v })
  | answered {index argc : UInt32} {selector receiver v : Value} {name : String}
      {rest args : Array Value} {m' : Machine} :
      literals[index.toNat]? = some selector → m.symbolName? selector = some name →
      c.stack = rest.push receiver ++ args → args.size = argc.toNat →
      Responds (m.setContext id { c with stack := rest }) receiver name args (.ok (some v) m') →
      Carries (.send index argc) (.ok () (m'.pushed v))
  | entered {index argc : UInt32} {selector receiver : Value} {name : String}
      {rest args : Array Value} {m' : Machine} :
      literals[index.toNat]? = some selector → m.symbolName? selector = some name →
      c.stack = rest.push receiver ++ args → args.size = argc.toNat →
      Responds (m.setContext id { c with stack := rest }) receiver name args (.ok none m') →
      Carries (.send index argc) (.ok () m')
  | stopped {index argc : UInt32} {selector receiver : Value} {name : String}
      {rest args : Array Value} {s : Stop} {m' : Machine} :
      literals[index.toNat]? = some selector → m.symbolName? selector = some name →
      c.stack = rest.push receiver ++ args → args.size = argc.toNat →
      Responds (m.setContext id { c with stack := rest }) receiver name args (.error s m') →
      Carries (.send index argc) (.error s m')
  | blockMade {body : Code} {count temporaries : UInt32} {v : Value} {m' : Machine} :
      count.toNat ≤ literals.size →
      newBlock ⟨body, literals.take count.toNat, temporaries.toNat, some id⟩ m = .ok v m' →
      Carries (.createBlock body count temporaries) (.ok () (m'.pushed v))
  | blockNotMade {body : Code} {count temporaries : UInt32} {s : Stop} {m' : Machine} :
      count.toNat ≤ literals.size →
      newBlock ⟨body, literals.take count.toNat, temporaries.toNat, some id⟩ m = .error s m' →
      Carries (.createBlock body count temporaries) (.error s m')
  | blockEntered {argc : UInt32} {rest args : Array Value} {block : Value} {b : Block} :
      c.stack = rest.push block ++ args → args.size = argc.toNat →
      m.memory.body? block = some (.block b) → m.depth < m.maxDepth →
      Carries (.executeBlock argc)
        (.ok () ((m.setContext id { c with stack := rest }).activate (b.call block args)))
  | tooDeep {argc : UInt32} {rest args : Array Value} {block : Value} {b : Block} :
      c.stack = rest.push block ++ args → args.size = argc.toNat →
      m.memory.body? block = some (.block b) → m.maxDepth ≤ m.depth →
      Carries (.executeBlock argc)
        (.error (.raised (.depthExceeded m.maxDepth)) (m.setContext id { c with stack := rest }))

end

section

variable {m : Machine} {id : ContextId} {c : Context} {code : Code} {literals : Array Value}

theorem Carries.still {i : Instruction} {s : Stop} (h : m.Runs id c)
    (hi : Refuses m id c code literals i s c.stack) :
    Carries m id c code literals i (.error s m) := by
  have hcarries := Carries.refused hi
  rwa [Machine.setContext_self h.context] at hcarries

theorem literal_eq {index : Nat} {v : Value} (h : literals[index]? = some v) :
    literal literals index m = .ok v m := by
  rw [literal, h]
  rfl

theorem literal_eq_error {index : Nat} (h : literals[index]? = none) :
    literal literals index m = .error (.raised (.literalOutOfBounds index literals.size)) m := by
  rw [literal, h]
  rfl

theorem jumpTo_eq (h : m.Runs id c) {offset : Int32} {target : Nat}
    (hlands : c.Lands code offset target) :
    jumpTo (c.pc + offset.toInt) code.length m =
      .ok () (m.setContext id { c with pc := target }) := by
  have hinside := hlands.inside
  rw [jumpTo, hlands.eq, if_neg (by omega)]
  exact modifyActive_eq h _

theorem jumpTo_eq_error {offset : Int32} (h : ∀ target, ¬c.Lands code offset target) :
    jumpTo (c.pc + offset.toInt) code.length m =
      .error (.raised (.jumpOutOfBounds (c.pc + offset.toInt) code.length)) m := by
  have hout : (c.pc + offset.toInt : Int) < 0 ∨ (code.length : Int) ≤ c.pc + offset.toInt :=
    Decidable.byContradiction fun _ =>
      h (c.pc + offset.toInt : Int).toNat ⟨by omega, by omega⟩
  rw [jumpTo, if_pos hout]
  rfl

theorem Carries.pushes (h : m.Runs id c) {i : Instruction} {v : Value}
    (hi : Operates m id c code literals i (c.stack.push v) c.pc) :
    Carries m id c code literals i (push v m) := by
  rw [push, modifyActive_eq h]
  exact .operated hi

theorem storeInstanceVariable_rules (h : m.Runs id c) (next : Nat) (index : UInt32) :
    Carries m id c code literals (.storeInstanceVariable index)
      (execute code literals next (.storeInstanceVariable index) m) := by
  rw [execute, bind_ok (active_eq h)]
  cases hv : c.stack.back? with
  | none =>
    rw [bind_error (top_eq_error h hv)]
    exact .still h (.underflow rfl hv)
  | some v =>
    rw [bind_ok (top_eq h hv), bind_get]
    dsimp only
    split_ifs with hsize
    · exact .still h (.storeInstanceVariable hv hsize)
    · exact .slotStored hv (Nat.lt_of_not_le hsize)

theorem storeTemporary_rules (h : m.Runs id c) (next : Nat) (index : UInt32) :
    Carries m id c code literals (.storeTemporary index)
      (execute code literals next (.storeTemporary index) m) := by
  rw [execute]
  cases hv : c.stack.back? with
  | none =>
    rw [bind_error (top_eq_error h hv)]
    exact .still h (.underflow rfl hv)
  | some v =>
    rw [bind_ok (top_eq h hv), bind_get, bind_ok (activeId_eq h)]
    cases hhome : m.memory.home? id index.toNat with
    | none => exact .still h (.storeTemporary hv hhome)
    | some home => exact .temporaryStored hv hhome

/-- A jump that depends on the top operand. -/
theorem conditionalJump_rules (h : m.Runs id c) {kind : JumpKind} (hkind : kind ≠ .always)
    (offset : Int32) {f : Value → Action Unit}
    (hf : ∀ v, f v =
      if kind.taken v = true then jumpTo (c.pc + offset.toInt) code.length else pure ()) :
    Carries m id c code literals (.jump kind offset) ((pop >>= f) m) := by
  cases hv : c.stack.back? with
  | none =>
    rw [bind_error (pop_eq_error h hv)]
    exact .still h (.underflow (decide_eq_true hkind) hv)
  | some v =>
    have hrest := h.setContext { c with stack := c.stack.pop }
    rw [bind_ok (pop_eq h hv), hf]
    split_ifs with htaken
    · by_cases hlands : ∃ target, c.Lands code offset target
      · obtain ⟨target, hlands⟩ := hlands
        rw [jumpTo_eq hrest ⟨hlands.eq, hlands.inside⟩, Machine.setContext_setContext]
        exact .operated (.taken hkind hv htaken hlands)
      · have hnone : ∀ target, ¬c.Lands code offset target := fun target ht => hlands ⟨target, ht⟩
        rw [jumpTo_eq_error hnone]
        exact .refused (.taken hkind hv htaken hnone)
    · exact .operated (.passed hkind hv (Bool.eq_false_iff.mpr htaken))

theorem pop_setContext (h : m.Runs id c) (rest : Array Value) (v : Value) :
    pop (m.setContext id { c with stack := rest.push v }) =
      .ok v (m.setContext id { c with stack := rest }) := by
  rw [pop_eq (h.setContext _) (Array.back?_push ..), Machine.setContext_setContext, Array.pop_push]

/-- An operand with `argc` others above it. -/
theorem exists_split {stack : Array Value} {argc : Nat} (h : argc < stack.size) :
    ∃ (rest : Array Value) (v : Value) (args : Array Value),
      stack = rest.push v ++ args ∧ args.size = argc := by
  have hlt : stack.size - argc - 1 < stack.toList.length := by
    rw [Array.length_toList]
    omega
  refine ⟨⟨stack.toList.take (stack.size - argc - 1)⟩, stack.toList[stack.size - argc - 1],
    ⟨stack.toList.drop (stack.size - argc - 1 + 1)⟩, ?_, ?_⟩
  · have hdrop := List.drop_eq_getElem_cons hlt
    apply Array.toList_inj.mp
    simp only [Array.toList_append, Array.toList_push, List.append_assoc, List.singleton_append,
      ← hdrop, List.take_append_drop]
  · simp only [List.size_toArray, List.length_drop, Array.length_toList]
    omega

/-- Push the answer of a send if there is one already. -/
def deliver : Option Value → Action Unit
  | some v => push v
  | none => return

theorem send_eq (h : m.Runs id c) {index argc : UInt32} {selector receiver : Value} {name : String}
    {rest args : Array Value} (next : Nat) (hselector : literals[index.toNat]? = some selector)
    (hname : m.symbolName? selector = some name) (hstack : c.stack = rest.push receiver ++ args)
    (hsize : args.size = argc.toNat) :
    execute code literals next (.send index argc) m =
      (startSend receiver name args >>= deliver) (m.setContext id { c with stack := rest }) := by
  have hpop := popMany_eq h hstack
  have hafter := h.setContext { c with stack := rest.push receiver }
  rw [hsize] at hpop
  rw [execute, bind_ok (literal_eq hselector), bind_get, hname]
  dsimp only
  rw [bind_ok hpop, bind_ok (active_eq hafter), if_neg (by simp),
    bind_ok (pop_setContext h rest receiver)]
  exact congrFun (bind_congr fun answer => by cases answer <;> rfl) _

theorem send_rules (h : m.Runs id c) (next : Nat) (index argc : UInt32) :
    Carries m id c code literals (.send index argc)
      (execute code literals next (.send index argc) m) := by
  cases hselector : literals[index.toNat]? with
  | none =>
    rw [execute, bind_error (literal_eq_error hselector)]
    exact .still h (.noSelector (Array.getElem?_eq_none_iff.mp hselector))
  | some selector =>
    cases hname : m.symbolName? selector with
    | none =>
      rw [execute, bind_ok (literal_eq hselector), bind_get, hname]
      exact .still h (.notSymbol hselector hname)
    | some name =>
      rcases Nat.lt_trichotomy c.stack.size argc.toNat with hfew | hall | hsome
      · rw [execute, bind_ok (literal_eq hselector), bind_get, hname]
        dsimp only
        rw [bind_error (popMany_eq_error h hfew)]
        exact .still h (.fewArguments hselector hname hfew)
      · have hpop := popMany_eq h (Array.empty_append).symm
        rw [hall] at hpop
        rw [execute, bind_ok (literal_eq hselector), bind_get, hname]
        dsimp only
        rw [bind_ok hpop, bind_ok (active_eq (h.setContext _))]
        exact .refused (.noReceiver hselector hname hall)
      · obtain ⟨rest, receiver, args, hstack, hsize⟩ := exists_split hsome
        rw [send_eq h next hselector hname hstack hsize]
        have hrules := startSend_rules (m.setContext id { c with stack := rest }) receiver name args
        generalize hstart : startSend receiver name args _ = r at hrules
        cases r with
        | error s m' =>
          rw [bind_error hstart]
          exact .stopped hselector hname hstack hsize hrules
        | ok answer m' =>
          rw [bind_ok hstart]
          cases answer with
          | some v => exact .answered hselector hname hstack hsize hrules
          | none => exact .entered hselector hname hstack hsize hrules

theorem createBlock_rules (h : m.Runs id c) (next : Nat) (body : Code)
    (count temporaries : UInt32) :
    Carries m id c code literals (.createBlock body count temporaries)
      (execute code literals next (.createBlock body count temporaries) m) := by
  rw [execute]
  split_ifs with hcount
  · exact .still h (.manyLiterals hcount)
  · have hcount : count.toNat ≤ literals.size := Nat.le_of_not_lt hcount
    change Carries m id c code literals _ ((activeId >>= _) m)
    rw [bind_ok (activeId_eq h)]
    cases hnew : newBlock ⟨body, literals.take count.toNat, temporaries.toNat, some id⟩ m with
    | error s m' =>
      rw [bind_error hnew]
      exact .blockNotMade hcount hnew
    | ok v m' =>
      rw [bind_ok hnew]
      exact .blockMade hcount hnew

theorem executeBlock_eq (h : m.Runs id c) {argc : UInt32} {rest args : Array Value} {block : Value}
    (next : Nat) (hstack : c.stack = rest.push block ++ args) (hsize : args.size = argc.toNat) :
    execute code literals next (.executeBlock argc) m =
      enterBlock block args (m.setContext id { c with stack := rest }) := by
  have hpop := popMany_eq h hstack
  rw [hsize] at hpop
  rw [execute, bind_ok hpop, bind_ok (pop_setContext h rest block)]

theorem executeBlock_rules (h : m.Runs id c) (next : Nat) (argc : UInt32) :
    Carries m id c code literals (.executeBlock argc)
      (execute code literals next (.executeBlock argc) m) := by
  rcases Nat.lt_trichotomy c.stack.size argc.toNat with hfew | hall | hsome
  · rw [execute, bind_error (popMany_eq_error h hfew)]
    exact .still h (.fewBlockArguments hfew)
  · have hpop := popMany_eq h (Array.empty_append).symm
    rw [hall] at hpop
    rw [execute, bind_ok hpop, bind_error (pop_eq_error (h.setContext _) rfl)]
    exact .refused (.noBlock hall)
  · obtain ⟨rest, block, args, hstack, hsize⟩ := exists_split hsome
    rw [executeBlock_eq h next hstack hsize]
    by_cases hblock : ∃ b, m.memory.body? block = some (.block b)
    · obtain ⟨b, hb⟩ := hblock
      rw [enterBlock_eq (m := m.setContext id { c with stack := rest }) hb]
      have hrules := (b.call block args).enter_rules (m.setContext id { c with stack := rest })
      generalize (b.call block args).enter _ = r at hrules
      cases hrules with
      | activated hdepth => exact .blockEntered hstack hsize hb hdepth
      | tooDeep hdepth => exact .tooDeep hstack hsize hb hdepth
    · have hnone : ∀ b, m.memory.body? block ≠ some (.block b) := fun b hb => hblock ⟨b, hb⟩
      rw [enterBlock_eq_error (m := m.setContext id { c with stack := rest }) hnone]
      exact .refused (.notBlock hstack hsize hnone)

/-- Every instruction but a return follows the rules. -/
theorem execute_rules (h : m.Runs id c) {i : Instruction} (hi : i ≠ .returnTop) :
    Carries m id c code literals i (execute code literals c.pc i m) := by
  cases i with
  | pushLiteral index =>
    rw [execute]
    cases hv : literals[index.toNat]? with
    | none =>
      rw [bind_error (literal_eq_error hv)]
      exact .still h (.pushLiteral (Array.getElem?_eq_none_iff.mp hv))
    | some v =>
      rw [bind_ok (literal_eq hv)]
      exact .pushes h (.pushLiteral hv)
  | pushInstanceVariable index =>
    rw [execute, bind_get, bind_ok (active_eq h)]
    cases hv : (m.memory.slots c.receiver)[index.toNat]? with
    | none => exact .still h (.pushInstanceVariable (Array.getElem?_eq_none_iff.mp hv))
    | some v => exact .pushes h (.pushInstanceVariable hv)
  | pushTemporary index =>
    rw [execute, bind_get, bind_ok (activeId_eq h)]
    cases hv : m.memory.temporary? id index.toNat with
    | none => exact .still h (.pushTemporary hv)
    | some v => exact .pushes h (.pushTemporary hv)
  | pushSelf =>
    rw [execute, bind_ok (active_eq h)]
    exact .pushes h .pushSelf
  | storeInstanceVariable index => exact storeInstanceVariable_rules h _ index
  | storeTemporary index => exact storeTemporary_rules h _ index
  | send index argc => exact send_rules h _ index argc
  | returnTop => exact absurd rfl hi
  | jump kind offset =>
    cases kind with
    | always =>
      rw [execute]
      by_cases hlands : ∃ target, c.Lands code offset target
      · obtain ⟨target, hlands⟩ := hlands
        rw [jumpTo_eq h hlands]
        exact .operated (.jump hlands)
      · have hnone : ∀ target, ¬c.Lands code offset target := fun target ht => hlands ⟨target, ht⟩
        rw [jumpTo_eq_error hnone]
        exact .still h (.jump hnone)
    | ifTrue =>
      rw [execute]
      exact conditionalJump_rules h (by simp) offset fun _ => rfl
    | ifFalse =>
      rw [execute]
      exact conditionalJump_rules h (by simp) offset fun _ => rfl
  | pop =>
    rw [execute]
    cases hv : c.stack.back? with
    | none =>
      rw [bind_error (pop_eq_error h hv)]
      exact .still h (.underflow rfl hv)
    | some v =>
      rw [bind_ok (pop_eq h hv)]
      exact .operated (.pop hv)
  | duplicate =>
    rw [execute]
    cases hv : c.stack.back? with
    | none =>
      rw [bind_error (top_eq_error h hv)]
      exact .still h (.underflow rfl hv)
    | some v =>
      rw [bind_ok (top_eq h hv)]
      exact .pushes h (.duplicate hv)
  | createBlock body count temporaries => exact createBlock_rules h _ body count temporaries
  | executeBlock argc => exact executeBlock_rules h _ argc

end

def Context.past (c : Context) (i : Instruction) : Context := { c with pc := c.pc + i.size }

inductive Steps (m : Machine) : EStateM.Result Stop Machine (Option Value) → Prop
  /-- Nothing runs. -/
  | idle : (∀ id c, ¬m.Runs id c) → Steps m (.error (.fault .noActivation) m)
  /-- The active context has lost its code. -/
  | lost {id : ContextId} {c : Context} {f : Fault} : m.Runs id c → m.program c.method = .error f →
      Steps m (.error (.fault f) m)
  | malformed {id : ContextId} {c : Context} {code : Code} {literals : Array Value}
      {e : DecodeError} : m.Runs id c → m.program c.method = .ok (code, literals) →
      code.fetch? c.pc = some (.error e) → Steps m (.error (.raised (.decode e)) m)
  /-- The code is at its end. -/
  | ended {id : ContextId} {c : Context} {code : Code} {literals : Array Value} : m.Runs id c →
      m.program c.method = .ok (code, literals) → code.fetch? c.pc = none →
      Steps m (.ok (some c.result) m.leave)
  | returned {id : ContextId} {c : Context} {code : Code} {literals : Array Value} : m.Runs id c →
      m.program c.method = .ok (code, literals) → code.fetch? c.pc = some (.ok .returnTop) →
      Steps m (.ok (some c.result) (m.setContext id (c.past .returnTop)).leave)
  | carried {id : ContextId} {c : Context} {code : Code} {literals : Array Value} {i : Instruction}
      {m' : Machine} : m.Runs id c → m.program c.method = .ok (code, literals) →
      code.fetch? c.pc = some (.ok i) → i ≠ .returnTop →
      Carries (m.setContext id (c.past i)) id (c.past i) code literals i (.ok () m') →
      Steps m (.ok none m')
  | stopped {id : ContextId} {c : Context} {code : Code} {literals : Array Value} {i : Instruction}
      {s : Stop} {m' : Machine} : m.Runs id c → m.program c.method = .ok (code, literals) →
      code.fetch? c.pc = some (.ok i) → i ≠ .returnTop →
      Carries (m.setContext id (c.past i)) id (c.past i) code literals i (.error s m') →
      Steps m (.error s m')

theorem finish_eq {m : Machine} {id : ContextId} {c : Context} (h : m.Runs id c) :
    finish m = .ok c.result m.leave := by
  rw [finish, bind_ok (active_eq h), bind_modify]
  rfl

theorem active_eq_error {m : Machine} (h : ∀ id c, ¬m.Runs id c) :
    active m = .error (.fault .noActivation) m := by
  rw [active]
  cases hid : m.active with
  | none =>
    have hactive : activeId m = .error (.fault .noActivation) m := by
      rw [activeId, bind_get, hid]
      rfl
    rw [bind_error hactive]
  | some id =>
    have hactive : activeId m = .ok id m := by
      rw [activeId, bind_get, hid]
      rfl
    rw [bind_ok hactive, bind_get]
    cases hc : m.memory.contexts[id]? with
    | none => rfl
    | some c => exact absurd ⟨hid, hc⟩ (h id c)

theorem step_eq {m : Machine} {id : ContextId} {c : Context} {code : Code} {literals : Array Value}
    {i : Instruction} (h : m.Runs id c) (hprogram : m.program c.method = .ok (code, literals))
    (hfetch : code.fetch? c.pc = some (.ok i)) (hi : i ≠ .returnTop) :
    step m =
      (execute code literals (c.past i).pc i >>= fun _ => pure none)
        (m.setContext id (c.past i)) := by
  rw [step, bind_ok (active_eq h), bind_get, hprogram, bind_ok (ofExcept_ok _)]
  dsimp only
  rw [hfetch]
  dsimp only
  rw [bind_ok (modifyActive_eq h _), if_neg hi]
  rfl

/-- Every step follows the rules. -/
theorem step_rules (m : Machine) : Steps m (step m) := by
  by_cases hruns : ∃ id c, m.Runs id c
  · obtain ⟨id, c, h⟩ := hruns
    cases hprogram : m.program c.method with
    | error f =>
      rw [step, bind_ok (active_eq h), bind_get, hprogram]
      exact .lost h hprogram
    | ok p =>
      obtain ⟨code, literals⟩ := p
      by_cases hi : ∃ i, code.fetch? c.pc = some (.ok i) ∧ i ≠ .returnTop
      · obtain ⟨i, hfetch, hi⟩ := hi
        rw [step_eq h hprogram hfetch hi]
        have hrules : Carries _ id _ code literals i _ := execute_rules (h.setContext (c.past i)) hi
        generalize hexecute : execute code literals (c.past i).pc i _ = r at hrules
        cases r with
        | ok _ m' =>
          rw [bind_ok hexecute]
          exact .carried h hprogram hfetch hi hrules
        | error s m' =>
          rw [bind_error hexecute]
          exact .stopped h hprogram hfetch hi hrules
      · rw [step, bind_ok (active_eq h), bind_get, hprogram, bind_ok (ofExcept_ok _)]
        dsimp only
        cases hfetch : code.fetch? c.pc with
        | none =>
          dsimp only
          rw [bind_ok (finish_eq h)]
          exact .ended h hprogram hfetch
        | some fetched =>
          cases fetched with
          | error e => exact .malformed h hprogram hfetch
          | ok i =>
            obtain rfl : i = .returnTop := Decidable.byContradiction fun hne => hi ⟨i, hfetch, hne⟩
            dsimp only
            rw [bind_ok (modifyActive_eq h _), if_pos rfl, bind_ok (finish_eq (h.setContext _))]
            exact .returned h hprogram hfetch
  · have hidle : ∀ id c, ¬m.Runs id c := fun id c h => hruns ⟨id, c, h⟩
    rw [step, bind_error (active_eq_error hidle)]
    exact .idle hidle

/-- The next instruction asks for a call, which the machine after it makes. -/
inductive Asks (m : Machine) : Call → Machine → Prop
  | send {id : ContextId} {c : Context} {code : Code} {literals : Array Value} {index argc : UInt32}
      {selector receiver : Value} {name : String} {rest args : Array Value} {call : Call}
      {m' : Machine} : m.Runs id c → m.program c.method = .ok (code, literals) →
      code.fetch? c.pc = some (.ok (.send index argc)) → literals[index.toNat]? = some selector →
      m.symbolName? selector = some name → c.stack = rest.push receiver ++ args →
      args.size = argc.toNat →
      Calls
        (m.setContext id { c with stack := rest, pc := c.pc + (Instruction.send index argc).size })
        receiver name args call m' → Asks m call m'
  | executeBlock {id : ContextId} {c : Context} {code : Code} {literals : Array Value}
      {argc : UInt32} {rest args : Array Value} {block : Value} {b : Block} : m.Runs id c →
      m.program c.method = .ok (code, literals) →
      code.fetch? c.pc = some (.ok (.executeBlock argc)) → c.stack = rest.push block ++ args →
      args.size = argc.toNat → m.memory.body? block = some (.block b) →
      Asks m (b.call block args)
        (m.setContext id
          { c with stack := rest, pc := c.pc + (Instruction.executeBlock argc).size })

theorem Call.start_deliver (call : Call) : call.start >>= deliver = call.enter := by
  simp only [start, bind_assoc, pure_bind, deliver]
  exact bind_pure_unit

/-- A step that asks for a call does nothing else. -/
theorem Asks.step_eq {m m' : Machine} {call : Call} (h : Asks m call m') :
    step m = call.start m' := by
  cases h with
  | @send id c code literals index argc selector receiver name rest args _ _ hruns hprogram hfetch
      hselector hname hstack hsize hcalls =>
    rw [ObjectMachine.step_eq hruns hprogram hfetch (by simp)]
    apply bind_eq
    have hpast := hruns.setContext (c.past (.send index argc))
    rw [send_eq hpast _ hselector hname hstack hsize, Machine.setContext_setContext,
      ← call.start_deliver]
    exact bind_eq hcalls.startSend_eq deliver
  | @executeBlock id c code literals argc rest args block b hruns hprogram hfetch hstack hsize hb =>
    rw [ObjectMachine.step_eq hruns hprogram hfetch (by simp)]
    apply bind_eq
    have hpast := hruns.setContext (c.past (.executeBlock argc))
    rw [executeBlock_eq hpast _ hstack hsize, Machine.setContext_setContext]
    exact enterBlock_eq (m := m.setContext id _) hb args

end ObjectMachine

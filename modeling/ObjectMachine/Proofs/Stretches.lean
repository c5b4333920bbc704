import ObjectMachine.Proofs.Callers

/-!
# Stretches of code

Between two calls that enter a context, a context works through its instructions by
itself. Such a stretch is followed here instruction by instruction. It depends on the
objects of the machine alone: not on what else runs, nor on what has run before.
-/

namespace ObjectMachine

open ObjectMachine.Action

namespace Machine

/-- Nothing has been made, moved or written since `m`: only the contexts, what runs and the
journal may differ. -/
inductive SameObjects (m : Machine) : Machine → Prop
  | mk (contexts : Array Context) (active : Option ContextId) (depth : Nat)
      (journal : Array Event) :
      SameObjects m { m with memory := { m.memory with contexts }, active, depth, journal }

namespace SameObjects

variable {m m' m'' : Machine}

protected theorem refl (m : Machine) : m.SameObjects m :=
  .mk m.memory.contexts m.active m.depth m.journal

protected theorem trans (h : m.SameObjects m') (h' : m'.SameObjects m'') : m.SameObjects m'' := by
  cases h with
  | mk => cases h' with
    | mk contexts active depth journal => exact .mk contexts active depth journal

theorem setContext (h : m.SameObjects m') (id : ContextId) (c : Context) :
    m.SameObjects (m'.setContext id c) :=
  h.trans (.mk _ m'.active m'.depth m'.journal)

theorem note (h : m.SameObjects m') (e : Event) : m.SameObjects (m'.note e) :=
  h.trans (.mk m'.memory.contexts m'.active m'.depth _)

theorem activate (h : m.SameObjects m') (call : Call) : m.SameObjects (m'.activate call) :=
  h.trans (.mk _ _ _ m'.journal)

theorem leave (h : m.SameObjects m') : m.SameObjects m'.leave := by
  refine h.trans ?_
  unfold Machine.leave
  split
  · exact .refl m'
  · exact .mk _ _ _ m'.journal

theorem unwind (h : m.SameObjects m') (base : Nat) : m.SameObjects (m'.unwind base) := by
  unfold Machine.unwind
  induction m'.depth - base with
  | zero => exact h
  | succ n ih => exact ih.leave

theorem objects_eq (h : m.SameObjects m') : m'.memory.objects = m.memory.objects := by
  cases h
  rfl

theorem core_eq (h : m.SameObjects m') : m'.core = m.core := by
  cases h
  rfl

theorem maxDepth_eq (h : m.SameObjects m') : m'.maxDepth = m.maxDepth := by
  cases h
  rfl

theorem program_eq (h : m.SameObjects m') (v : Value) : m'.program v = m.program v := by
  cases h
  rfl

theorem symbolName?_eq (h : m.SameObjects m') (v : Value) : m'.symbolName? v = m.symbolName? v := by
  cases h
  rfl

end SameObjects

end Machine

namespace Machine

variable {m m' : Machine} {selector : String} {method v : Value} {x : Method} {n : SmallInteger}
  {args : Array Value}

theorem body?_congr (h : m'.memory.objects = m.memory.objects) (v : Value) :
    m'.memory.body? v = m.memory.body? v := by
  cases v <;> simp [Memory.body?, Memory.object?, h]

theorem lookupFrom_congr (h : m'.memory.objects = m.memory.objects) (selector : String)
    (fuel : Nat) (v : Value) :
    m'.lookupFrom selector fuel v = m.lookupFrom selector fuel v := by
  induction fuel generalizing v with
  | zero => rfl
  | succ fuel ih => simp only [lookupFrom, ownMethod?, body, body?_congr h, ih]

/-- A message `selector` to an integer finds `x` in the object `method`. -/
structure Understands (m : Machine) (selector : String) (method : Value) (x : Method) : Prop where
  lookup : m.lookup m.core.integer selector = .ok (some method)
  body : m.memory.body? method = some (.method x)

namespace Understands

variable (h : m.Understands selector method x)

include h

theorem congr (hobjects : m'.memory.objects = m.memory.objects) (hcore : m'.core = m.core) :
    m'.Understands selector method x where
  lookup := by
    have hlookup := h.lookup
    unfold Machine.lookup at hlookup ⊢
    rwa [lookupFrom_congr hobjects, hobjects, hcore]
  body := by rw [body?_congr hobjects, h.body]

theorem same (hm : m.SameObjects m') : m'.Understands selector method x :=
  h.congr hm.objects_eq hm.core_eq

theorem program_eq : m.program method = .ok (x.code, x.literals) := by
  simp only [program, Machine.body, h.body]
  rfl

theorem finds (n : SmallInteger) (args : Array Value) :
    Finds m (.integer n) selector args method x
      (m.note (.sent (m.className m.core.integer) selector args.size)) := by
  apply Finds.found
  · simp only [resolve, classOf, bind, Except.bind, h.lookup]
    rfl
  · simp only [entry, Machine.body, h.body]
    rfl

variable {index : Nat} {row : PrimitiveRow} (hx : x.primitive = some index)
  (hrow : Primitive.row? index = some row)

include hx hrow

/-- The primitive of the method computes the answer from the operands alone. -/
theorem startSend_answered
    (heffect : ∀ m', row.primitive.effect m' (.integer n) args.toList = .ok (.answer v)) :
    startSend (.integer n) selector args m =
      .ok (some v) (m.note (.sent (m.className m.core.integer) selector args.size)) := by
  have hwants : Wants (m.note (.sent (m.className m.core.integer) selector args.size)) index
      (.integer n) args (.ok (.answer v)) := ⟨row, hrow, heffect _⟩
  rw [(h.finds n args).startSend_eq_conclude hx, bind_ok (tryPrimitive_eq _ _ _ _ hwants)]
  rfl

theorem startSend_faulted {f : Fault}
    (heffect : ∀ m', row.primitive.effect m' (.integer n) args.toList = .error f) :
    startSend (.integer n) selector args m =
      .error (.fault f) (m.note (.sent (m.className m.core.integer) selector args.size)) := by
  have hwants : Wants (m.note (.sent (m.className m.core.integer) selector args.size)) index
      (.integer n) args (.error f) := ⟨row, hrow, heffect _⟩
  rw [(h.finds n args).startSend_eq_conclude hx, bind_error (tryPrimitive_eq_error _ _ _ _ hwants)]

end Understands

end Machine

section

variable {m m' : Machine} {id : ContextId} {c : Context} {code : Code} {literals : Array Value}
  {i : Instruction} {stack : Array Value} {pc : Nat}

theorem Operates.execute_eq (h : m.Runs id c) (hop : Operates m id c code literals i stack pc) :
    execute code literals c.pc i m = .ok () (m.setContext id { c with stack, pc }) := by
  cases hop with
  | pushLiteral hv =>
    rw [execute, bind_ok (literal_eq hv)]
    exact modifyActive_eq h _
  | pushInstanceVariable hv =>
    rw [execute, bind_get, bind_ok (active_eq h), hv]
    exact modifyActive_eq h _
  | pushTemporary hv =>
    rw [execute, bind_get, bind_ok (activeId_eq h), hv]
    exact modifyActive_eq h _
  | pushSelf =>
    rw [execute, bind_ok (active_eq h)]
    exact modifyActive_eq h _
  | pop hv =>
    rw [execute, bind_ok (pop_eq h hv)]
    rfl
  | duplicate hv =>
    rw [execute, bind_ok (top_eq h hv)]
    exact modifyActive_eq h _
  | jump hlands =>
    rw [execute]
    exact jumpTo_eq h hlands
  | @taken kind offset v target hkind hv htaken hlands =>
    have hlands' : Context.Lands { c with stack := c.stack.pop } code offset pc :=
      ⟨hlands.eq, hlands.inside⟩
    have hjump := jumpTo_eq (h.setContext { c with stack := c.stack.pop }) hlands'
    rw [Machine.setContext_setContext] at hjump
    cases kind with
    | always => exact absurd rfl hkind
    | ifTrue | ifFalse =>
      simp only [JumpKind.taken] at htaken
      rw [execute, bind_ok (pop_eq h hv)]
      simp only [htaken, if_true]
      exact hjump
  | @passed kind offset v hkind hv htaken =>
    cases kind with
    | always => exact absurd rfl hkind
    | ifTrue | ifFalse =>
      simp only [JumpKind.taken] at htaken
      rw [execute, bind_ok (pop_eq h hv)]
      simp only [htaken, Bool.false_eq_true, if_false]
      rfl

end

namespace Machine

/-- The code of `method` sends `name` with `argc` arguments at one offset, and goes on at the
next. -/
def SendsAt (m : Machine) (method : Value) (pc : Nat) (name : String) (argc next : Nat) : Prop :=
  ∃ code literals index count selector, m.program method = .ok (code, literals) ∧
    code.fetch? pc = some (.ok (.send index count)) ∧ literals[index.toNat]? = some selector ∧
    m.symbolName? selector = some name ∧ count.toNat = argc ∧
    pc + (Instruction.send index count).size = next

theorem SendsAt.step_eq {m m' : Machine} {method r : Value} {pc next : Nat} {name : String}
    {rest args : Array Value} {id : ContextId} {c : Context}
    (h : m.SendsAt method pc name args.size next) (hm : m.SameObjects m') (hruns : m'.Runs id c)
    (hmethod : c.method = method) (hpc : c.pc = pc) (hstack : c.stack = rest.push r ++ args) :
    step m' = (startSend r name args >>= fun answer => deliver answer >>= fun _ => pure none)
      (m'.setContext id { c with stack := rest, pc := next }) := by
  obtain ⟨code, literals, index, count, selector, hprogram, hfetch, hselector, hname, hcount,
    hnext⟩ := h
  rw [← hm.program_eq, ← hmethod] at hprogram
  rw [← hpc] at hfetch hnext
  rw [← hm.symbolName?_eq] at hname
  have hexecute : execute code literals (c.past (.send index count)).pc (.send index count) _ = _ :=
    send_eq (hruns.setContext (c.past (.send index count))) _ hselector hname hstack hcount.symm
  rw [ObjectMachine.step_eq hruns hprogram hfetch (by simp), bind_eq hexecute,
    setContext_setContext, bind_assoc, ← hnext]
  rfl

/-- Wherever `method` runs for `receiver` in a machine with the objects of `m`, it comes from
these operands and this offset to those in so many steps. -/
def Stretch (m : Machine) (method receiver : Value) (steps : Nat) (stack : Array Value) (pc : Nat)
    (stack' : Array Value) (pc' : Nat) : Prop :=
  ∀ (m' : Machine) (id : ContextId) (c : Context), m.SameObjects m' → m'.Runs id c →
    c.method = method → c.receiver = receiver → c.stack = stack → c.pc = pc →
    ∃ journal, ∀ base left, Visits base (left + steps) m' left
      ({ m' with journal }.setContext id { c with stack := stack', pc := pc' })

namespace Stretch

variable {m : Machine} {method receiver : Value} {steps steps' : Nat}
  {stack stack' stack'' : Array Value} {pc pc' pc'' : Nat} {code : Code} {literals : Array Value}

protected theorem trans (h : m.Stretch method receiver steps stack pc stack' pc')
    (h' : m.Stretch method receiver steps' stack' pc' stack'' pc'') :
    m.Stretch method receiver (steps + steps') stack pc stack'' pc'' := by
  intro m' id c hm hruns hmethod hreceiver hstack hpc
  obtain ⟨journal, hvisits⟩ := h m' id c hm hruns hmethod hreceiver hstack hpc
  have hm₁ : m.SameObjects { m' with journal } :=
    hm.trans (.mk m'.memory.contexts m'.active m'.depth journal)
  have hruns₁ : { m' with journal }.Runs id c := ⟨hruns.active, hruns.context⟩
  obtain ⟨journal', hvisits'⟩ := h' _ id _ (hm₁.setContext id _)
    (hruns₁.setContext { c with stack := stack', pc := pc' }) hmethod hreceiver rfl rfl
  refine ⟨journal', fun base left => ?_⟩
  have hfirst := hvisits base (left + steps')
  have hsecond := hvisits' base left
  have hends : ({ { m' with journal }.setContext id { c with stack := stack', pc := pc' } with
      journal := journal' }.setContext id { c with stack := stack'', pc := pc'' }) =
      { m' with journal := journal' }.setContext id { c with stack := stack'', pc := pc'' } :=
    Machine.setContext_setContext { m' with journal := journal' } id _ _
  rw [hends] at hsecond
  rw [show left + (steps + steps') = left + steps' + steps by omega]
  exact hfirst.trans hsecond

theorem operate {i : Instruction} (hprogram : m.program method = .ok (code, literals))
    (hfetch : code.fetch? pc = some (.ok i)) (hi : i ≠ .returnTop)
    (hop : ∀ (m' : Machine) (id : ContextId) (c : Context), c.receiver = receiver →
      c.stack = stack → c.pc = pc + i.size → Operates m' id c code literals i stack' pc') :
    m.Stretch method receiver 1 stack pc stack' pc' := by
  intro m' id c hm hruns hmethod hreceiver hstack hpc
  refine ⟨m'.journal, fun base left => .next ?_ (.here left _)⟩
  rw [← hm.program_eq, ← hmethod] at hprogram
  rw [← hpc] at hfetch
  have hruns₁ := hruns.setContext (c.past i)
  have hexecute := (hop _ id (c.past i) hreceiver hstack (by rw [Context.past, hpc])).execute_eq
    hruns₁
  rw [step_eq hruns hprogram hfetch hi, bind_ok hexecute, setContext_setContext]
  rfl

section

variable {v : Value} {next : Nat} (hprogram : m.program method = .ok (code, literals))

include hprogram

theorem pushSelf (hfetch : code.fetch? pc = some (.ok .pushSelf))
    (hnext : pc + Instruction.pushSelf.size = next) :
    m.Stretch method receiver 1 stack pc (stack.push receiver) next := by
  apply operate hprogram hfetch (by simp)
  intro m' id c hreceiver hstack hpc
  rw [← hreceiver, ← hstack, ← hnext, ← hpc]
  exact .pushSelf

theorem pushLiteral {index : UInt32} (hfetch : code.fetch? pc = some (.ok (.pushLiteral index)))
    (hv : literals[index.toNat]? = some v)
    (hnext : pc + (Instruction.pushLiteral index).size = next) :
    m.Stretch method receiver 1 stack pc (stack.push v) next := by
  apply operate hprogram hfetch (by simp)
  intro m' id c _ hstack hpc
  rw [← hstack, ← hnext, ← hpc]
  exact .pushLiteral hv

theorem pop (stack : Array Value) (hfetch : code.fetch? pc = some (.ok .pop))
    (hnext : pc + Instruction.pop.size = next) :
    m.Stretch method receiver 1 (stack.push v) pc stack next := by
  apply operate hprogram hfetch (by simp)
  intro m' id c _ hstack hpc
  have hpop : Operates m' id c code literals .pop c.stack.pop c.pc :=
    .pop (v := v) (by rw [hstack, Array.back?_push])
  rwa [hstack, Array.pop_push, hpc, hnext] at hpop

theorem duplicate (stack : Array Value) (hfetch : code.fetch? pc = some (.ok .duplicate))
    (hnext : pc + Instruction.duplicate.size = next) :
    m.Stretch method receiver 1 (stack.push v) pc ((stack.push v).push v) next := by
  apply operate hprogram hfetch (by simp)
  intro m' id c _ hstack hpc
  rw [← hstack, ← hnext, ← hpc]
  exact .duplicate (by rw [hstack, Array.back?_push])

variable {offset : Int32}

theorem jump (hfetch : code.fetch? pc = some (.ok (.jump .always offset)))
    (hlands : (pc + (Instruction.jump .always offset).size + offset.toInt : Int) = next)
    (hinside : next < code.length) : m.Stretch method receiver 1 stack pc stack next := by
  apply operate hprogram hfetch (by simp)
  intro m' id c _ hstack hpc
  rw [← hstack]
  exact .jump ⟨by rw [hpc, ← hlands, Int.natCast_add], hinside⟩

theorem jumpTaken (stack : Array Value) {kind : JumpKind} (hkind : kind ≠ .always)
    (hfetch : code.fetch? pc = some (.ok (.jump kind offset))) (htaken : kind.taken v = true)
    (hlands : (pc + (Instruction.jump kind offset).size + offset.toInt : Int) = next)
    (hinside : next < code.length) :
    m.Stretch method receiver 1 (stack.push v) pc stack next := by
  apply operate hprogram hfetch (by simp)
  intro m' id c _ hstack hpc
  have hjump : Operates m' id c code literals (.jump kind offset) c.stack.pop next :=
    .taken hkind (by rw [hstack, Array.back?_push]) htaken
      ⟨by rw [hpc, ← hlands, Int.natCast_add], hinside⟩
  rwa [hstack, Array.pop_push] at hjump

theorem jumpPassed (stack : Array Value) {kind : JumpKind} (hkind : kind ≠ .always)
    (hfetch : code.fetch? pc = some (.ok (.jump kind offset))) (htaken : kind.taken v = false)
    (hnext : pc + (Instruction.jump kind offset).size = next) :
    m.Stretch method receiver 1 (stack.push v) pc stack next := by
  apply operate hprogram hfetch (by simp)
  intro m' id c _ hstack hpc
  have hjump : Operates m' id c code literals (.jump kind offset) c.stack.pop c.pc :=
    .passed hkind (by rw [hstack, Array.back?_push]) htaken
  rwa [hstack, Array.pop_push, hpc, hnext] at hjump

end

theorem answer (rest : Array Value) (r : Value) (args : Array Value) {v : Value} {name : String}
    (hsends : m.SendsAt method pc name args.size pc') (hstack : stack = rest.push r ++ args)
    (hanswer : ∀ m', m.SameObjects m' → ∃ e, startSend r name args m' = .ok (some v) (m'.note e)) :
    m.Stretch method receiver 1 stack pc (rest.push v) pc' := by
  intro m' id c hm hruns hmethod _ hstack' hpc
  obtain ⟨e, hsend⟩ := hanswer (m'.setContext id { c with stack := rest, pc := pc' })
    (hm.setContext id _)
  have hruns' : (m'.note e).Runs id c := ⟨hruns.active, hruns.context⟩
  have hpushed := (hruns'.setContext { c with stack := rest, pc := pc' }).pushed_eq v
  rw [setContext_setContext] at hpushed
  refine ⟨(m'.note e).journal, fun base left => .next ?_ (.here left _)⟩
  rw [hsends.step_eq hm hruns hmethod hpc (hstack'.trans hstack), bind_ok hsend]
  exact congrArg (EStateM.Result.ok none) hpushed

end Stretch

end Machine

/-- A run down to depth `base` gets from one machine to another if it may take enough steps. -/
def Gets (base : Nat) (m m' : Machine) : Prop :=
  ∃ used, ∀ left, Visits base (left + used) m left m'

/-- A run down to depth `base` ends like this if it may take enough steps. -/
def ComesTo (base : Nat) (m : Machine) (r : EStateM.Result Stop Machine Value) : Prop :=
  ∃ used, ∀ left, run base (left + used) m = r

section

variable {base : Nat} {m m₁ m' : Machine} {r : EStateM.Result Stop Machine Value}

protected theorem Gets.trans (h : Gets base m m₁) (h' : Gets base m₁ m') : Gets base m m' := by
  obtain ⟨used, hvisits⟩ := h
  obtain ⟨used', hvisits'⟩ := h'
  refine ⟨used' + used, fun left => ?_⟩
  rw [← Nat.add_assoc]
  exact (hvisits (left + used')).trans (hvisits' left)

theorem Gets.of_step (h : step m = .ok none m') : Gets base m m' :=
  ⟨1, fun left => .next h (.here left m')⟩

theorem Gets.comesTo (h : Gets base m m') (h' : ComesTo base m' r) : ComesTo base m r := by
  obtain ⟨used, hvisits⟩ := h
  obtain ⟨used', hrun⟩ := h'
  refine ⟨used' + used, fun left => ?_⟩
  rw [← Nat.add_assoc, (hvisits (left + used')).run_eq, hrun]

theorem ComesTo.of_answer {v : Value} (h : step m = .ok (some v) m') (hdepth : m'.depth ≤ base) :
    ComesTo base m (.ok v m') :=
  ⟨1, fun _ => run_eq_answer h hdepth⟩

theorem ComesTo.of_error {s : Stop} (h : step m = .error s m') :
    ComesTo base m (.error s m') :=
  ⟨1, fun _ => run_eq_error h⟩

/-- The run of a callee is part of the run of its caller. -/
theorem ComesTo.gets {v : Value} (h : ComesTo base m (.ok v m')) (hdepth : m'.depth = base)
    {outer : Nat} (houter : outer < base) : Gets outer m (m'.pushed v) := by
  obtain ⟨used, hrun⟩ := h
  obtain ⟨used', hvisits⟩ := visits_of_run (hrun 0) hdepth
  exact ⟨used', fun left => hvisits outer houter left⟩

end

namespace Machine

/-- A call has been made from `m` and has ended: the same contexts run as before, and none of
the contexts of `m` has changed. -/
structure Resumes (m m' : Machine) : Prop where
  same : m.SameObjects m'
  active : m'.active = m.active
  depth : m'.depth = m.depth
  older : ∀ (id : ContextId) (c : Context), m.memory.contexts[id]? = some c →
    m'.memory.contexts[id]? = some c

theorem resumes_note (m : Machine) (e : Event) : m.Resumes (m.note e) where
  same := (SameObjects.refl m).note e
  active := rfl
  depth := rfl
  older _ _ hc := hc

protected theorem Resumes.trans {m m' m'' : Machine} (h : m.Resumes m') (h' : m'.Resumes m'') :
    m.Resumes m'' where
  same := h.same.trans h'.same
  active := h'.active.trans h.active
  depth := h'.depth.trans h.depth
  older id c hc := h'.older id c (h.older id c hc)

/-- The context `c` that a call from `m` has entered runs. -/
structure Within (m m' : Machine) (c : Context) : Prop where
  same : m.SameObjects m'
  runs : m'.Runs m.memory.contexts.size c
  depth : m'.depth = m.depth + 1
  sender : c.sender = m.active
  older : ∀ (id : ContextId) (c : Context), m.memory.contexts[id]? = some c →
    m'.memory.contexts[id]? = some c

theorem within_activate (m : Machine) (call : Call) :
    m.Within (m.activate call)
      (.new call.method call.receiver call.args call.temporaryCount m.active call.outer) where
  same := (SameObjects.refl m).activate call
  runs := ⟨rfl, Array.getElem?_push_size⟩
  depth := rfl
  sender := rfl
  older id c hc := by
    have hlt := (Array.getElem?_eq_some_iff.mp hc).1
    exact (Array.getElem?_push_lt hlt).trans (by rw [← hc, Array.getElem?_eq_getElem hlt])

namespace Within

variable {m m' m'' : Machine} {c c' : Context} (h : m.Within m' c)

include h

theorem setContext (c' : Context) (hsender : c'.sender = c.sender) :
    m.Within (m'.setContext m.memory.contexts.size c') c' where
  same := h.same.setContext _ _
  runs := h.runs.setContext c'
  depth := h.depth
  sender := hsender.trans h.sender
  older id x hx := by
    have hne : m.memory.contexts.size ≠ id := (Array.getElem?_eq_some_iff.mp hx).1.ne'
    simp only [Machine.setContext, Memory.modifyContext, Array.getElem?_modify, hne, if_false]
    exact h.older id x hx

theorem journal (journal : Array Event) : m.Within { m' with journal } c where
  same := h.same.trans (.mk m'.memory.contexts m'.active m'.depth journal)
  runs := ⟨h.runs.active, h.runs.context⟩
  depth := h.depth
  sender := h.sender
  older := h.older

theorem note (e : Event) : m.Within (m'.note e) c := h.journal _

theorem resumes (h' : m'.Resumes m'') : m.Within m'' c where
  same := h.same.trans h'.same
  runs := ⟨h'.active.trans h.runs.active, h'.older _ _ h.runs.context⟩
  depth := h'.depth.trans h.depth
  sender := h.sender
  older id x hx := h'.older id x (h.older id x hx)

theorem leave : m.Resumes m'.leave := by
  have hleave : m'.leave =
      { m' with
        memory := m'.memory.modifyContext m.memory.contexts.size fun c => { c with sender := none }
        active := m.active
        depth := m.depth } := by
    rw [Machine.leave, h.runs.active]
    dsimp only
    rw [h.runs.context, h.depth]
    dsimp only [Option.bind]
    rw [h.sender]
    rfl
  constructor
  · exact h.same.leave
  · rw [hleave]
  · rw [hleave]
  · intro id x hx
    have hne : m.memory.contexts.size ≠ id := (Array.getElem?_eq_some_iff.mp hx).1.ne'
    rw [hleave]
    simp only [Memory.modifyContext, Array.getElem?_modify, hne, if_false]
    exact h.older id x hx

end Within

theorem step_eq_return {m : Machine} {id : ContextId} {c : Context} {code : Code}
    {literals : Array Value} (h : m.Runs id c)
    (hprogram : m.program c.method = .ok (code, literals))
    (hfetch : code.fetch? c.pc = some (.ok .returnTop)) :
    step m = .ok (some c.result) (m.setContext id (c.past .returnTop)).leave := by
  rw [step, bind_ok (active_eq h), bind_get, hprogram, bind_ok (ofExcept_ok _)]
  dsimp only
  rw [hfetch]
  dsimp only
  rw [bind_ok (modifyActive_eq h _), if_pos rfl, bind_ok (finish_eq (h.setContext _))]
  rfl

/-- A call from `m` has entered `method` for `receiver`, which in `m'` runs and stands at the
offset with these operands. -/
def Stands (m : Machine) (method receiver : Value) (stack : Array Value) (pc : Nat)
    (m' : Machine) : Prop :=
  ∃ c, m.Within m' c ∧ c.method = method ∧ c.receiver = receiver ∧ c.stack = stack ∧ c.pc = pc

theorem stands_activate (m : Machine) (call : Call) :
    m.Stands call.method call.receiver #[] 0 (m.activate call) :=
  ⟨_, m.within_activate call, rfl, rfl, rfl, rfl⟩

namespace Stands

variable {m m' m'' : Machine} {method receiver : Value} {stack stack' : Array Value} {pc pc' : Nat}
  (h : m.Stands method receiver stack pc m')

include h

theorem same : m.SameObjects m' := by
  obtain ⟨c, hwithin, -⟩ := h
  exact hwithin.same

theorem depth_eq : m'.depth = m.depth + 1 := by
  obtain ⟨c, hwithin, -⟩ := h
  exact hwithin.depth

theorem resumes (h' : m'.Resumes m'') : m.Stands method receiver stack pc m'' := by
  obtain ⟨c, hwithin, hc⟩ := h
  exact ⟨c, hwithin.resumes h', hc⟩

theorem pushed (v : Value) : m.Stands method receiver (stack.push v) pc (m'.pushed v) := by
  obtain ⟨c, hwithin, hmethod, hreceiver, rfl, hpc⟩ := h
  rw [hwithin.runs.pushed_eq]
  exact ⟨c.push v, hwithin.setContext _ rfl, hmethod, hreceiver, rfl, hpc⟩

theorem return_eq {code : Code} {literals : Array Value} {v : Value}
    (hprogram : m.program method = .ok (code, literals))
    (hfetch : code.fetch? pc = some (.ok .returnTop)) (hv : stack.back? = some v) :
    ∃ m'', m.Resumes m'' ∧ step m' = .ok (some v) m'' := by
  obtain ⟨c, hwithin, rfl, -, rfl, rfl⟩ := h
  rw [← hwithin.same.program_eq] at hprogram
  have hstep := step_eq_return hwithin.runs hprogram hfetch
  rw [Context.result, hv] at hstep
  exact ⟨_, (hwithin.setContext (c.past .returnTop) rfl).leave, hstep⟩

variable {m₀ : Machine} (hm : m₀.SameObjects m)

include hm

/-- The activation works through a stretch of its code. -/
theorem stretch {steps : Nat} (hstretch : m₀.Stretch method receiver steps stack pc stack' pc') :
    ∃ m'', m.Stands method receiver stack' pc' m'' ∧ ∀ base, Gets base m' m'' := by
  obtain ⟨c, hwithin, hmethod, hreceiver, hstack, hpc⟩ := h
  obtain ⟨journal, hvisits⟩ :=
    hstretch m' _ c (hm.trans hwithin.same) hwithin.runs hmethod hreceiver hstack hpc
  have hthere := (hwithin.journal journal).setContext { c with stack := stack', pc := pc' } rfl
  exact ⟨_, ⟨_, hthere, hmethod, hreceiver, rfl, rfl⟩, fun base => ⟨steps, hvisits base⟩⟩

variable {name : String} {n : SmallInteger} {rest args : Array Value} {target : Value} {x : Method}
  (hsends : m₀.SendsAt method pc name args.size pc')
  (hstack : stack = rest.push (.integer n) ++ args) (hx : m₀.Understands name target x)

include hsends hstack hx

theorem call_eq (hplain : x.primitive = none) :
    ∃ m'', m.Stands method receiver rest pc' m'' ∧
      step m' = (x.call target (.integer n) args).start m'' := by
  obtain ⟨c, hwithin, hmethod, hreceiver, hc, hpc⟩ := h
  have hstep := hsends.step_eq (hm.trans hwithin.same) hwithin.runs hmethod hpc (hc.trans hstack)
  have hwaits := hwithin.setContext { c with stack := rest, pc := pc' } rfl
  generalize m'.setContext m.memory.contexts.size { c with stack := rest, pc := pc' } = waiting
    at hstep hwaits
  have hfinds := (hx.same (hm.trans hwaits.same)).finds n args
  rw [bind_eq (hfinds.startSend_eq_start hplain)] at hstep
  generalize Event.sent (waiting.className waiting.core.integer) name args.size = e at hstep
  refine ⟨waiting.note e, ⟨_, hwaits.note e, hmethod, hreceiver, rfl, rfl⟩, hstep.trans ?_⟩
  simp only [Call.start, bind_assoc, pure_bind, deliver]

/-- A message whose primitive cannot compute an answer. -/
theorem fault_eq {index : Nat} {row : PrimitiveRow} {f : Fault}
    (hprimitive : x.primitive = some index) (hrow : Primitive.row? index = some row)
    (heffect : ∀ m', row.primitive.effect m' (.integer n) args.toList = .error f) :
    ∃ m'', step m' = .error (.fault f) m'' := by
  obtain ⟨c, hwithin, hmethod, hreceiver, hc, hpc⟩ := h
  have hstep := hsends.step_eq (hm.trans hwithin.same) hwithin.runs hmethod hpc (hc.trans hstack)
  have hwaits := hwithin.setContext { c with stack := rest, pc := pc' } rfl
  rw [bind_error ((hx.same (hm.trans hwaits.same)).startSend_faulted hprimitive hrow heffect)]
    at hstep
  exact ⟨_, hstep⟩

end Stands

end Machine

section

variable {base : Nat} {m m' : Machine} {call : Call}

/-- A call that is asked for is made if another context may run. -/
theorem Gets.of_start (h : step m = call.start m') (hdepth : m'.depth < m'.maxDepth) :
    Gets base m (m'.activate call) := by
  rcases call.start_rules m' with ⟨-, hstart⟩ | ⟨hdeep, -⟩
  · exact .of_step (h.trans hstart)
  · omega

/-- A call that is asked for is refused where as many contexts run as may. -/
theorem ComesTo.of_start (h : step m = call.start m') (hdepth : m'.maxDepth ≤ m'.depth) :
    ComesTo base m (.error (.raised (.depthExceeded m'.maxDepth)) m') := by
  rcases call.start_rules m' with ⟨hlow, -⟩ | ⟨-, hstart⟩
  · omega
  · exact .of_error (h.trans hstart)

end

end ObjectMachine

import ObjectMachine.Proofs.Activations

/-!
# Nesting and unwinding

A step keeps the chain of running contexts, adds a context at its top or ends the
one that is there. So the chain is kept through every run, and a run that answers
or raises an error leaves it as it was found. The error at the depth limit is
traced to the call that was asked for there.
-/

namespace ObjectMachine

open ObjectMachine.Action

section

variable {m m' : Machine} {receiver : Value} {selector : String} {args : Array Value}

theorem Finds.activity_eq {method : Value} {c : Method}
    (h : Finds m receiver selector args method c m') : m'.activity = m.activity := by
  cases h
  exact Machine.activity_congr rfl rfl rfl rfl

theorem Calls.activity_eq {call : Call} (h : Calls m receiver selector args call m') :
    m'.activity = m.activity := by
  cases h with
  | plain hfinds => exact hfinds.activity_eq
  | declined hfinds =>
    rw [← hfinds.activity_eq]
    exact Machine.activity_congr rfl rfl rfl rfl
  | block hfinds => exact hfinds.activity_eq

theorem Performs.kept {e : Effect} {r : EStateM.Result Stop Machine Value} (h : Performs m e r) :
    Kept m.activity.Holds r := by
  cases h with
  | answer v => exact .ok rfl
  | putElement target place v => exact .ok (m.activity_write ..)
  | putByte target place byte v => exact .ok (m.activity_write ..)
  | create o => exact allocate_steady o m rfl

theorem Performs.activity_of_ok {e : Effect} {v : Value} (h : Performs m e (.ok v m')) :
    m'.activity = m.activity := by
  cases h.kept with
  | ok hm' => exact hm'

theorem Performs.activity_of_error {e : Effect} {s : Stop} (h : Performs m e (.error s m')) :
    m'.activity = m.activity := by
  cases h.kept with
  | fault hm' => exact hm'

theorem Replies.activity_of_error {index : Nat} {s : Stop}
    (h : Replies m index receiver args (.error s m')) : m'.activity = m.activity := by
  cases h with
  | failed _ hperforms => exact hperforms.activity_of_error
  | _ => rfl

namespace Responds

theorem activity_of_answer {v : Value} (h : Responds m receiver selector args (.ok (some v) m')) :
    m'.activity = m.activity := by
  cases h with
  | answered hfinds _ hreplies =>
    cases hreplies with
    | answered _ hperforms => rw [hperforms.activity_of_ok, hfinds.activity_eq]

theorem activity_of_call (h : Responds m receiver selector args (.ok none m')) :
    m.activity.Enters m'.activity := by
  cases h with
  | @entered call m₁ hcalls hdepth =>
    rw [← hcalls.activity_eq]
    exact ⟨hdepth, m₁.activity_activate call⟩

theorem activity_of_error {s : Stop} (h : Responds m receiver selector args (.error s m')) :
    m'.activity = m.activity := by
  cases h with
  | stopped hfinds _ hreplies => rw [hreplies.activity_of_error, hfinds.activity_eq]
  | tooDeep hcalls => exact hcalls.activity_eq
  | corrupt => exact Machine.activity_congr rfl rfl rfl rfl
  | _ => rfl

/-- A send that is too deep has come to a call. -/
theorem calls_of_tooDeep {k : Nat}
    (h : Responds m receiver selector args (.error (.raised (.depthExceeded k)) m')) :
    ∃ call, Calls m receiver selector args call m' ∧ m'.maxDepth ≤ m'.depth ∧ k = m'.maxDepth := by
  cases h with
  | stopped hfinds hprimitive hreplies =>
    cases hreplies with
    | failed _ hperforms => cases hperforms.kept
    | tooDeep hwants hb hdepth => exact ⟨_, .block hfinds hprimitive hwants hb, hdepth, rfl⟩
  | tooDeep hcalls hdepth => exact ⟨_, hcalls, hdepth, rfl⟩

end Responds

section

variable {id : ContextId} {c : Context} {code : Code} {literals : Array Value} {i : Instruction}

theorem activity_setStack (hruns : m.Runs id c) (stack : Array Value) :
    (m.setContext id { c with stack }).activity = m.activity :=
  Machine.activity_setContext hruns.context rfl

theorem newBlock_kept {b : Block} {r : EStateM.Result Stop Machine Value} (h : newBlock b m = r) :
    Kept m.activity.Holds r :=
  h ▸ made_steady (fun m => .new m.core.block (.block b)) m rfl

theorem Carries.activity_of_ok (hruns : m.Runs id c)
    (h : Carries m id c code literals i (.ok () m')) :
    m'.activity = m.activity ∨ m.activity.Enters m'.activity := by
  cases h with
  | operated => exact .inl (Machine.activity_setContext hruns.context rfl)
  | slotStored => exact .inl (m.activity_write ..)
  | temporaryStored => exact .inl (m.activity_modifyContext _ fun _ _ => rfl)
  | @answered _ _ _ _ _ _ rest _ m₁ _ _ _ _ hresponds =>
    left
    rw [m₁.activity_pushed, hresponds.activity_of_answer, activity_setStack hruns]
  | @entered _ _ _ _ _ rest _ _ _ _ _ _ hresponds =>
    right
    rw [← activity_setStack hruns rest]
    exact hresponds.activity_of_call
  | @blockMade _ _ _ v m₁ _ hnew =>
    left
    rw [m₁.activity_pushed]
    cases newBlock_kept hnew with
    | ok hm₁ => exact hm₁
  | @blockEntered _ rest args block b _ _ _ hdepth =>
    right
    rw [← activity_setStack hruns rest]
    exact ⟨hdepth, Machine.activity_activate ..⟩

theorem Carries.activity_of_error (hruns : m.Runs id c) {s : Stop}
    (h : Carries m id c code literals i (.error s m')) : m'.activity = m.activity := by
  cases h with
  | refused => exact activity_setStack hruns _
  | stopped _ _ _ _ hresponds => rw [hresponds.activity_of_error, activity_setStack hruns]
  | blockNotMade _ hnew =>
    cases newBlock_kept hnew with
    | fault hm' => exact hm'
  | tooDeep => exact activity_setStack hruns _

theorem activity_past (hruns : m.Runs id c) (i : Instruction) :
    (m.setContext id (c.past i)).activity = m.activity :=
  Machine.activity_setContext hruns.context rfl

end

/-- A step that ends no context keeps the chain or adds one at its top. -/
theorem activity_of_step_none (h : step m = .ok none m') :
    m'.activity = m.activity ∨ m.activity.Enters m'.activity := by
  have hrules := step_rules m
  rw [h] at hrules
  cases hrules with
  | @carried id c _ _ i _ hruns _ _ _ hcarries =>
    rw [← activity_past hruns i]
    exact hcarries.activity_of_ok (hruns.setContext _)

theorem activity_of_step_some {v : Value} (h : step m = .ok (some v) m') :
    m'.activity = m.activity.leave := by
  have hrules := step_rules m
  rw [h] at hrules
  cases hrules with
  | ended => exact m.activity_leave
  | returned hruns => rw [Machine.activity_leave, activity_past hruns]

theorem activity_of_step_error {s : Stop} (h : step m = .error s m') :
    m'.activity = m.activity := by
  have hrules := step_rules m
  rw [h] at hrules
  cases hrules with
  | stopped hruns _ _ _ hcarries =>
    rw [hcarries.activity_of_error (hruns.setContext _), activity_past hruns]
  | _ => rfl

/-- A step that is too deep has asked for a call. -/
theorem asks_of_tooDeep {k : Nat} (h : step m = .error (.raised (.depthExceeded k)) m') :
    ∃ call, Asks m call m' ∧ m'.maxDepth ≤ m'.depth ∧ k = m'.maxDepth := by
  have hrules := step_rules m
  rw [h] at hrules
  cases hrules with
  | stopped hruns hprogram hfetch _ hcarries =>
    cases hcarries with
    | refused hrefuses => cases hrefuses
    | stopped hselector hname hstack hsize hresponds =>
      obtain ⟨call, hcalls, hdeep, hk⟩ := hresponds.calls_of_tooDeep
      rw [Machine.setContext_setContext] at hcalls
      exact ⟨call, .send hruns hprogram hfetch hselector hname hstack hsize hcalls, hdeep, hk⟩
    | blockNotMade _ hnew => cases newBlock_kept hnew
    | tooDeep hstack hsize hb hdeep =>
      rw [Machine.setContext_setContext]
      exact ⟨_, .executeBlock hruns hprogram hfetch hstack hsize hb, hdeep, rfl⟩

end

section

variable {base fuel left : Nat} {m m' : Machine}

/-- The chain is kept through a run, and stays above the depth at which it ends. -/
theorem Visits.nested (h : Visits base fuel m left m') (hm : m.activity.Nested)
    (hbase : base < m.activity.depth) :
    m'.activity.Nested ∧ base < m'.activity.depth ∧
      m'.activity.maxDepth = m.activity.maxDepth := by
  induction h with
  | here => exact ⟨hm, hbase, rfl⟩
  | next hstep _ ih =>
    rcases activity_of_step_none hstep with hsame | ⟨hdepth, hcall⟩
    · rw [hsame] at ih
      exact ih hm hbase
    · rw [hcall] at ih
      exact ih (hm.call hdepth) (Nat.lt_succ_of_lt hbase)
  | @resumed _ _ m m₁ _ v hstep hdepth _ ih =>
    have hleft := activity_of_step_some hstep
    rw [m₁.activity_pushed] at ih
    obtain ⟨hnested, hdepth', hmax⟩ := ih (hleft ▸ hm.leave) hdepth
    refine ⟨hnested, hdepth', hmax.trans ?_⟩
    rw [hleft, Activity.leave_maxDepth]

theorem Machine.repeat_leave_nested (h : m.activity.Nested) (n : Nat) :
    (Nat.repeat leave n m).activity.Nested ∧
      (Nat.repeat leave n m).activity.depth = m.depth - n := by
  induction n with
  | zero => exact ⟨h, rfl⟩
  | succ n ih =>
    obtain ⟨hnested, hdepth⟩ := ih
    rw [Nat.repeat, activity_leave]
    refine ⟨hnested.leave, ?_⟩
    rw [Activity.leave_depth hnested, hdepth]
    omega

theorem Machine.unwind_nested (h : m.activity.Nested) (hbase : base ≤ m.depth) :
    (m.unwind base).activity.Nested ∧ (m.unwind base).depth = base := by
  obtain ⟨hnested, hdepth⟩ := repeat_leave_nested h (m.depth - base)
  refine ⟨hnested, hdepth.trans ?_⟩
  omega

/-- How a program leaves the chain: back at depth `base`, unless it has not come to
its end. -/
inductive Settles (base : Nat) : EStateM.Result Stop Machine Value → Prop
  | answered {v : Value} {m : Machine} : m.activity.Nested → m.depth = base →
      Settles base (.ok v m)
  | raised {e : RuntimeError} {m : Machine} : m.activity.Nested → m.depth = base →
      Settles base (.error (.raised e) m)
  | fault {f : Fault} {m : Machine} : m.activity.Nested → Settles base (.error (.fault f) m)
  | exhausted {m : Machine} : m.activity.Nested → Settles base (.error .exhausted m)

theorem Settles.of_error (hm : m.activity.Nested) (hbase : base ≤ m.depth) (s : Stop) :
    Settles base (unwindRaised base (.error s m)) := by
  cases s with
  | raised e =>
    obtain ⟨hnested, hdepth⟩ := Machine.unwind_nested hm hbase
    exact .raised hnested hdepth
  | fault f => exact .fault hm
  | exhausted => exact .exhausted hm

theorem run_settles (hm : m.activity.Nested) (hbase : base < m.depth) :
    Settles base (unwindRaised base (run base fuel m)) := by
  obtain ⟨left, m', hvisits, hends⟩ := run_rules base fuel m
  obtain ⟨hnested, hdepth, -⟩ := hvisits.nested hm hbase
  generalize run base fuel m = r at hends
  cases hends with
  | exhausted => exact .of_error hnested (Nat.le_of_lt hdepth) _
  | @stopped left _ m₁ s hstep =>
    have hsame := activity_of_step_error hstep
    rw [← hsame] at hnested hdepth
    exact .of_error hnested (Nat.le_of_lt hdepth) s
  | @answered left _ m₁ v hstep hle =>
    have hleft := activity_of_step_some hstep
    have hdepth' : m₁.depth = m'.activity.depth - 1 := by
      rw [← Activity.leave_depth hnested, ← hleft]
      rfl
    apply Settles.answered
    · rw [hleft]
      exact hnested.leave
    · omega

inductive Starts (m : Machine) : EStateM.Result Stop Machine (Option Value) → Prop
  | answered {v : Value} {m' : Machine} : m'.activity = m.activity → Starts m (.ok (some v) m')
  | called {m' : Machine} : m.activity.Enters m'.activity → Starts m (.ok none m')
  | stopped {s : Stop} {m' : Machine} : m'.activity = m.activity → Starts m (.error s m')

theorem Starts.of_call (call : Call) (m : Machine) : Starts m (call.start m) := by
  rcases call.start_rules m with ⟨hdepth, heq⟩ | ⟨-, heq⟩
  · rw [heq]
    exact .called ⟨hdepth, m.activity_activate call⟩
  · rw [heq]
    exact .stopped rfl

theorem startMethod_eq {method : Value} {c : Method}
    (h : m.memory.body? method = some (.method c)) (receiver : Value) (args : Array Value) :
    startMethod method receiver args m = (c.call method receiver args).start m :=
  bind_eq (enterMethod_eq h receiver args) _

/-- A method is called, or what should be one is not. -/
theorem startMethod_rules (m : Machine) (method receiver : Value) (args : Array Value) :
    (∃ c, m.memory.body? method = some (.method c) ∧
      startMethod method receiver args m = (c.call method receiver args).start m) ∨
      startMethod method receiver args m = .error (.raised (.type .method method)) m := by
  by_cases hmethod : ∃ c, m.memory.body? method = some (.method c)
  · obtain ⟨c, hc⟩ := hmethod
    exact .inl ⟨c, hc, startMethod_eq hc receiver args⟩
  · right
    exact bind_error (enterMethod_eq_error (fun c hc => hmethod ⟨c, hc⟩) receiver args)

theorem startBlock_eq {block : Value} {b : Block} (h : m.memory.body? block = some (.block b))
    (args : Array Value) : startBlock block args m = (b.call block args).start m :=
  bind_eq (enterBlock_eq h args) _

theorem startBlock_rules (m : Machine) (block : Value) (args : Array Value) :
    (∃ b, m.memory.body? block = some (.block b) ∧
      startBlock block args m = (b.call block args).start m) ∨
      startBlock block args m = .error (.raised (.type .block block)) m := by
  by_cases hblock : ∃ b, m.memory.body? block = some (.block b)
  · obtain ⟨b, hb⟩ := hblock
    exact .inl ⟨b, hb, startBlock_eq hb args⟩
  · right
    exact bind_error (enterBlock_eq_error (fun b hb => hblock ⟨b, hb⟩) args)

theorem startSend_starts (receiver : Value) (selector : String) (args : Array Value) :
    Starts m (startSend receiver selector args m) := by
  have hrules := startSend_rules m receiver selector args
  generalize startSend receiver selector args m = r at hrules
  cases r with
  | error s m' => exact .stopped hrules.activity_of_error
  | ok answer m' =>
    cases answer with
    | some v => exact .answered hrules.activity_of_answer
    | none => exact .called hrules.activity_of_call

theorem startMethod_starts (method receiver : Value) (args : Array Value) :
    Starts m (startMethod method receiver args m) := by
  rcases startMethod_rules m method receiver args with ⟨c, -, heq⟩ | heq
  · rw [heq]
    exact .of_call _ m
  · rw [heq]
    exact .stopped rfl

theorem startBlock_starts (block : Value) (args : Array Value) :
    Starts m (startBlock block args m) := by
  rcases startBlock_rules m block args with ⟨b, -, heq⟩ | heq
  · rw [heq]
    exact .of_call _ m
  · rw [heq]
    exact .stopped rfl

theorem launch_settles {start : Action (Option Value)} (hstart : Starts m (start m))
    (hm : m.activity.Nested) : Settles m.depth (launch fuel start m) := by
  generalize hr : start m = r at hstart
  cases hstart with
  | answered hsame =>
    rw [launch_eq_answer hr]
    exact .answered (hsame ▸ hm) (congrArg Activity.depth hsame)
  | called hcall =>
    rw [launch_eq_run hr]
    apply run_settles
    · rw [hcall.2]
      exact hm.call hcall.1
    · have hdepth := congrArg Activity.depth hcall.2
      exact Nat.lt_of_lt_of_eq (Nat.lt_succ_self _) hdepth.symm
  | stopped hsame =>
    rw [launch_eq_error hr]
    exact .of_error (hsame ▸ hm) (Nat.le_of_eq (congrArg Activity.depth hsame).symm) _

end

namespace Operation

/-- The calls that an operation asks for, each with the machine that makes it: the
one that starts its program, and those that the instructions carried out ask for. -/
inductive Asks : Operation → Machine → Call → Machine → Prop
  | send {fuel : Nat} {receiver : Value} {selector : String} {args : Array Value}
      {m m' : Machine} {call : Call} : Calls m receiver selector args call m' →
      Asks (.send fuel receiver selector args) m call m'
  | executeMethod {fuel : Nat} {method receiver : Value} {args : Array Value} {m : Machine}
      {c : Method} : m.memory.body? method = some (.method c) →
      Asks (.executeMethod fuel method receiver args) m (c.call method receiver args) m
  | callBlock {fuel : Nat} {block : Value} {args : Array Value} {m : Machine} {b : Block} :
      m.memory.body? block = some (.block b) →
      Asks (.callBlock fuel block args) m (b.call block args) m
  | evaluate {fuel : Nat} {draft : Draft} {method : Value} {m m' : Machine} {c : Method} :
      draft.build m = .ok method m' → m'.memory.body? method = some (.method c) →
      Asks (.evaluate fuel draft) m (c.call method .nil #[]) m'
  | step {op : Operation} {left : Nat} {m m₁ m' : Machine} {call : Call} :
      op.Visits m (left + 1) m₁ → ObjectMachine.Asks m₁ call m' → Asks op m call m'

end Operation

section

variable {op : Operation} {m m' m₁ : Machine} {fuel left : Nat} {start : Action (Option Value)}
  {call : Call}

theorem Asks.activity_eq (h : Asks m call m') : m'.activity = m.activity := by
  cases h with
  | send hruns _ _ _ _ _ _ hcalls =>
    rw [hcalls.activity_eq]
    exact Machine.activity_setContext hruns.context rfl
  | executeBlock hruns => exact Machine.activity_setContext hruns.context rfl

theorem Draft.activity_of_build {d : Draft} {v : Value} (h : d.build m = .ok v m') :
    m'.activity = m.activity := by
  have hkept : Kept m.activity.Holds (d.build m) := d.build_steady m rfl
  rw [h] at hkept
  cases hkept with
  | ok hm' => exact hm'

namespace Operation

theorem Launches.activity_eq (h : op.Launches m fuel start m₁) : m₁.activity = m.activity :=
  h.keeps m.activity.stable (fun o _ => allocate_steady o) rfl

theorem Launches.starts (h : op.Launches m fuel start m₁) : Starts m₁ (start m₁) := by
  cases h with
  | send => exact startSend_starts _ _ _
  | executeMethod => exact startMethod_starts _ _ _
  | callBlock => exact startBlock_starts _ _
  | evaluate => exact startMethod_starts _ _ _

/-- An operation starts a program, or it only makes objects. -/
theorem launches_or_kept (op : Operation) (m : Machine) :
    (∃ fuel start m₁, op.Launches m fuel start m₁) ∨ Kept m.activity.Holds (op.run m) :=
  launches_or_keeps m.activity.stable (fun o _ => allocate_steady o) collectGarbage_steady rfl

theorem run_settles (op : Operation) (hm : m.activity.Nested) : Settles m.depth (op.run m) := by
  rcases op.launches_or_kept m with ⟨fuel, start, m₁, hlaunch⟩ | hkept
  · have hsame := hlaunch.activity_eq
    have hdepth : m₁.depth = m.depth := congrArg Activity.depth hsame
    rw [hlaunch.run_eq, ← hdepth]
    exact launch_settles hlaunch.starts (hsame ▸ hm)
  · generalize op.run m = r at hkept
    cases hkept with
    | ok hm' => exact .answered (hm' ▸ hm) (congrArg Activity.depth hm')
    | fault hm' => exact .fault (hm' ▸ hm)

theorem Visits.nested (h : op.Visits m left m') (hm : m.activity.Nested) :
    m'.activity.Nested ∧ m.depth < m'.depth ∧ m'.maxDepth = m.maxDepth := by
  obtain ⟨fuel, start, m₁, m₂, hlaunch, hstart, hvisits⟩ := h
  have hstarts := hlaunch.starts
  rw [hstart] at hstarts
  have hsame := hlaunch.activity_eq
  cases hstarts with
  | called hcall =>
    obtain ⟨hdepth, hactivity⟩ := hcall
    rw [hsame] at hdepth hactivity
    have hbase : m₁.depth < m₂.activity.depth := by
      rw [hactivity, ← hsame]
      exact Nat.lt_succ_self _
    obtain ⟨hnested, habove, hmax⟩ := hvisits.nested (hactivity ▸ hm.call hdepth) hbase
    have hdepth' : m₁.depth = m.depth := congrArg Activity.depth hsame
    rw [hdepth'] at habove
    exact ⟨hnested, habove, hmax.trans (congrArg Activity.maxDepth hactivity)⟩

/-- A call is asked for within the limit. -/
theorem Asks.depth_le (h : op.Asks m call m') (hm : m.activity.Nested) :
    m'.maxDepth = m.maxDepth ∧ m'.depth ≤ m'.maxDepth := by
  have hle : ∀ {m : Machine}, m.activity.Nested → m.depth ≤ m.maxDepth :=
    fun hnested => hnested.elim fun _ hruns => hruns.le_maxDepth
  have hsame : ∀ {m₁ : Machine}, m₁.activity = m.activity →
      m₁.maxDepth = m.maxDepth ∧ m₁.depth ≤ m₁.maxDepth :=
    fun heq => ⟨congrArg Activity.maxDepth heq, hle (heq ▸ hm)⟩
  cases h with
  | send hcalls => exact hsame hcalls.activity_eq
  | executeMethod => exact hsame rfl
  | callBlock => exact hsame rfl
  | evaluate hbuild => exact hsame (Draft.activity_of_build hbuild)
  | step hvisits hasks =>
    obtain ⟨hnested, -, hmax⟩ := hvisits.nested hm
    have hsame := hasks.activity_eq
    exact ⟨(congrArg Activity.maxDepth hsame).trans hmax, hle (hsame ▸ hnested)⟩

end Operation

theorem Call.start_eq_error (h : m.maxDepth ≤ m.depth) :
    call.start m = .error (.raised (.depthExceeded m.maxDepth)) m := by
  rcases call.start_rules m with ⟨hdepth, -⟩ | ⟨-, heq⟩
  · exact absurd h (Nat.not_le.mpr hdepth)
  · exact heq

theorem Call.tooDeep_of_start {k : Nat}
    (h : call.start m = .error (.raised (.depthExceeded k)) m') :
    m' = m ∧ m.maxDepth ≤ m.depth ∧ k = m.maxDepth := by
  rcases call.start_rules m with ⟨-, heq⟩ | ⟨hdepth, heq⟩
  · rw [heq] at h
    cases h
  · rw [heq] at h
    cases h
    exact ⟨rfl, hdepth, rfl⟩

namespace Operation

/-- A call at the limit ends the operation with the error. -/
theorem Asks.run_eq (h : op.Asks m call m') (hdeep : m'.maxDepth ≤ m'.depth) :
    ∃ m'', op.run m = .error (.raised (.depthExceeded m'.maxDepth)) m'' := by
  have hstart : ∀ {fuel : Nat} {start : Action (Option Value)} {m₁ : Machine},
      op.Launches m fuel start m₁ → start m₁ = call.start m' →
      ∃ m'', op.run m = .error (.raised (.depthExceeded m'.maxDepth)) m'' := by
    intro fuel start m₁ hlaunch heq
    rw [hlaunch.run_eq, launch_eq_error (heq.trans (Call.start_eq_error hdeep))]
    exact ⟨_, rfl⟩
  cases h with
  | send hcalls => exact hstart (.send ..) hcalls.startSend_eq
  | executeMethod hc => exact hstart (.executeMethod ..) (startMethod_eq hc _ _)
  | callBlock hb => exact hstart (.callBlock ..) (startBlock_eq hb _)
  | evaluate hbuild hc => exact hstart (.evaluate hbuild) (startMethod_eq hc _ _)
  | step hvisits hasks =>
    obtain ⟨fuel, start, m₁, m₂, hlaunch, hstart, hvisits⟩ := hvisits
    rw [hlaunch.run_eq, launch_eq_run hstart, hvisits.run_eq,
      run_eq_error (hasks.step_eq.trans (Call.start_eq_error hdeep))]
    exact ⟨_, rfl⟩

theorem Launches.asks_of_tooDeep (h : op.Launches m fuel start m₁) {k : Nat}
    (hstart : start m₁ = .error (.raised (.depthExceeded k)) m') :
    ∃ call, op.Asks m call m' ∧ m'.maxDepth ≤ m'.depth ∧ k = m'.maxDepth := by
  have hmethod : ∀ {method receiver : Value} {args : Array Value},
      startMethod method receiver args m₁ = .error (.raised (.depthExceeded k)) m' →
      ∃ c, m₁.memory.body? method = some (.method c) ∧ m' = m₁ ∧ m₁.maxDepth ≤ m₁.depth ∧
        k = m₁.maxDepth := by
    intro method receiver args hstart
    rcases startMethod_rules m₁ method receiver args with ⟨c, hc, heq⟩ | heq
    · rw [heq] at hstart
      exact ⟨c, hc, Call.tooDeep_of_start hstart⟩
    · rw [heq] at hstart
      cases hstart
  cases h with
  | send _ receiver selector args =>
    have hrules := startSend_rules m receiver selector args
    rw [hstart] at hrules
    obtain ⟨call, hcalls, hdeep⟩ := hrules.calls_of_tooDeep
    exact ⟨call, .send hcalls, hdeep⟩
  | executeMethod =>
    obtain ⟨c, hc, rfl, hdeep⟩ := hmethod hstart
    exact ⟨_, .executeMethod hc, hdeep⟩
  | callBlock _ block args =>
    rcases startBlock_rules m block args with ⟨b, hb, heq⟩ | heq
    · rw [heq] at hstart
      obtain ⟨rfl, hdeep⟩ := Call.tooDeep_of_start hstart
      exact ⟨_, .callBlock hb, hdeep⟩
    · rw [heq] at hstart
      cases hstart
  | evaluate hbuild =>
    obtain ⟨c, hc, rfl, hdeep⟩ := hmethod hstart
    exact ⟨_, .evaluate hbuild hc, hdeep⟩

/-- The error at the limit comes from a call that the operation has asked for. -/
theorem asks_of_tooDeep {k : Nat} (h : op.run m = .error (.raised (.depthExceeded k)) m') :
    ∃ call m'', op.Asks m call m'' ∧ m''.maxDepth ≤ m''.depth ∧ k = m''.maxDepth := by
  rcases op.launches_or_kept m with ⟨fuel, start, m₁, hlaunch⟩ | hkept
  · rw [hlaunch.run_eq] at h
    cases hstart : start m₁ with
    | error s m₂ =>
      rw [launch_eq_error hstart] at h
      cases s with
      | raised e =>
        cases h
        obtain ⟨call, hasks⟩ := hlaunch.asks_of_tooDeep hstart
        exact ⟨call, m₂, hasks⟩
      | fault f => cases h
      | exhausted => cases h
    | ok answer m₂ =>
      cases answer with
      | some v =>
        rw [launch_eq_answer hstart] at h
        cases h
      | none =>
        rw [launch_eq_run hstart] at h
        obtain ⟨left, m₃, hvisits, hends⟩ := run_rules m₁.depth fuel m₂
        generalize ObjectMachine.run m₁.depth fuel m₂ = r at h hends
        cases hends with
        | exhausted => cases h
        | answered => cases h
        | @stopped left _ m₄ s hstep =>
          cases s with
          | raised e =>
            cases h
            obtain ⟨call, hasks, hdeep⟩ := ObjectMachine.asks_of_tooDeep hstep
            exact ⟨call, m₄, .step ⟨fuel, start, m₁, m₂, hlaunch, hstart, hvisits⟩ hasks, hdeep⟩
          | fault f => cases h
          | exhausted => cases h
  · rw [h] at hkept
    cases hkept

end Operation

theorem bootstrap_activity {settings : Settings} {maxDepth : Nat}
    (h : bootstrap settings maxDepth = .ok m) : m.activity = ⟨#[], none, 0, maxDepth⟩ := by
  have hempty : Activity.Holds ⟨#[], none, 0, maxDepth⟩ ⟨⟨settings, settings.initialCapacity, #[],
      0, #[]⟩, .none, .empty, .empty, #[], none, 0, maxDepth, #[]⟩ := by
    simp [Activity.Holds, Machine.activity]
  exact bootstrap_keeps hempty setUp_steady h

theorem bootstrap_nested {settings : Settings} {maxDepth : Nat}
    (h : bootstrap settings maxDepth = .ok m) : m.activity.Nested := by
  rw [bootstrap_activity h]
  exact ⟨[], .nil, .nil, rfl, Nat.zero_le _, by simp⟩

theorem Attained.nested {P : Machine → Operation → Prop} (h : Attained P m) :
    m.activity.Nested := by
  induction h with
  | boot hboot => exact bootstrap_nested hboot
  | @operated m op _ _ ih =>
    have hsettles := op.run_settles ih
    rw [after]
    generalize op.run m = r at hsettles
    cases hsettles with
    | answered hm' => exact hm'
    | raised hm' => exact hm'
    | fault hm' => exact hm'
    | exhausted hm' => exact hm'

/-- Whatever a host asks of a machine at rest: at every step of the program the
running contexts are one chain, no longer than allowed, and no other context has
a sender; an answer or an error leaves the machine at rest; and the error at the
limit comes exactly from a call that is asked for when as many contexts run as
may. -/
theorem activations_nest_and_unwind (hm : Attained (fun _ _ => True) m) (hdepth : m.depth = 0)
    (op : Operation) :
    (∀ left m', op.Visits m (left + 1) m' →
      m'.activity.Nested ∧ 1 ≤ m'.depth ∧ m'.depth ≤ m.maxDepth) ∧
    (∀ v m', op.run m = .ok v m' → m'.activity.AtRest) ∧
    (∀ e m', op.run m = .error (.raised e) m' → m'.activity.AtRest) ∧
    ∀ k, (∃ m', op.run m = .error (.raised (.depthExceeded k)) m') ↔
      k = m.maxDepth ∧ ∃ call m', op.Asks m call m' ∧ m'.depth = m.maxDepth := by
  have hnested := hm.nested
  have hsettles := op.run_settles hnested
  rw [hdepth] at hsettles
  refine ⟨?_, ?_, ?_, ?_⟩
  · intro left m' hvisits
    obtain ⟨hnested', habove, hmax⟩ := hvisits.nested hnested
    obtain ⟨ids, hruns⟩ := hnested'
    have hle : m'.depth ≤ m'.maxDepth := hruns.le_maxDepth
    exact ⟨⟨ids, hruns⟩, by omega, by omega⟩
  · intro v m' hrun
    rw [hrun] at hsettles
    cases hsettles with
    | answered hm' hzero => exact hm'.atRest hzero
  · intro e m' hrun
    rw [hrun] at hsettles
    cases hsettles with
    | raised hm' hzero => exact hm'.atRest hzero
  · intro k
    constructor
    · rintro ⟨m', hrun⟩
      obtain ⟨call, m'', hasks, hdeep, rfl⟩ := Operation.asks_of_tooDeep hrun
      obtain ⟨hmax, hle⟩ := hasks.depth_le hnested
      exact ⟨hmax, call, m'', hasks, by omega⟩
    · rintro ⟨rfl, call, m', hasks, hdeep⟩
      obtain ⟨hmax, -⟩ := hasks.depth_le hnested
      rw [← hmax]
      exact hasks.run_eq (by omega)

end

/-- Give integers a method that sends its own selector to its receiver. -/
def Operation.installRecursion (m : Machine) : Operation :=
  let draft := Draft.new ((m.globals.get? "Integer").getD .nil) "again"
  .install ((draft.emit .pushSelf).send "again" 0)

def Operation.recursion : Operation := .send 100 (.integer (.ofByte 3)) "again" #[]

theorem recursion_meets_limit : ∃ m m', Attained (fun _ _ => True) m ∧ m.depth = 0 ∧
    m.maxDepth = 5 ∧ Operation.recursion.run m = .error (.raised (.depthExceeded 5)) m' := by
  have hboots : boots .tight 5 (fun m =>
      let m₁ := after (Operation.installRecursion m).run m
      decide (m₁.depth = 0 ∧ m₁.maxDepth = 5) &&
        Action.stops Operation.recursion.run m₁
          fun s => decide (s = .raised (.depthExceeded 5))) = true := by decide +kernel
  obtain ⟨m, hboot, htest⟩ := exists_of_boots hboots
  obtain ⟨hdepths, hstops⟩ := Bool.and_eq_true_iff.mp htest
  obtain ⟨hdepth, hmax⟩ := of_decide_eq_true hdepths
  obtain ⟨s, m', hrecursion, hlimit⟩ := Action.exists_of_stops hstops
  obtain rfl := of_decide_eq_true hlimit
  exact ⟨_, m', .operated (.boot hboot) trivial, hdepth, hmax, hrecursion⟩

theorem recursion_nests_and_unwinds : ∃ m m', Attained (fun _ _ => True) m ∧ m.depth = 0 ∧
    Operation.recursion.run m = .error (.raised (.depthExceeded 5)) m' ∧ m'.activity.AtRest ∧
    ∃ call m'', Operation.recursion.Asks m call m'' ∧ m''.depth = 5 := by
  obtain ⟨m, m', hm, hdepth, hmax, hrun⟩ := recursion_meets_limit
  obtain ⟨-, -, hrest, hlimit⟩ := activations_nest_and_unwind hm hdepth .recursion
  obtain ⟨-, call, m'', hasks, hdeep⟩ := (hlimit 5).mp ⟨m', hrun⟩
  exact ⟨m, m', hm, hdepth, hrun, hrest _ m' hrun, call, m'', hasks, hdeep.trans hmax⟩

end ObjectMachine

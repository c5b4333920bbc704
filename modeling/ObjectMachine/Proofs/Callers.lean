import ObjectMachine.Proofs.WaitingContexts

/-!
# Callers

A context that calls waits until its callee has answered. The callee gets the receiver and
the arguments, and all that runs meanwhile is newer than the call. So the caller goes on
after the call as it was, with the answer on top of its operands. The call as a run of its
own and the call as part of a longer run come to the same machine.
-/

namespace ObjectMachine

open ObjectMachine.Action

section

variable {base fuel left : Nat} {m m₁ m' : Machine}

theorem Visits.trans {middle : Nat} (h : Visits base fuel m middle m₁)
    (h' : Visits base middle m₁ left m') : Visits base fuel m left m' := by
  induction h with
  | here => exact h'
  | next hstep _ ih => exact .next hstep (ih h')
  | resumed hstep hdepth _ ih => exact .resumed hstep hdepth (ih h')

/-- A run that goes further down visits the same machines, with any number of steps to
spare. -/
theorem Visits.within (h : Visits base fuel m left m') :
    ∃ used, ∀ outer ≤ base, ∀ spare, Visits outer (spare + used) m spare m' := by
  induction h with
  | here => exact ⟨0, fun _ _ spare => .here spare _⟩
  | next hstep _ ih =>
    obtain ⟨used, hvisits⟩ := ih
    exact ⟨used + 1, fun outer houter spare => .next hstep (hvisits outer houter spare)⟩
  | resumed hstep hdepth _ ih =>
    obtain ⟨used, hvisits⟩ := ih
    exact ⟨used + 1, fun outer houter spare =>
      .resumed hstep (houter.trans_lt hdepth) (hvisits outer houter spare)⟩

/-- A run that answers is part of the run that it is nested in. -/
theorem visits_of_run {v : Value} (hrun : run base fuel m = .ok v m') (hdepth : m'.depth = base) :
    ∃ used, ∀ outer < base, ∀ spare, Visits outer (spare + used) m spare (m'.pushed v) := by
  obtain ⟨left, m₁, hvisits, hends⟩ := run_rules base fuel m
  rw [hrun] at hends
  cases hends with
  | answered hstep _ =>
    obtain ⟨used, hvisits⟩ := hvisits.within
    refine ⟨used + 1, fun outer houter spare => ?_⟩
    have hbefore := hvisits outer houter.le (spare + 1)
    rw [Nat.add_right_comm] at hbefore
    exact hbefore.trans (.resumed hstep (hdepth ▸ houter) (.here spare _))

end

/-- The instruction `i` calls `receiver` with `args`, by a message or as a block. -/
inductive Requests (m : Machine) (literals : Array Value) (receiver : Value) (args : Array Value) :
    Instruction → (Nat → Action Value) → Prop
  | send {index argc : UInt32} {selector : Value} {name : String} :
      literals[index.toNat]? = some selector → m.symbolName? selector = some name →
      args.size = argc.toNat →
      Requests m literals receiver args (.send index argc) fun fuel => send fuel receiver name args
  | executeBlock {argc : UInt32} : args.size = argc.toNat →
      Requests m literals receiver args (.executeBlock argc) fun fuel =>
        callBlock fuel receiver args

/-- The context past the call `i`, without the operands that go to the callee. -/
def Context.calling (c : Context) (i : Instruction) (rest : Array Value) : Context :=
  { c with stack := rest, pc := c.pc + i.size }

structure Machine.CallsOut (m : Machine) (id : ContextId) (c : Context) (i : Instruction)
    (rest : Array Value) (receiver : Value) (args : Array Value) (request : Nat → Action Value) :
    Prop where
  runs : m.Runs id c
  stack : c.stack = rest.push receiver ++ args
  asks : ∃ code literals, m.program c.method = .ok (code, literals) ∧
    code.fetch? c.pc = some (.ok i) ∧ Requests m literals receiver args i request

/-- A call is answered at once without touching a context, or enters a new one. -/
inductive Opens (m : Machine) (receiver : Value) (args : Array Value) :
    EStateM.Result Stop Machine (Option Value) → Prop
  | answered {v : Value} {m' : Machine} : Linked Quiet m m' →
      Opens m receiver args (.ok (some v) m')
  | entered {call : Call} {m' : Machine} : Linked Quiet m m' → m'.memory = m.memory →
      call.Ready m' → m'.depth < m'.maxDepth → call.receiver = receiver ∧ call.args = args →
      Opens m receiver args (.ok none (m'.activate call))
  | stopped (s : Stop) (m' : Machine) : Opens m receiver args (.error s m')

section

variable {m m₁ m' : Machine} {receiver v : Value} {selector : String} {args : Array Value}
  {call : Call}

theorem Calls.memory_eq (h : Calls m receiver selector args call m') : m'.memory = m.memory := by
  cases h with
  | plain hfinds | declined hfinds | block hfinds =>
    cases hfinds
    rfl

/-- The callee gets the receiver and the arguments, also from a primitive. -/
theorem Calls.passes (h : Calls m receiver selector args call m') :
    call.receiver = receiver ∧ call.args = args := by
  cases h with
  | plain | declined => exact ⟨rfl, rfl⟩
  | block _ _ hwants =>
    obtain ⟨hblock, hargs⟩ := hwants.regular.proper _ rfl
    exact ⟨hblock, Array.toList_inj.mp hargs⟩

theorem startSend_opens (m : Machine) (receiver : Value) (selector : String) (args : Array Value) :
    Opens m receiver args (startSend receiver selector args m) := by
  have hresponds := startSend_rules m receiver selector args
  generalize startSend receiver selector args m = r at hresponds
  cases hresponds with
  | answered hfinds _ hreplies =>
    exact .answered (hfinds.linked.trans (hreplies.linked fun _ h => by cases h))
  | entered hcalls hdepth =>
    exact .entered hcalls.linked.1 hcalls.memory_eq hcalls.linked.2 hdepth hcalls.passes
  | unresolved | missing | corrupt | stopped | tooDeep => exact .stopped _ _

theorem startBlock_opens (m : Machine) (block : Value) (args : Array Value) :
    Opens m block args (startBlock block args m) := by
  rcases startBlock_rules m block args with ⟨b, hb, heq⟩ | heq
  · rw [heq]
    rcases (b.call block args).start_rules m with ⟨hdepth, heq⟩ | ⟨-, heq⟩
    · rw [heq]
      exact .entered (.refl m) rfl (.block args hb) hdepth ⟨rfl, rfl⟩
    · rw [heq]
      exact .stopped _ _
  · rw [heq]
    exact .stopped _ _

variable {id : ContextId} {c : Context} {i : Instruction} {rest : Array Value}
  {request : Nat → Action Value}

/-- The instruction takes the operands off the stack and starts what is asked for. -/
theorem Machine.CallsOut.step_eq (h : m.CallsOut id c i rest receiver args request) :
    ∃ start, (∀ fuel, request fuel = launch fuel start) ∧
      Opens (m.setContext id (c.calling i rest)) receiver args
        (start (m.setContext id (c.calling i rest))) ∧
      step m = (start >>= fun answer => deliver answer >>= fun _ => pure none)
        (m.setContext id (c.calling i rest)) := by
  obtain ⟨code, literals, hprogram, hfetch, hrequests⟩ := h.asks
  have hruns := h.runs.setContext (c.past i)
  have hcalling : (m.setContext id (c.past i)).setContext id { c.past i with stack := rest } =
      m.setContext id (c.calling i rest) := m.setContext_setContext ..
  cases hrequests with
  | @send index argc selector name hselector hname hsize =>
    refine ⟨startSend receiver name args, fun _ => rfl, startSend_opens .., ?_⟩
    have hstep := ObjectMachine.step_eq h.runs hprogram hfetch (by simp)
    rw [hstep, bind_eq (send_eq hruns _ hselector hname h.stack hsize), hcalling, bind_assoc]
  | @executeBlock argc hsize =>
    refine ⟨startBlock receiver args, fun _ => callBlock_eq_launch .., startBlock_opens .., ?_⟩
    have hstep := ObjectMachine.step_eq h.runs hprogram hfetch (by simp)
    rw [hstep, bind_eq (executeBlock_eq hruns _ h.stack hsize), hcalling]
    simp only [startBlock, bind_assoc, pure_bind, deliver]

theorem eq_ok_of_unwindRaised {α : Type} {base : Nat} {r : EStateM.Result Stop Machine α} {a : α}
    (h : unwindRaised base r = .ok a m') : r = .ok a m' := by
  cases r with
  | ok => exact h
  | error s =>
    cases s with
    | raised | fault | exhausted => cases h

/-- A call that is answered was answered at once or by the run of the context it entered. -/
theorem Opens.launch_ok {start : Action (Option Value)} (h : Opens m receiver args (start m))
    {fuel : Nat} (hlaunch : launch fuel start m = .ok v m') :
    (start m = .ok (some v) m' ∧ Linked Quiet m m') ∨
      ∃ call m₁, start m = .ok none (m₁.activate call) ∧ Linked Quiet m m₁ ∧
        m₁.memory = m.memory ∧ call.Ready m₁ ∧ m₁.depth < m₁.maxDepth ∧
        run m.depth fuel (m₁.activate call) = .ok v m' := by
  generalize hr : start m = r at h
  cases h with
  | answered hquiet =>
    rw [launch_eq_answer hr] at hlaunch
    cases hlaunch
    exact .inl ⟨rfl, hquiet⟩
  | entered hquiet hmemory hready hdepth =>
    rw [launch_eq_run hr] at hlaunch
    exact .inr ⟨_, _, rfl, hquiet, hmemory, hready, hdepth, eq_ok_of_unwindRaised hlaunch⟩
  | stopped =>
    rw [launch_eq_error hr] at hlaunch
    cases eq_ok_of_unwindRaised hlaunch

variable {n : Nat} {below : List ContextId}

/-- The caller has waited while its call was carried out. -/
theorem Opens.outwaits {start : Action (Option Value)} (h : Opens m receiver args (start m))
    {fuel : Nat} (hlaunch : launch fuel start m = .ok v m') (hepochs : m.memory.EpochsPast)
    (hm : m.Waits n [] id below c) :
    ∃ d c', Trail Act m d m' ∧ m'.Waits n [] id below c' ∧ c.Carried d c' ∧
      (m.Uncaptured n id → c.KeepsTemporaries d c') := by
  rcases h.launch_ok hlaunch with
    ⟨-, d, hquiet⟩ | ⟨call, m₁, -, ⟨d, hquiet⟩, hmemory, hready, hdepth, hrun⟩
  · obtain ⟨-, c', hm', hcarried, htemporaries⟩ := hquiet.quietly hepochs hm
    exact ⟨d, c', hquiet.mono fun _ _ _ => Quiet.act, hm', hcarried, fun _ => htemporaries⟩
  · obtain ⟨hepochs₁, c₁, hm₁, hcarried, htemporaries⟩ := hquiet.quietly hepochs hm
    have hdeed : Deed m₁ .still (m₁.activate call) := .call hready hdepth
    have hbase : m.depth = below.length + 1 := hm.depth_eq.symm.trans (Nat.zero_add _)
    obtain ⟨e, c', houtwaits⟩ :=
      outwaits_of_run hrun (hdeed.act.epochs hepochs₁) (hm₁.activate hdepth) hbase
    have htrail := ((hquiet.mono fun _ _ _ => Quiet.act).tail hdeed.act).trans houtwaits.trail
    rw [Displacement.andThen_still] at htrail
    refine ⟨_, c', htrail, houtwaits.waits, hcarried.trans houtwaits.carried, fun hm => ?_⟩
    have hm₁ : m₁.Uncaptured n id := by
      constructor
      · rw [hmemory]
        exact hm.blocks
      · rw [hmemory]
        exact hm.contexts
    exact htemporaries.trans (houtwaits.uncaptured (hm₁.activate hready)).2

theorem Linked.active_eq (h : Linked Quiet m m') (hm : m.active = some id) :
    m'.active = some id := by
  obtain ⟨d, htrail⟩ := h
  refine htrail.keeps (P := fun m => m.active = some id) (fun m d m' hquiet hm => ?_) hm
  cases hquiet with
  | note | write | attempt => exact hm
  | create _ hplaces =>
    cases hplaces with
    | free | full => exact hm

theorem Machine.Runs.pushed_eq (h : m.Runs id c) (v : Value) :
    m.pushed v = m.setContext id (c.push v) := by
  have hpush := (push_eq m v).symm.trans (modifyActive_eq h fun c => c.push v)
  exact (EStateM.Result.ok.inj hpush).2

namespace Machine.CallsOut

variable (h : m.CallsOut id c i rest receiver args request)

include h

/-- If the call enters another context, then a new one for the receiver and the arguments. -/
theorem callee_eq {k : ContextId} {callee : Context} (hstep : step m = .ok none m₁)
    (hcallee : m₁.Runs k callee) (hk : k ≠ id) :
    ∃ method count outer, callee = .new method receiver args count (some id) outer := by
  obtain ⟨start, -, hopens, hstep'⟩ := h.step_eq
  rw [hstep'] at hstep
  generalize hr : start _ = r at hopens
  cases hopens with
  | @answered v m' hquiet =>
    have hpushed : EStateM.Result.ok none (m'.pushed v) = .ok none m₁ :=
      (bind_ok hr).symm.trans hstep
    cases hpushed
    have hactive : (m'.pushed v).active = m'.active :=
      congrArg Activity.active (m'.activity_pushed v)
    rw [hquiet.active_eq h.runs.active, hcallee.active] at hactive
    exact absurd (Option.some.inj hactive) hk
  | entered hquiet _ _ _ hpasses =>
    rw [bind_ok hr] at hstep
    cases hstep
    have hactive := hquiet.active_eq h.runs.active
    obtain ⟨hid, hcontext⟩ := hcallee
    cases hid
    cases Array.getElem?_push_size.symm.trans hcontext
    exact ⟨_, _, _, by rw [hpasses.1, hpasses.2, hactive]⟩
  | stopped =>
    rw [bind_error hr] at hstep
    cases hstep

/-- The machine that carries out the call as one of its steps comes to the answer. -/
theorem visits {fuel : Nat}
    (hrequest : request fuel (m.setContext id (c.calling i rest)) = .ok v m')
    (hdepth : m'.depth = m.depth) :
    ∃ used, ∀ base < m.depth, ∀ left, Visits base (left + used) m left (m'.pushed v) := by
  obtain ⟨start, hstart, hopens, hstep⟩ := h.step_eq
  rw [hstart] at hrequest
  rcases hopens.launch_ok hrequest with ⟨hanswer, -⟩ | ⟨call, m₁, henter, -, -, -, -, hrun⟩
  · rw [bind_ok hanswer] at hstep
    exact ⟨1, fun base _ left => .next hstep (.here left _)⟩
  · rw [bind_ok henter] at hstep
    obtain ⟨used, hvisits⟩ := visits_of_run hrun hdepth
    exact ⟨used + 1, fun base hbase left => .next hstep (hvisits base hbase left)⟩

theorem waits {below : List ContextId} (hruns : m.activity.Runs (id :: below)) :
    (m.setContext id (c.calling i rest)).Waits m.memory.contexts.size [] id below
      (c.calling i rest) := by
  have hactivity : (m.setContext id (c.calling i rest)).activity = m.activity :=
    Machine.activity_setContext h.runs.context rfl
  constructor
  · exact Machine.getElem?_setContext h.runs.context _
  · rw [hactivity]
    exact hruns
  · exact fun k hk => absurd hk List.not_mem_nil
  · exact (Array.getElem?_eq_some_iff.mp h.runs.context).1
  · exact Array.size_modify.ge

end Machine.CallsOut

theorem Activity.Nested.exists_runs {a : Activity} (h : a.Nested) (hactive : a.active = some id) :
    ∃ below, a.Runs (id :: below) := by
  obtain ⟨ids, hids⟩ := h
  have hchain := hids.chain
  rw [hactive] at hchain
  cases hchain
  exact ⟨_, hids⟩

theorem Occurs.nested {Q : Machine → Operation → Prop} (h : Occurs Q m) : m.activity.Nested := by
  cases h with
  | attained hm => exact hm.nested
  | visited hm _ hvisits => exact (hvisits.nested hm.nested).1

end

/-- In every machine that a host can get to, the callee of a call gets the receiver and the
arguments. When it has answered, whatever has run, the caller goes on after the call with the
answer on top of its other operands. Nothing else of it has changed, except that collections
have moved what it refers to, and that blocks inside it may have set its temporaries. -/
theorem calls_leave_the_caller_as_it_was {m : Machine} (h : Occurs (fun _ _ => True) m)
    {id : ContextId} {c : Context} {i : Instruction} {rest : Array Value} {receiver : Value}
    {args : Array Value} {request : Nat → Action Value}
    (hcall : m.CallsOut id c i rest receiver args request) :
    (∀ m₁ k callee, step m = .ok none m₁ → m₁.Runs k callee → k ≠ id →
      ∃ method count outer, callee = .new method receiver args count (some id) outer) ∧
    ∀ fuel v m', request fuel (m.setContext id (c.calling i rest)) = .ok v m' →
      (∃ used, ∀ base < m.depth, ∀ left, Visits base (left + used) m left (m'.pushed v)) ∧
      ∃ d c', Trail Act m d (m'.pushed v) ∧ KeepsStructure d m (m'.pushed v) ∧
        (m'.pushed v).Runs id (c'.push v) ∧ (c.calling i rest).Carried d c' ∧
        ((∀ block b outer, m.memory.body? block = some b → b.outer? = some outer →
          ¬m.memory.Inside outer id) → c.KeepsTemporaries d c') := by
  obtain ⟨below, hruns⟩ := h.nested.exists_runs hcall.runs.active
  have hwaits := hcall.waits hruns
  refine ⟨fun m₁ k callee hstep hcallee hk => hcall.callee_eq hstep hcallee hk, ?_⟩
  intro fuel v m' hrequest
  have hoperate : Act m .still (m.setContext id (c.calling i rest)) :=
    .operate rest (c.pc + i.size) hcall.runs
  obtain ⟨start, hstart, hopens, -⟩ := hcall.step_eq
  have hlaunch := hrequest
  rw [hstart] at hlaunch
  obtain ⟨d, c', htrail, hm', hcarried, htemporaries⟩ :=
    hopens.outwaits hlaunch (hoperate.epochs h.epochs) hwaits
  have hruns' : m'.Runs id c' := ⟨hm'.runs.active_eq, hm'.context⟩
  have hpushed := hruns'.pushed_eq v
  have htrail' : Trail Act m d (m'.pushed v) := by
    have hall := ((Trail.one hoperate).trans htrail).tail (.operate (c'.stack.push v) c'.pc hruns')
    rw [hpushed]
    rwa [Displacement.andThen_still, Displacement.still_andThen] at hall
  refine ⟨hcall.visits hrequest (hm'.depth_eq.symm.trans hwaits.depth_eq), d, c', htrail',
    htrail'.keepsStructure h.epochs, ?_, hcarried, fun huncaptured => ?_⟩
  · rw [hpushed]
    exact hruns'.setContext _
  · have hstart := Machine.Uncaptured.start hwaits.older huncaptured
    obtain ⟨hkept, heq⟩ := htemporaries
      (hstart.withContext id (fun c' hc' => by cases hcall.runs.context.symm.trans hc'; rfl) _ _)
    exact ⟨hkept, heq⟩

/-- Keeps a text while its receiver counts down. -/
def Draft.labelled (owner : Value) : Draft where
  owner := owner
  selector := "labelled"
  literals := #[.string "count", .symbol "countdown"]
  temporaries := ["label"]
  primitive := none
  assembly :=
    let instructions := [.pushLiteral 0, .storeTemporary 0, .pushSelf, .send 1 0, .returnTop]
    ⟨instructions.flatMap Instruction.encode⟩

def Operation.installLabelled (m : Machine) : Operation :=
  .install (.labelled ((m.globals.get? "Integer").getD .nil))

/-- A collection moves the text, which is an operand and a temporary of the caller. -/
theorem labelled_countdown_keeps_the_label : ∃ m c rest m' d c', Occurs (fun _ _ => True) m ∧
    m.CallsOut 0 c (.send 1 0) rest (.integer (.ofByte 1)) #[]
      (fun fuel => send fuel (.integer (.ofByte 1)) "countdown" #[]) ∧
    send 100 (.integer (.ofByte 1)) "countdown" #[] (m.setContext 0 (c.calling (.send 1 0) rest)) =
      .ok (.integer (.ofByte 0)) m' ∧
    (m'.pushed (.integer (.ofByte 0))).Runs 0 (c'.push (.integer (.ofByte 0))) ∧
    (c.calling (.send 1 0) rest).Carried d c' ∧ c.KeepsTemporaries d c' ∧
    c'.temporaries ≠ c.temporaries := by
  have hboots : boots { Settings.tight with initialCapacity := 96 } 5 (fun m₀ =>
      let m₁ := after (Operation.installCountdown m₀).run m₀
      let m₂ := after (Operation.installLabelled m₁).run m₁
      let m := after (Operation.send 3 (.integer (.ofByte 1)) "labelled" #[]).run m₂
      (m.memory.contexts[0]?).any fun c =>
        let rest := c.stack.pop
        m.memory.objects.toList.all (fun o => o.body.outer?.isNone) &&
        (m.program c.method).toOption.any (fun program =>
          decide ((program.1.fetch? c.pc).map Except.toOption = some (some (.send 1 0)) ∧
            (program.2[1]?).bind m.symbolName? = some "countdown")) &&
        Action.answers (send 100 (.integer (.ofByte 1)) "countdown" #[])
          (m.setContext 0 (c.calling (.send 1 0) rest)) fun v m' =>
            decide (m.active = some 0 ∧ c.stack = rest.push (.integer (.ofByte 1)) ++ #[] ∧
              v = .integer (.ofByte 0) ∧
              ((m'.pushed v).memory.contexts[0]?).map Context.temporaries ≠
                some c.temporaries)) = true := by
    decide +kernel
  obtain ⟨m₀, hboot, htest⟩ := exists_of_boots hboots
  have hoperated : ∀ m (op : Operation), Attained (fun _ _ => True) m →
      Attained (fun _ _ => True) (after op.run m) := fun m op hm => .operated hm trivial
  have hcountdown := hoperated m₀ (.installCountdown m₀) (.boot hboot)
  have hlabelled := hoperated _ (.installLabelled (after (Operation.installCountdown m₀).run m₀))
    hcountdown
  have hm := Occurs.attained
    (hoperated _ (.send 3 (.integer (.ofByte 1)) "labelled" #[]) hlabelled)
  dsimp only at htest
  generalize after (Operation.send 3 (.integer (.ofByte 1)) "labelled" #[]).run _ = m at hm htest
  obtain ⟨c, hc, htest⟩ := (Option.any_eq_true _ _).mp htest
  obtain ⟨htest, hanswers⟩ := Bool.and_eq_true_iff.mp htest
  obtain ⟨hblocks, hprogram⟩ := Bool.and_eq_true_iff.mp htest
  obtain ⟨⟨code, literals⟩, hprogram, hinstruction⟩ := (Option.any_eq_true _ _).mp hprogram
  obtain ⟨hfetch, hsymbol⟩ := of_decide_eq_true hinstruction
  obtain ⟨i, hfetch, hi⟩ := Option.map_eq_some_iff.mp hfetch
  rw [eq_ok_of_toOption hi] at hfetch
  obtain ⟨selector, hselector, hname⟩ := Option.bind_eq_some_iff.mp hsymbol
  obtain ⟨v, m', hrequest, htest⟩ := Action.exists_of_answers hanswers
  obtain ⟨hactive, hstack, rfl, hmoved⟩ := of_decide_eq_true htest
  have hcall : m.CallsOut 0 c (.send 1 0) c.stack.pop (.integer (.ofByte 1)) #[]
      (fun fuel => send fuel (.integer (.ofByte 1)) "countdown" #[]) :=
    ⟨⟨hactive, hc⟩, hstack, code, literals, eq_ok_of_toOption hprogram, hfetch,
      .send hselector hname rfl⟩
  obtain ⟨-, d, c', -, -, hruns, hcarried, htemporaries⟩ :=
    (calls_leave_the_caller_as_it_was hm hcall).2 100 _ m' hrequest
  refine ⟨m, c, c.stack.pop, m', d, c', hm, hcall, hrequest, hruns, hcarried, htemporaries ?_, ?_⟩
  · intro block b outer hb houter
    obtain ⟨o, ho, rfl⟩ := Option.map_eq_some_iff.mp hb
    have hmem : o ∈ m.memory.objects.toList := by
      cases block with
      | pointer => exact Array.mem_toList_iff.mpr (Array.mem_of_getElem? ho)
      | _ => cases ho
    have hnone := List.all_eq_true.mp hblocks o hmem
    rw [houter] at hnone
    cases hnone
  · intro heq
    rw [hruns.context] at hmoved
    exact hmoved (congrArg some heq)

end ObjectMachine

import ObjectMachine.Proofs.IndexedRuns

/-!
# Raising the depth limit

The limit is read in one place only, where a call is about to be made. Until a call is
refused there, a machine with a higher limit does the same, action by action: it comes
to the same answer or the same stop and leaves the same machine. A refused call ends
the whole operation, since nothing on the way up takes the error for anything else.
-/

namespace ObjectMachine

open ObjectMachine.Action

def Machine.allowing (m : Machine) (limit : Nat) : Machine := { m with maxDepth := limit }

theorem Machine.lookupFrom_allowing (m : Machine) (limit : Nat) (selector : String) (fuel : Nat)
    (v : Value) : (m.allowing limit).lookupFrom selector fuel v = m.lookupFrom selector fuel v := by
  induction fuel generalizing v with
  | zero => rfl
  | succ fuel ih =>
    simp only [lookupFrom, ih]
    rfl

theorem Machine.resolve_allowing (m : Machine) (limit : Nat) (receiver : Value)
    (selector : String) : (m.allowing limit).resolve receiver selector =
      m.resolve receiver selector := by
  simp only [resolve, lookup, lookupFrom_allowing]
  rfl

def Stop.tooDeep : Stop → Bool
  | .raised (.depthExceeded _) => true
  | _ => false

/-- What an action comes to under the limit `low` and under a higher one: the same, or
the lower limit has been met. -/
inductive Outlasts {α : Type} (low high : Nat) :
    EStateM.Result Stop Machine α → EStateM.Result Stop Machine α → Prop
  | ok (a : α) (m : Machine) : Outlasts low high (.ok a (m.allowing low)) (.ok a (m.allowing high))
  | stop {s : Stop} (m : Machine) : s.tooDeep = false →
      Outlasts low high (.error s (m.allowing low)) (.error s (m.allowing high))
  | met (m : Machine) (r : EStateM.Result Stop Machine α) :
      Outlasts low high (.error (.raised (.depthExceeded low)) m) r

/-- A higher limit changes nothing before the lower one is met. -/
def Lasts {α : Type} (x : Action α) : Prop :=
  ∀ low high : Nat, low ≤ high → ∀ m : Machine,
    Outlasts low high (x (m.allowing low)) (x (m.allowing high))

namespace Lasts

variable {α β γ : Type}

protected theorem pure (a : α) : Lasts (pure a : Action α) := fun _ _ _ m => .ok a m

theorem stop {s : Stop} (h : s.tooDeep = false) : Lasts (throw s : Action α) :=
  fun _ _ _ m => .stop m h

theorem fail (f : Fault) : Lasts (Action.fail f : Action α) := stop rfl

theorem raise {e : RuntimeError} (h : (Stop.raised e).tooDeep = false) :
    Lasts (Action.raise e : Action α) := stop h

theorem ofExcept (r : Except Fault α) : Lasts (Action.ofExcept r) := by
  cases r with
  | ok a => exact .pure a
  | error f => exact fail f

protected theorem bind {x : Action α} (hx : Lasts x) {f : α → Action β} (hf : ∀ a, Lasts (f a)) :
    Lasts (x >>= f) := by
  intro low high hle m
  have h := hx low high hle m
  generalize hlow : x (m.allowing low) = r, hhigh : x (m.allowing high) = r' at h
  cases h with
  | ok a m' =>
    rw [bind_ok hlow, bind_ok hhigh]
    exact hf a low high hle m'
  | stop m' hs =>
    rw [bind_error hlow, bind_error hhigh]
    exact .stop m' hs
  | met m' =>
    rw [bind_error hlow]
    exact .met m' _

/-- What is read from the machine must not be its limit. -/
theorem read {f : Machine → Action β} (hf : ∀ (m : Machine) limit, f (m.allowing limit) = f m)
    (h : ∀ m, Lasts (f m)) : Lasts (get >>= f) := by
  intro low high hle m
  rw [bind_get, bind_get, hf, hf]
  exact h m low high hle m

/-- What is changed must not be the limit. -/
protected theorem modify {g : Machine → Machine}
    (hg : ∀ (m : Machine) limit, g (m.allowing limit) = (g m).allowing limit) :
    Lasts (modify g) := by
  intro low high hle m
  have h : ∀ limit, (modify g : Action Unit) (m.allowing limit) = .ok () ((g m).allowing limit) :=
    fun limit => congrArg (EStateM.Result.ok ()) (hg m limit)
  rw [h, h]
  exact .ok () _

protected theorem allocate (o : HeapObject) : Lasts (allocate o) := by
  intro low high _ m
  have hroots : ∀ limit, (m.allowing limit).roots = m.roots := fun _ => rfl
  have hmemory : ∀ limit, (m.allowing limit).memory = m.memory := fun _ => rfl
  simp only [ObjectMachine.allocate, hroots, hmemory]
  split_ifs
  · cases m.memory.collect (m.roots ++ o.roots) with
    | error f => exact .stop m.afterFailedCollection rfl
    | ok c => exact .ok _ ((m.settle c).append (o.mapEdges c.survey.relocate))
  · exact .ok _ (m.append o)

protected theorem collectGarbage : Lasts collectGarbage := by
  intro low high _ m
  have hcollect : ∀ limit, (m.allowing limit).memory.collect (m.allowing limit).roots =
      m.memory.collect m.roots := fun _ => rfl
  simp only [ObjectMachine.collectGarbage, hcollect]
  cases m.memory.collect m.roots with
  | error f => exact .stop m.afterFailedCollection rfl
  | ok c => exact .ok () (m.settle c)

theorem made {o : Machine → HeapObject} (ho : ∀ (m : Machine) limit, o (m.allowing limit) = o m) :
    Lasts (get >>= fun m => ObjectMachine.allocate (o m)) := by
  apply read
  · exact fun m limit => congrArg ObjectMachine.allocate (ho m limit)
  · exact fun m => .allocate (o m)

protected theorem intern (name : String) : Lasts (intern name) := by
  apply read fun _ _ => rfl
  intro m
  cases m.symbols.get? name with
  | some v => exact .pure v
  | none =>
    apply Lasts.bind (made fun _ _ => rfl)
    intro v
    exact (Lasts.modify fun _ _ => rfl).bind fun _ => .pure v

protected theorem newClass (name : String) (superclass : Value) (ownVariables : List String) :
    Lasts (newClass name superclass ownVariables) := by
  apply Lasts.bind (.modify fun _ _ => rfl)
  intro _
  apply read fun _ _ => rfl
  intro m
  apply (Lasts.allocate _).bind
  intro methods
  apply Lasts.bind
  · apply read fun _ _ => rfl
    exact fun m => (Lasts.modify fun _ _ => rfl).bind fun _ => .pure _
  · intro superclass
    apply read fun _ _ => rfl
    intro m
    apply (Lasts.allocate _).bind
    exact fun v => (Lasts.modify fun _ _ => rfl).bind fun _ => .pure v

protected theorem defineMethod (classRef : Value) (selector : String) (method : Value) :
    Lasts (defineMethod classRef selector method) := by
  apply read fun _ _ => rfl
  intro m
  apply (Lasts.ofExcept _).bind
  intro body
  cases body with
  | classInfo c =>
    apply (Lasts.ofExcept _).bind
    intro body
    cases body with
    | dictionary d => exact .modify fun m limit => by cases c.methods <;> rfl
    | _ => exact fail _
  | _ => exact fail _

protected theorem fill (literals : List Literal) (place : Nat) :
    Lasts (Draft.fill literals place) := by
  induction literals generalizing place with
  | nil => exact .pure ()
  | cons l rest ih =>
    cases l with
    | value v => exact (Lasts.pure ()).bind fun _ => ih _
    | symbol name =>
      apply (Lasts.intern name).bind
      exact fun v => (Lasts.modify fun _ _ => rfl).bind fun _ => ih _
    | string s =>
      apply (Lasts.made fun _ _ => rfl).bind
      exact fun v => (Lasts.modify fun _ _ => rfl).bind fun _ => ih _

protected theorem build (d : Draft) : Lasts d.build := by
  apply read fun _ _ => rfl
  intro m
  apply Lasts.bind (.modify fun _ _ => rfl)
  intro _
  apply (Lasts.fill _ _).bind
  intro _
  apply (Lasts.intern _).bind
  intro selector
  apply read fun _ _ => rfl
  intro m
  apply (Lasts.made fun _ _ => rfl).bind
  exact fun v => (Lasts.modify fun _ _ => rfl).bind fun _ => .pure v

protected theorem install (d : Draft) : Lasts d.install := by
  apply (Lasts.build d).bind
  intro v
  apply read fun _ _ => rfl
  intro m
  apply (Lasts.ofExcept _).bind
  intro body
  cases body with
  | method c =>
    apply (Lasts.defineMethod _ _ _).bind
    exact fun _ => (Lasts.modify fun _ _ => rfl).bind fun _ => .pure v
  | _ => exact fail _

theorem activeId : Lasts activeId := by
  apply read fun _ _ => rfl
  intro m
  cases m.active with
  | some id => exact .pure id
  | none => exact fail _

theorem modifyActive (f : Context → Context) : Lasts (modifyActive f) := by
  apply Lasts.modify
  intro m limit
  obtain ⟨memory, core, globals, symbols, scratch, active, depth, maxDepth, journal⟩ := m
  cases active <;> rfl

protected theorem active : Lasts active := by
  apply activeId.bind
  intro id
  apply read fun _ _ => rfl
  intro m
  cases m.memory.contexts[id]? with
  | some c => exact .pure c
  | none => exact fail _

theorem push (v : Value) : Lasts (push v) := modifyActive _

protected theorem top : Lasts top := Lasts.active.bind fun _ => ofExcept _

theorem pop : Lasts pop :=
  Lasts.top.bind fun v => (modifyActive _).bind fun _ => .pure v

theorem popMany (count : Nat) : Lasts (popMany count) := by
  apply Lasts.active.bind
  intro c
  apply (ofExcept _).bind
  exact fun vs => (modifyActive _).bind fun _ => .pure vs.1

/-- The one place where the limit is read. -/
protected theorem enter (method receiver : Value) (args : Array Value) (temporaryCount : Nat)
    (outer : Option ContextId) : Lasts (enter method receiver args temporaryCount outer) := by
  intro low high hle m
  have hcall := fun limit =>
    (Call.mk method receiver args temporaryCount outer).enter_rules (m.allowing limit)
  have hlow := hcall low
  have hhigh := hcall high
  rw [Call.enter] at hlow hhigh
  generalize enter method receiver args temporaryCount outer (m.allowing low) = r at hlow
  generalize enter method receiver args temporaryCount outer (m.allowing high) = r' at hhigh
  cases hlow with
  | tooDeep => exact .met _ _
  | activated hdepth =>
    cases hhigh with
    | activated => exact .ok () (m.activate ⟨method, receiver, args, temporaryCount, outer⟩)
    | tooDeep hdeep => exact absurd (Nat.lt_of_lt_of_le hdepth hle) (Nat.not_lt.mpr hdeep)

theorem enterMethod (method receiver : Value) (args : Array Value) :
    Lasts (enterMethod method receiver args) := by
  apply read fun _ _ => rfl
  intro m
  split
  · exact .enter _ _ _ _ _
  · exact raise rfl

theorem enterBlock (block : Value) (args : Array Value) : Lasts (enterBlock block args) := by
  apply read fun _ _ => rfl
  intro m
  split
  · exact .enter _ _ _ _ _
  · exact raise rfl

theorem write (v : Value) (f : Body → Body) :
    Lasts (modify fun m => { m with memory := m.memory.modifyBody v f }) :=
  .modify fun _ _ => rfl

theorem perform (e : Effect) : Lasts (perform e) := by
  cases e with
  | decline => exact .pure _
  | answer v => exact .pure _
  | putElement target place v => exact (write _ _).bind fun _ => .pure _
  | putByte target place byte v => exact (write _ _).bind fun _ => .pure _
  | create o => exact (Lasts.allocate o).bind fun _ => .pure _
  | call block args => exact (enterBlock block args).bind fun _ => .pure _

theorem tryPrimitive (index : Nat) (receiver : Value) (args : Array Value) :
    Lasts (tryPrimitive index receiver args) := by
  unfold ObjectMachine.tryPrimitive
  cases Primitive.row? index with
  | none => exact fail _
  | some row =>
    apply read fun _ _ => rfl
    exact fun m => (ofExcept _).bind fun e => perform e

theorem startSend (receiver : Value) (selector : String) (args : Array Value) :
    Lasts (startSend receiver selector args) := by
  apply read fun m limit => by rw [m.resolve_allowing]
  intro m
  apply (ofExcept _).bind
  rintro ⟨classRef, found⟩
  apply read fun _ _ => rfl
  intro m
  cases found with
  | none => exact raise rfl
  | some method =>
    apply Lasts.bind (.modify fun _ _ => rfl)
    intro _
    apply read fun _ _ => rfl
    intro m
    apply (ofExcept _).bind
    intro c
    cases c.primitive with
    | none => exact (Lasts.enter _ _ _ _ _).bind fun _ => .pure none
    | some index =>
      apply (tryPrimitive index receiver args).bind
      intro reply
      cases reply with
      | answered v => exact .pure _
      | entered => exact .pure _
      | declined =>
        apply Lasts.bind (.modify fun _ _ => rfl)
        exact fun _ => (Lasts.enter _ _ _ _ _).bind fun _ => .pure none

theorem jumpTo (target : Int) (length : Nat) : Lasts (jumpTo target length) := by
  unfold ObjectMachine.jumpTo
  split_ifs
  · exact raise rfl
  · exact modifyActive _

theorem literal (literals : Array Value) (index : Nat) : Lasts (literal literals index) := by
  unfold ObjectMachine.literal
  cases literals[index]? with
  | some v => exact .pure v
  | none => exact raise rfl

theorem execute (code : Code) (literals : Array Value) (next : Nat) (i : Instruction) :
    Lasts (execute code literals next i) := by
  cases i with
  | pushLiteral index => exact (literal literals _).bind push
  | pushInstanceVariable index =>
    apply read fun _ _ => rfl
    intro m
    apply Lasts.active.bind
    intro c
    dsimp only
    split
    · exact push _
    · exact raise rfl
  | pushTemporary index =>
    apply read fun _ _ => rfl
    intro m
    apply activeId.bind
    intro id
    split
    · exact push _
    · exact raise rfl
  | pushSelf => exact Lasts.active.bind fun c => push _
  | storeInstanceVariable index =>
    apply Lasts.active.bind
    intro c
    apply Lasts.top.bind
    intro v
    apply read fun _ _ => rfl
    intro m
    dsimp only
    split_ifs
    · exact raise rfl
    · exact write _ _
  | storeTemporary index =>
    apply Lasts.top.bind
    intro v
    apply read fun _ _ => rfl
    intro m
    apply activeId.bind
    intro id
    split
    · exact .modify fun _ _ => rfl
    · exact raise rfl
  | send index argc =>
    apply (literal literals _).bind
    intro selector
    apply read fun _ _ => rfl
    intro m
    split
    · exact raise rfl
    · apply (popMany _).bind
      intro args
      apply Lasts.active.bind
      intro c
      split_ifs
      · exact raise rfl
      · apply pop.bind
        intro receiver
        apply (startSend receiver _ args).bind
        intro answer
        cases answer with
        | some v => exact push v
        | none => exact .pure ()
  | returnTop => exact .pure ()
  | jump kind offset =>
    cases kind with
    | always => exact jumpTo _ _
    | ifTrue | ifFalse =>
      apply pop.bind
      intro v
      split_ifs
      · exact jumpTo _ _
      · exact .pure ()
  | pop => exact pop.bind fun _ => .pure ()
  | duplicate => exact Lasts.top.bind push
  | createBlock body count temporaries =>
    unfold ObjectMachine.execute
    dsimp only
    split_ifs
    · exact raise rfl
    · apply activeId.bind
      intro id
      exact (Lasts.made fun _ _ => rfl).bind push
  | executeBlock argc =>
    apply (popMany _).bind
    intro args
    exact pop.bind fun block => enterBlock block args

end Lasts

theorem Machine.leave_allowing (m : Machine) (limit : Nat) :
    (m.allowing limit).leave = m.leave.allowing limit := by
  obtain ⟨memory, core, globals, symbols, scratch, active, depth, maxDepth, journal⟩ := m
  cases active <;> rfl

theorem Machine.unwind_allowing (m : Machine) (limit base : Nat) :
    (m.allowing limit).unwind base = (m.unwind base).allowing limit := by
  have hrepeat : ∀ n, Nat.repeat leave n (m.allowing limit) =
      (Nat.repeat leave n m).allowing limit := by
    intro n
    induction n with
    | zero => rfl
    | succ n ih => rw [Nat.repeat, Nat.repeat, ih, leave_allowing]
  exact hrepeat _

theorem Outlasts.unwindRaised {α : Type} {low high : Nat} {r r' : EStateM.Result Stop Machine α}
    (h : Outlasts low high r r') (base : Nat) :
    Outlasts low high (unwindRaised base r) (unwindRaised base r') := by
  cases h with
  | ok a m => exact .ok a m
  | met m => exact .met _ _
  | @stop s m hs =>
    cases s with
    | raised e =>
      rw [ObjectMachine.unwindRaised, ObjectMachine.unwindRaised, Machine.unwind_allowing,
        Machine.unwind_allowing]
      exact .stop _ hs
    | fault f => exact .stop m rfl
    | exhausted => exact .stop m rfl

namespace Lasts

theorem finish : Lasts finish := by
  apply Lasts.active.bind
  intro c
  exact (Lasts.modify Machine.leave_allowing).bind fun _ => .pure _

theorem step : Lasts step := by
  apply Lasts.active.bind
  intro c
  apply read fun _ _ => rfl
  intro m
  apply (ofExcept _).bind
  rintro ⟨code, literals⟩
  dsimp only
  split
  · exact finish.bind fun v => .pure _
  · exact raise rfl
  · apply (modifyActive _).bind
    intro _
    split_ifs
    · exact finish.bind fun v => .pure _
    · exact (execute _ _ _ _).bind fun _ => .pure none

protected theorem protect {α : Type} {x : Action α} (hx : Lasts x) : Lasts (protect x) := by
  intro low high hle m
  rw [protect_eq, protect_eq]
  exact (hx low high hle m).unwindRaised m.depth

theorem run (base fuel : Nat) : Lasts (run base fuel) := by
  induction fuel with
  | zero => exact stop rfl
  | succ fuel ih =>
    apply step.bind
    intro answer
    cases answer with
    | none => exact ih
    | some v =>
      apply read fun _ _ => rfl
      intro m
      split_ifs
      · exact .pure v
      · exact (push v).bind fun _ => ih

theorem launch {start : Action (Option Value)} (hstart : Lasts start) (fuel : Nat) :
    Lasts (launch fuel start) := by
  apply Lasts.protect
  apply read fun _ _ => rfl
  intro m
  apply hstart.bind
  intro answer
  cases answer with
  | some v => exact .pure v
  | none => exact run _ _

theorem startMethod (method receiver : Value) (args : Array Value) :
    Lasts (startMethod method receiver args) :=
  (enterMethod method receiver args).bind fun _ => .pure none

theorem startBlock (block : Value) (args : Array Value) : Lasts (startBlock block args) :=
  (enterBlock block args).bind fun _ => .pure none

theorem operation (op : Operation) : Lasts op.run := by
  cases op with
  | newClass => exact .newClass _ _ _
  | install draft => exact .install draft
  | intern name => exact .intern name
  | newInstance | newString | newArray | newByteArray | newBlock | newMethod =>
    exact made fun _ _ => rfl
  | setGlobal | setScratch => exact (Lasts.modify fun _ _ => rfl).bind fun _ => .pure _
  | collectGarbage => exact Lasts.collectGarbage.bind fun _ => .pure _
  | send =>
    rw [Operation.run, send_eq_launch]
    exact (startSend _ _ _).launch _
  | executeMethod =>
    rw [Operation.run, executeMethod_eq_launch]
    exact (startMethod _ _ _).launch _
  | callBlock =>
    rw [Operation.run, callBlock_eq_launch]
    exact (startBlock _ _).launch _
  | evaluate =>
    apply (Lasts.build _).bind
    intro method
    rw [executeMethod_eq_launch]
    exact (startMethod _ _ _).launch _

end Lasts

/-- What is carried out under a limit and under a higher one: the same, or under the
lower one only the beginning. -/
inductive LogsOutlast (low high : Nat) : Logged → Logged → Prop
  | same (log : List Executed) {r r' : EStateM.Result Stop Machine Value} :
      Outlasts low high r r' → LogsOutlast low high ⟨log, r⟩ ⟨log, r'⟩
  | met {log log' : List Executed} (m : Machine) (r : EStateM.Result Stop Machine Value) :
      log <+: log' → LogsOutlast low high ⟨log, .error (.raised (.depthExceeded low)) m⟩ ⟨log', r⟩

namespace LogsOutlast

variable {low high : Nat} {l l' : Logged}

theorem after (h : LogsOutlast low high l l') (first : Option Executed) :
    LogsOutlast low high (l.after first) (l'.after first) := by
  cases h with
  | same log h => exact .same _ h
  | met m r hlog => exact .met m r ((List.prefix_append_right_inj _).mpr hlog)

theorem unwindRaised (h : LogsOutlast low high l l') (base : Nat) :
    LogsOutlast low high ⟨l.log, unwindRaised base l.result⟩
      ⟨l'.log, ObjectMachine.unwindRaised base l'.result⟩ := by
  cases h with
  | same log h => exact .same log (h.unwindRaised base)
  | met m r hlog => exact .met _ _ hlog

theorem runLogged (hle : low ≤ high) (base fuel : Nat) (m : Machine) :
    LogsOutlast low high (runLogged base fuel (m.allowing low))
      (ObjectMachine.runLogged base fuel (m.allowing high)) := by
  induction fuel generalizing m with
  | zero => exact .same [] (.stop m rfl)
  | succ fuel ih =>
    have hstep := Lasts.step low high hle m
    unfold ObjectMachine.runLogged
    apply after
    generalize step (m.allowing low) = r, step (m.allowing high) = r' at hstep
    cases hstep with
    | stop m' hs => exact .same [] (.stop m' hs)
    | met m' => exact .met m' _ List.nil_prefix
    | ok answer m' =>
      cases answer with
      | none => exact ih m'
      | some v =>
        have hpush := Lasts.push v low high hle m'
        have hdepth : ∀ limit, (m'.allowing limit).depth = m'.depth := fun _ => rfl
        dsimp only
        rw [hdepth, hdepth]
        split_ifs
        · exact .same [] (.ok v m')
        · generalize push v (m'.allowing low) = r, push v (m'.allowing high) = r' at hpush
          cases hpush with
          | ok _ m'' => exact ih m''
          | stop m'' hs => exact .same [] (.stop m'' hs)
          | met m'' => exact .met m'' _ List.nil_prefix

theorem launch (hle : low ≤ high) {start : Action (Option Value)} (hstart : Lasts start)
    (fuel : Nat) (m : Machine) :
    LogsOutlast low high ⟨launchLog fuel start (m.allowing low), launch fuel start (m.allowing low)⟩
      ⟨launchLog fuel start (m.allowing high),
        ObjectMachine.launch fuel start (m.allowing high)⟩ := by
  have hresult := hstart.launch fuel low high hle m
  have h := hstart low high hle m
  generalize hlow : start (m.allowing low) = r, hhigh : start (m.allowing high) = r' at h
  cases h with
  | stop m' hs =>
    simp only [launchLog, hlow, hhigh]
    exact .same [] hresult
  | met m' =>
    rw [launch_eq_error hlow]
    simp only [launchLog, hlow]
    exact .met _ _ List.nil_prefix
  | ok answer m' =>
    cases answer with
    | some v =>
      simp only [launchLog, hlow, hhigh]
      exact .same [] hresult
    | none =>
      rw [launch_eq_run hlow, launch_eq_run hhigh, ← runLogged_result, ← runLogged_result]
      simp only [launchLog, hlow, hhigh]
      exact (runLogged hle m.depth fuel m').unwindRaised m.depth

theorem operation (hle : low ≤ high) (op : Operation) (m : Machine) :
    LogsOutlast low high ⟨op.log (m.allowing low), op.run (m.allowing low)⟩
      ⟨op.log (m.allowing high), op.run (m.allowing high)⟩ := by
  have hresult := Lasts.operation op low high hle m
  cases op with
  | send fuel receiver selector args => exact launch hle (.startSend receiver selector args) fuel m
  | executeMethod fuel method receiver args =>
    simp only [Operation.log, Operation.run, executeMethod_eq_launch]
    exact launch hle (.startMethod method receiver args) fuel m
  | callBlock fuel block args =>
    simp only [Operation.log, Operation.run, callBlock_eq_launch]
    exact launch hle (.startBlock block args) fuel m
  | evaluate fuel draft =>
    have hbuild := Lasts.build draft low high hle m
    generalize hlow : draft.build (m.allowing low) = r, hhigh : draft.build (m.allowing high) = r'
      at hbuild
    cases hbuild with
    | stop m' hs =>
      simp only [Operation.log, hlow, hhigh]
      exact .same [] hresult
    | met m' =>
      rw [Operation.run, ObjectMachine.evaluate, bind_error hlow]
      simp only [Operation.log, hlow]
      exact .met _ _ List.nil_prefix
    | ok method m' =>
      rw [Operation.run, ObjectMachine.evaluate, bind_ok hlow, bind_ok hhigh,
        executeMethod_eq_launch]
      simp only [Operation.log, hlow, hhigh]
      exact launch hle (.startMethod method .nil #[]) fuel m'
  | _ => exact .same [] hresult

end LogsOutlast

def relimit {α : Type} (limit : Nat) :
    EStateM.Result Stop Machine α → EStateM.Result Stop Machine α
  | .ok a m => .ok a (m.allowing limit)
  | .error s m => .error s (m.allowing limit)

/-- An operation that does not meet its depth limit comes to the same under a higher one,
and leaves the same machine but for the limit. One that meets the higher limit also
meets the lower one, before it has carried out more instructions or any others. -/
theorem raising_the_limit_changes_no_answer (op : Operation) (m : Machine) {low high : Nat}
    (hle : low ≤ high) :
    ((∀ limit m', op.run (m.allowing low) ≠ .error (.raised (.depthExceeded limit)) m') →
      op.run (m.allowing high) = relimit high (op.run (m.allowing low)) ∧
        op.log (m.allowing high) = op.log (m.allowing low)) ∧
    (∀ limit m', op.run (m.allowing high) = .error (.raised (.depthExceeded limit)) m' →
      limit = high ∧
        ∃ m'', op.run (m.allowing low) = .error (.raised (.depthExceeded low)) m'') ∧
    op.log (m.allowing low) <+: op.log (m.allowing high) := by
  have hlogs := LogsOutlast.operation hle op m
  have hhigh := Lasts.operation op high high (Nat.le_refl _) m
  generalize op.run (m.allowing low) = r, op.run (m.allowing high) = r',
    op.log (m.allowing low) = log, op.log (m.allowing high) = log' at hlogs hhigh
  have hlimit : ∀ limit m', r' = .error (.raised (.depthExceeded limit)) m' → limit = high := by
    rintro limit m' rfl
    cases hhigh with
    | stop _ hs => cases hs
    | met => rfl
  cases hlogs with
  | met m' _ hlog =>
    exact ⟨fun hfree => absurd rfl (hfree low m'),
      fun limit m'' hdeep => ⟨hlimit limit m'' hdeep, m', rfl⟩, hlog⟩
  | same _ h =>
    refine ⟨fun hfree => ⟨?_, rfl⟩, fun limit m'' hdeep => ⟨hlimit limit m'' hdeep, ?_⟩,
      List.prefix_rfl⟩
    · cases h with
      | met m' => exact absurd rfl (hfree low m')
      | _ => rfl
    · subst hdeep
      cases h with
      | stop _ hs => cases hs
      | met m' => exact ⟨m', rfl⟩

/-- A countdown that ends under its limit ends alike under a higher one, and a recursion
that meets its limit meets a lower one earlier. -/
theorem countdown_outlasts_its_limit :
    (∃ m m' : Machine, m.maxDepth ≤ m.maxDepth + 1000 ∧
      Operation.countdown.run m = .ok (.integer (.ofByte 0)) m' ∧
      Operation.countdown.run (m.allowing (m.maxDepth + 1000)) =
        .ok (.integer (.ofByte 0)) (m'.allowing (m.maxDepth + 1000))) ∧
    ∃ m m' m'' : Machine, 2 ≤ 5 ∧
      Operation.recursion.run (m.allowing 5) = .error (.raised (.depthExceeded 5)) m' ∧
      Operation.recursion.run (m.allowing 2) = .error (.raised (.depthExceeded 2)) m'' ∧
      Operation.recursion.log (m.allowing 2) <+: Operation.recursion.log (m.allowing 5) := by
  have hself : ∀ m : Machine, m.allowing m.maxDepth = m := fun _ => rfl
  constructor
  · obtain ⟨m, -, m', -, -, hrun⟩ := countdown_ends
    have hle := Nat.le_add_right m.maxDepth 1000
    obtain ⟨hsame, -⟩ := raising_the_limit_changes_no_answer .countdown m hle
    rw [hself, hrun] at hsame
    refine ⟨m, m', hle, hrun, (hsame fun limit m'' hdeep => ?_).1⟩
    cases hdeep
  · obtain ⟨m, m', -, -, hmax, hrun⟩ := recursion_meets_limit
    rw [← hself m, hmax] at hrun
    have hle : 2 ≤ 5 := by decide
    obtain ⟨-, hmet, hlog⟩ := raising_the_limit_changes_no_answer .recursion m hle
    obtain ⟨-, m'', hrun'⟩ := hmet 5 m' hrun
    exact ⟨m, m', m'', hle, hrun, hrun', hlog⟩

end ObjectMachine

import ObjectMachine.Printing
import ObjectMachine.Proofs.ExecutionAgreement
import ObjectMachine.Proofs.HostOperations

/-!
# What can be observed of a run

A host sees what values print as and the names of their classes. An observer of
the machine itself also sees which instructions it carries out, each with its
context and its offset in the code. Corresponding machines show the same.
-/

namespace ObjectMachine

open ObjectMachine.Action

variable {w : World} {m₁ m₂ : Machine}

theorem Matches.mapM {α β γ : Type} {R : α → β → Prop} {f : α → Except Fault γ}
    {g : β → Except Fault γ} {l₁ : List α} {l₂ : List β} (h : List.Forall₂ R l₁ l₂)
    (hf : ∀ a b, R a b → Matches Eq (f a) (g b)) : Matches Eq (l₁.mapM f) (l₂.mapM g) := by
  induction h with
  | nil => exact .ok rfl
  | cons hr _ ih =>
    rw [List.mapM_cons, List.mapM_cons]
    apply (hf _ _ hr).bind
    rintro text _ rfl
    apply ih.bind
    rintro texts _ rfl
    exact .ok rfl

theorem Machine.Sim.printWithin (h : m₁.Sim w m₂) (levels : Nat) {v u : Value} (hv : w.Rel v u) :
    Matches Eq (m₁.printWithin levels v) (m₂.printWithin levels u) := by
  induction levels generalizing v u with
  | zero => exact .ok rfl
  | succ levels ih =>
    cases hv with
    | immediate hp =>
      cases v with
      | pointer i => exact absurd hp (by simp [Value.isPointer])
      | bool b => cases b <;> exact .ok rfl
      | _ => exact .ok rfl
    | @pointer i j hi =>
      have hclass : Matches Eq
          (do return withArticle (m₁.className (← m₁.classOf (.pointer i))))
          (do return withArticle (m₂.className (← m₂.classOf (.pointer j)))) := by
        apply (h.classOf (.pointer hi)).bind
        intro c₁ c₂ hc
        exact .ok (congrArg withArticle (h.className hc))
      obtain ⟨o₁, o₂, ho₁, ho₂, hrel⟩ := h.memory.objects hi
      have hbody₁ : m₁.memory.body? (.pointer i) = some o₁.body := congrArg _ ho₁
      have hbody₂ : m₂.memory.body? (.pointer j) = some o₂.body := congrArg _ ho₂
      have hb := hrel.body
      unfold Machine.printWithin
      dsimp only
      rw [hbody₁, hbody₂]
      generalize o₁.body = b₁, o₂.body = b₂ at hb
      cases hb with
      | string s => exact .ok rfl
      | symbol s => exact .ok rfl
      | bytes bs => exact .ok rfl
      | classInfo hc => exact .ok hc.name
      | array he =>
        apply (Matches.mapM he.forall₂ fun _ _ hv => ih hv).bind
        rintro texts _ rfl
        exact .ok rfl
      | method hc =>
        dsimp only
        rw [h.className hc.owner, h.symbolName? hc.selector]
        exact .ok rfl
      | slots _ | block _ | dictionary _ => exact hclass

/-- The same value prints alike. -/
theorem Machine.Sim.printString (h : m₁.Sim w m₂) {v u : Value} (hv : w.Rel v u) :
    Matches Eq (m₁.printString v) (m₂.printString u) := h.printWithin 9 hv

def Machine.classNameOf (m : Machine) (v : Value) : Except Fault String :=
  (m.classOf v).map m.className

/-- The same value has a class of the same name. -/
theorem Machine.Sim.classNameOf (h : m₁.Sim w m₂) {v u : Value} (hv : w.Rel v u) :
    Matches Eq (m₁.classNameOf v) (m₂.classNameOf u) := by
  apply (h.classOf hv).bind
  intro c₁ c₂ hc
  exact .ok (h.className hc)

structure Executed where
  context : ContextId
  offset : Nat
  instruction : Instruction

/-- The instruction that the next step carries out, if there is one. -/
def Machine.upcoming? (m : Machine) : Option Executed := do
  let id ← m.active
  let c ← m.memory.contexts[id]?
  let (code, _) ← (m.program c.method).toOption
  match code.fetch? c.pc with
  | some (.ok i) => some ⟨id, c.pc, i⟩
  | _ => none

theorem Machine.Sim.upcoming? (h : m₁.Sim w m₂) : m₁.upcoming? = m₂.upcoming? := by
  unfold Machine.upcoming?
  rw [← h.active]
  cases hid : m₁.active with
  | none => rfl
  | some id =>
    obtain ⟨c₁, c₂, hc₁, hc₂, hc⟩ := h.memory.contexts (h.shared id hid)
    have hprogram := h.program hc.method
    simp only [Option.bind_eq_bind, Option.bind_some, hc₁, hc₂, hc.pc]
    generalize m₁.program c₁.method = p₁, m₂.program c₂.method = p₂ at hprogram
    cases hprogram with
    | error _ => rfl
    | ok hp =>
      simp only [Except.toOption, Option.bind_some]
      rw [hp.1]

/-- What has been carried out and how it ended. -/
structure Logged where
  log : List Executed
  result : EStateM.Result Stop Machine Value

def Logged.after (first : Option Executed) (l : Logged) : Logged :=
  ⟨first.toList ++ l.log, l.result⟩

def runLogged (base : Nat) : Nat → Machine → Logged
  | 0, m => ⟨[], .error .exhausted m⟩
  | fuel + 1, m =>
    .after m.upcoming? <|
      match step m with
      | .error e m => ⟨[], .error e m⟩
      | .ok none m => runLogged base fuel m
      | .ok (some v) m =>
        if m.depth ≤ base then ⟨[], .ok v m⟩
        else
          match push v m with
          | .error e m => ⟨[], .error e m⟩
          | .ok _ m => runLogged base fuel m

/-- The log changes nothing about the run. -/
theorem runLogged_result (base fuel : Nat) (m : Machine) :
    (runLogged base fuel m).result = run base fuel m := by
  induction fuel generalizing m with
  | zero => rfl
  | succ fuel ih =>
    unfold runLogged run Logged.after
    simp only [bind, EStateM.bind]
    cases step m with
    | error e m' => rfl
    | ok r m' =>
      cases r with
      | none => exact ih m'
      | some v =>
        change _ = (if m'.depth ≤ base then pure v else push v >>= fun _ => run base fuel :
          Action Value) m'
        dsimp only
        split_ifs
        · rfl
        · simp only [bind, EStateM.bind]
          cases push v m' with
          | error e m'' => rfl
          | ok _ m'' => exact ih m''

/-- Stopped because a collection could not grow the memory. -/
def OutOfCapacity {α : Type} : EStateM.Result Stop Machine α → Prop
  | .error e m => e = .fault .multiplicationOverflow ∧ m.memory.CapacityOverflow
  | .ok _ _ => False

instance {α : Type} : DecidablePred (OutOfCapacity (α := α))
  | .error e m => inferInstanceAs (Decidable (e = .fault .multiplicationOverflow ∧
      capacityLimit ≤ m.memory.capacity * m.memory.settings.growthFactor))
  | .ok _ _ => inferInstanceAs (Decidable False)

section

variable {α β : Type} {x : Action α} {f : α → Action β} {m : Machine}

theorem OutOfCapacity.eq_error {r : EStateM.Result Stop Machine α} (h : OutOfCapacity r) :
    ∃ m, r = .error (.fault .multiplicationOverflow) m ∧ m.memory.CapacityOverflow := by
  cases r with
  | ok a m => exact h.elim
  | error e m =>
    obtain ⟨rfl, hfull⟩ := h
    exact ⟨m, rfl, hfull⟩

theorem OutOfCapacity.bind (h : OutOfCapacity (x m)) : OutOfCapacity ((x >>= f) m) := by
  obtain ⟨m', hx, hfull⟩ := h.eq_error
  simp only [Bind.bind, EStateM.bind, hx]
  exact ⟨rfl, hfull⟩

theorem OutOfCapacity.of_bind {a : α} {m' : Machine} (hx : x m = .ok a m')
    (h : OutOfCapacity (f a m')) : OutOfCapacity ((x >>= f) m) := by
  simp only [Bind.bind, EStateM.bind, hx]
  exact h

theorem OutOfCapacity.protect (h : OutOfCapacity (x m)) :
    OutOfCapacity (ObjectMachine.protect x m) := by
  obtain ⟨m', hx, hfull⟩ := h.eq_error
  simp only [ObjectMachine.protect, hx]
  exact ⟨rfl, hfull⟩

end

/-- The same has been carried out, unless one side has run out of capacity. -/
def LogsAgree (l₁ l₂ : Logged) : Prop :=
  OutOfCapacity l₁.result ∨ OutOfCapacity l₂.result ∨ l₁.log = l₂.log

/-- Corresponding machines carry out the same instructions. -/
theorem runLogged_agree (base fuel : Nat) (h : m₁.Sim w m₂) :
    LogsAgree (runLogged base fuel m₁) (runLogged base fuel m₂) := by
  induction fuel generalizing w m₁ m₂ with
  | zero => exact .inr (.inr rfl)
  | succ fuel ih =>
    have hafter : ∀ {l₁ l₂ : Logged}, LogsAgree l₁ l₂ →
        LogsAgree (l₁.after m₁.upcoming?) (l₂.after m₂.upcoming?) := by
      rintro l₁ l₂ (hfull | hfull | hlog)
      · exact .inl hfull
      · exact .inr (.inl hfull)
      · exact .inr (.inr (congrArg₂ (fun first log => first.toList ++ log) h.upcoming? hlog))
    unfold runLogged
    apply hafter
    have hstep := step_agrees m₁ m₂ h
    generalize step m₁ = r₁, step m₂ = r₂ at hstep
    cases hstep with
    | stop => exact .inr (.inr rfl)
    | left hfull => exact .inl ⟨rfl, hfull⟩
    | right hfull => exact .inr (.inl ⟨rfl, hfull⟩)
    | @ok w' a b m₁' m₂' hsim hanswer =>
      cases hanswer with
      | none => exact ih hsim
      | @some v u hv =>
        have hpush := push_agrees hv m₁' m₂' hsim
        dsimp only
        rw [hsim.depth]
        split_ifs
        · exact .inr (.inr rfl)
        · generalize push v m₁' = r₁, push u m₂' = r₂ at hpush
          cases hpush with
          | stop => exact .inr (.inr rfl)
          | left hfull => exact .inl ⟨rfl, hfull⟩
          | right hfull => exact .inr (.inl ⟨rfl, hfull⟩)
          | ok hsim _ => exact ih hsim

/-- Start a program and run it to its answer, unless the start gives one. -/
def launch (fuel : Nat) (start : Action (Option Value)) : Action Value :=
  protect do
    let base := (← get).depth
    match ← start with
    | some v => return v
    | none => run base fuel

def launchLog (fuel : Nat) (start : Action (Option Value)) (m : Machine) : List Executed :=
  match start m with
  | .ok none m' => (runLogged m.depth fuel m').log
  | _ => []

def startMethod (method receiver : Value) (args : Array Value) : Action (Option Value) := do
  enterMethod method receiver args
  return none

def startBlock (block : Value) (args : Array Value) : Action (Option Value) := do
  enterBlock block args
  return none

theorem send_eq_launch (fuel : Nat) (receiver : Value) (selector : String) (args : Array Value) :
    send fuel receiver selector args = launch fuel (startSend receiver selector args) := rfl

theorem executeMethod_eq_launch (fuel : Nat) (method receiver : Value) (args : Array Value) :
    executeMethod fuel method receiver args = launch fuel (startMethod method receiver args) := by
  simp only [executeMethod, launch, startMethod, bind_assoc, pure_bind]

theorem callBlock_eq_launch (fuel : Nat) (block : Value) (args : Array Value) :
    callBlock fuel block args = launch fuel (startBlock block args) := by
  simp only [callBlock, launch, startBlock, bind_assoc, pure_bind]

theorem launch_agrees (fuel : Nat) {start₁ start₂ : Action (Option Value)}
    (hstart : Agrees w AnswerRel start₁ start₂) :
    Agrees w World.Rel (launch fuel start₁) (launch fuel start₂) := by
  apply protect_agrees
  apply Agrees.read
  intro m₁ m₂ h
  rw [h.depth]
  apply hstart.bind
  intro w' r₁ r₂ hr
  cases hr with
  | some hv => exact .pure hv
  | none => exact run_agrees _ fuel

/-- Programs started alike carry out the same instructions. -/
theorem launch_logs_agree (fuel : Nat) {start₁ start₂ : Action (Option Value)}
    (hstart : Agrees w AnswerRel start₁ start₂) (h : m₁.Sim w m₂) :
    LogsAgree ⟨launchLog fuel start₁ m₁, launch fuel start₁ m₁⟩
      ⟨launchLog fuel start₂ m₂, launch fuel start₂ m₂⟩ := by
  have hresult := hstart m₁ m₂ h
  have hrun : ∀ {start : Action (Option Value)} {m m' : Machine}, start m = .ok none m' →
      OutOfCapacity (runLogged m.depth fuel m').result → OutOfCapacity (launch fuel start m) := by
    intro start m m' hr hfull
    rw [runLogged_result] at hfull
    exact OutOfCapacity.protect (.of_bind rfl (.of_bind hr hfull))
  unfold launchLog
  generalize hr₁ : start₁ m₁ = r₁, hr₂ : start₂ m₂ = r₂ at hresult
  cases hresult with
  | stop => exact .inr (.inr rfl)
  | left hfull =>
    left
    apply OutOfCapacity.protect
    apply OutOfCapacity.of_bind rfl
    apply OutOfCapacity.bind
    rw [hr₁]
    exact ⟨rfl, hfull⟩
  | right hfull =>
    right
    left
    apply OutOfCapacity.protect
    apply OutOfCapacity.of_bind rfl
    apply OutOfCapacity.bind
    rw [hr₂]
    exact ⟨rfl, hfull⟩
  | @ok w' a b m₁' m₂' hsim hanswer =>
    cases hanswer with
    | some _ => exact .inr (.inr rfl)
    | none =>
      rcases runLogged_agree m₁.depth fuel hsim with hfull | hfull | hlog
      · exact .inl (hrun hr₁ hfull)
      · rw [h.depth] at hfull
        exact .inr (.inl (hrun hr₂ hfull))
      · rw [← h.depth]
        exact .inr (.inr hlog)

def Operation.log : Operation → Machine → List Executed
  | send fuel receiver selector args, m => launchLog fuel (startSend receiver selector args) m
  | executeMethod fuel method receiver args, m =>
    launchLog fuel (startMethod method receiver args) m
  | callBlock fuel block args, m => launchLog fuel (startBlock block args) m
  | evaluate fuel draft, m =>
    match draft.build m with
    | .ok method m' => launchLog fuel (startMethod method .nil #[]) m'
    | .error _ _ => []
  | _, _ => []

end ObjectMachine

import ObjectMachine.Proofs.BootAgreement
import ObjectMachine.Proofs.Observations

/-!
# Collections cannot be seen

A host that keeps what it needs on the scratch stack names values in a way that
no collection disturbs: an immediate, a global, or a place on that stack. Two
machines, with whatever memory and with whatever collections in between, answer
the same script of such a host alike.
-/

namespace ObjectMachine

variable {w : World} {m₁ m₂ : Machine}

/-- A value that a host may pass at any time. -/
inductive HostValue where
  | immediate (v : Value) (h : v.isPointer = false)
  | global (name : String)
  /-- A value that the host keeps, by its place on the scratch stack. -/
  | kept (place : Nat)

/-- The value in this machine; nil if there is none. -/
def HostValue.resolve (m : Machine) : HostValue → Value
  | immediate v _ => v
  | global name => (m.globals.get? name).getD .nil
  | kept place => m.scratch[place]?.getD .nil

inductive HostLiteral where
  | value (v : HostValue)
  | symbol (name : String)
  | string (s : String)

def HostLiteral.resolve (m : Machine) : HostLiteral → Literal
  | value v => .value (v.resolve m)
  | symbol name => .symbol name
  | string s => .string s

/-- A method to be built. The code may depend on the places that its literals
turn out to have. -/
structure HostDraft where
  owner : HostValue
  selector : String
  literals : List HostLiteral
  temporaries : List String
  primitive : Option Nat
  assemble : List UInt32 → Assembly

def Draft.addLiterals (d : Draft) : List Literal → List UInt32 × Draft
  | [] => ([], d)
  | literal :: rest =>
    let (place, d) := d.addLiteral literal
    let (places, d) := d.addLiterals rest
    (place :: places, d)

def HostDraft.resolve (m : Machine) (b : HostDraft) : Draft :=
  let (places, d) := (Draft.new (b.owner.resolve m) b.selector).addLiterals
    (b.literals.map fun literal => literal.resolve m)
  { d with temporaries := b.temporaries, primitive := b.primitive, assembly := b.assemble places }

inductive Request where
  | newClass (name : String) (superclass : HostValue) (ownVariables : List String)
  | install (draft : HostDraft)
  | intern (name : String)
  | newString (s : String)
  | newArray (elements : Array HostValue)
  | newByteArray (bytes : Array UInt8)
  | newInstance (classRef : HostValue) (size : Nat)
  | setGlobal (name : String) (v : HostValue)
  /-- The host keeps these values and no others. -/
  | keepOnly (values : Array HostValue)
  | send (fuel : Nat) (receiver : HostValue) (selector : String) (args : Array HostValue)
  | evaluate (fuel : Nat) (draft : HostDraft)
  | executeMethod (fuel : Nat) (method receiver : HostValue) (args : Array HostValue)
  | callBlock (fuel : Nat) (block : HostValue) (args : Array HostValue)

def Request.resolve (m : Machine) : Request → Operation
  | newClass name superclass ownVariables => .newClass name (superclass.resolve m) ownVariables
  | install draft => .install (draft.resolve m)
  | intern name => .intern name
  | newString s => .newString s
  | newArray elements => .newArray (elements.map fun v => v.resolve m)
  | newByteArray bytes => .newByteArray bytes
  | newInstance classRef size => .newInstance (classRef.resolve m) size
  | setGlobal name v => .setGlobal name (v.resolve m)
  | keepOnly values => .setScratch (values.map fun v => v.resolve m)
  | send fuel receiver selector args =>
    .send fuel (receiver.resolve m) selector (args.map fun v => v.resolve m)
  | evaluate fuel draft => .evaluate fuel (draft.resolve m)
  | executeMethod fuel method receiver args =>
    .executeMethod fuel (method.resolve m) (receiver.resolve m) (args.map fun v => v.resolve m)
  | callBlock fuel block args => .callBlock fuel (block.resolve m) (args.map fun v => v.resolve m)

inductive Command where
  /-- Ask for something and perhaps keep the answer on the scratch stack. -/
  | ask (request : Request) (keep : Bool)
  | collect

def Command.isAsk : Command → Bool
  | ask _ _ => true
  | collect => false

def Request.turn (request : Request) (m : Machine) : Logged :=
  ⟨(request.resolve m).log m, (request.resolve m).run m⟩

/-- The machine in which the script goes on. Only an answer or a runtime error
lets it. -/
def next? (keep : Bool) : EStateM.Result Stop Machine Value → Option Machine
  | .ok v m => some (if keep then { m with scratch := m.scratch.push v } else m)
  | .error (.raised _) m => some m
  | .error _ _ => none

/-- Carry out a script and give the turn of every request. There is none when
the memory cannot grow. -/
def play : Machine → List Command → Option (List Logged)
  | _, [] => some []
  | m, .collect :: rest =>
    match collectGarbage m with
    | .ok _ m' => play m' rest
    | .error e m' =>
      if OutOfCapacity (collectGarbage m) then none else some [⟨[], .error e m'⟩]
  | m, .ask request keep :: rest =>
    let turn := request.turn m
    match next? keep turn.result with
    | some m' => (play m' rest).map (turn :: ·)
    | none => if OutOfCapacity turn.result then none else some [turn]

theorem HostValue.resolve_rel (h : m₁.Sim w m₂) (v : HostValue) :
    w.Rel (v.resolve m₁) (v.resolve m₂) := by
  cases v with
  | immediate v hv => exact .immediate hv
  | global name => exact getD_rel (h.globals.get? name)
  | kept place => exact getD_rel (h.scratch.getElem? place)

theorem HostValue.map_resolve_rel (h : m₁.Sim w m₂) (vs : Array HostValue) :
    Pointwise w.Rel (vs.map fun v => v.resolve m₁) (vs.map fun v => v.resolve m₂) := by
  have hrefl : Pointwise Eq vs vs :=
    ⟨rfl, fun _ _ _ hv hu => Option.some.inj (hv.symm.trans hu)⟩
  apply hrefl.map
  rintro v _ _ _ rfl
  exact v.resolve_rel h

theorem HostLiteral.resolve_rel (h : m₁.Sim w m₂) (l : HostLiteral) :
    (l.resolve m₁).Rel w (l.resolve m₂) := by
  cases l with
  | value v => exact .value (v.resolve_rel h)
  | symbol name => exact .symbol name
  | string s => exact .string s

theorem Draft.Rel.addLiterals (hw : w.OneToOne) {ls₁ ls₂ : List Literal}
    (hls : List.Forall₂ (Literal.Rel w) ls₁ ls₂) {d₁ d₂ : Draft} (h : d₁.Rel w d₂) :
    (d₁.addLiterals ls₁).1 = (d₂.addLiterals ls₂).1 ∧
      (d₁.addLiterals ls₁).2.Rel w (d₂.addLiterals ls₂).2 := by
  induction hls generalizing d₁ d₂ with
  | nil => exact ⟨rfl, h⟩
  | cons hl _ ih =>
    obtain ⟨hplace, hfirst⟩ := h.addLiteral hw hl
    obtain ⟨hplaces, hrest⟩ := ih hfirst
    exact ⟨congrArg₂ List.cons hplace hplaces, hrest⟩

theorem HostDraft.resolve_rel (h : m₁.Sim w m₂) (b : HostDraft) :
    (b.resolve m₁).Rel w (b.resolve m₂) := by
  have hnew : Draft.Rel w (.new (b.owner.resolve m₁) b.selector)
      (.new (b.owner.resolve m₂) b.selector) :=
    ⟨b.owner.resolve_rel h, rfl, .empty, rfl, rfl, rfl⟩
  have hliterals : List.Forall₂ (Literal.Rel w) (b.literals.map fun l => l.resolve m₁)
      (b.literals.map fun l => l.resolve m₂) := by
    rw [List.forall₂_map_left_iff, List.forall₂_map_right_iff, List.forall₂_same]
    exact fun l _ => l.resolve_rel h
  obtain ⟨hplaces, hadded⟩ := hnew.addLiterals h.memory.oneToOne hliterals
  exact { hadded with
    temporaries := rfl
    primitive := rfl
    assembly := congrArg b.assemble hplaces }

theorem startMethod_agrees {method₁ method₂ receiver₁ receiver₂ : Value}
    {args₁ args₂ : Array Value} (hmethod : w.Rel method₁ method₂)
    (hreceiver : w.Rel receiver₁ receiver₂) (hargs : Pointwise w.Rel args₁ args₂) :
    Agrees w AnswerRel (startMethod method₁ receiver₁ args₁)
      (startMethod method₂ receiver₂ args₂) := by
  apply (enterMethod_agrees hmethod hreceiver hargs).bind
  exact fun _ _ _ _ => .pure .none

theorem startBlock_agrees {block₁ block₂ : Value} {args₁ args₂ : Array Value}
    (hblock : w.Rel block₁ block₂) (hargs : Pointwise w.Rel args₁ args₂) :
    Agrees w AnswerRel (startBlock block₁ args₁) (startBlock block₂ args₂) := by
  apply (enterBlock_agrees hblock hargs).bind
  exact fun _ _ _ _ => .pure .none

/-- A request gives the same answer in corresponding machines. -/
theorem Request.agrees (h : m₁.Sim w m₂) (request : Request) :
    Agrees w World.Rel (request.resolve m₁).run (request.resolve m₂).run := by
  have hvalue := HostValue.resolve_rel h
  have hvalues := HostValue.map_resolve_rel h
  cases request with
  | newClass name superclass ownVariables =>
    exact newClass_agrees name (hvalue superclass) ownVariables
  | install draft => exact Draft.install_agrees (draft.resolve_rel h)
  | intern name => exact intern_agrees name
  | newString s => exact newString_agrees s
  | newArray elements => exact newArray_agrees (hvalues elements)
  | newByteArray bytes => exact newByteArray_agrees bytes
  | newInstance classRef size => exact newInstance_agrees (hvalue classRef) size
  | setGlobal name v =>
    apply (setGlobal_agrees name (hvalue v)).bind_still
    exact fun _ _ _ => .pure World.rel_nil
  | keepOnly values =>
    apply Agrees.bind_still
    · exact .change fun _ _ h => { h with scratch := hvalues values }
    · exact fun _ _ _ => .pure World.rel_nil
  | send fuel receiver selector args =>
    simp only [Request.resolve, Operation.run, send_eq_launch]
    exact launch_agrees fuel (startSend_agrees (hvalue receiver) selector (hvalues args))
  | evaluate fuel draft =>
    apply (Draft.build_agrees (draft.resolve_rel h)).bind
    intro w' method₁ method₂ hmethod
    rw [executeMethod_eq_launch, executeMethod_eq_launch]
    exact launch_agrees fuel (startMethod_agrees hmethod World.rel_nil .empty)
  | executeMethod fuel method receiver args =>
    simp only [Request.resolve, Operation.run, executeMethod_eq_launch]
    exact launch_agrees fuel
      (startMethod_agrees (hvalue method) (hvalue receiver) (hvalues args))
  | callBlock fuel block args =>
    simp only [Request.resolve, Operation.run, callBlock_eq_launch]
    exact launch_agrees fuel (startBlock_agrees (hvalue block) (hvalues args))

/-- A request carries out the same instructions in corresponding machines. -/
theorem Request.logs_agree (h : m₁.Sim w m₂) (request : Request) :
    LogsAgree (request.turn m₁) (request.turn m₂) := by
  have hvalue := HostValue.resolve_rel h
  have hvalues := HostValue.map_resolve_rel h
  cases request with
  | send fuel receiver selector args =>
    simp only [Request.turn, Request.resolve, Operation.run, send_eq_launch]
    exact launch_logs_agree fuel (startSend_agrees (hvalue receiver) selector (hvalues args)) h
  | executeMethod fuel method receiver args =>
    simp only [Request.turn, Request.resolve, Operation.run, executeMethod_eq_launch]
    exact launch_logs_agree fuel
      (startMethod_agrees (hvalue method) (hvalue receiver) (hvalues args)) h
  | callBlock fuel block args =>
    simp only [Request.turn, Request.resolve, Operation.run, callBlock_eq_launch]
    exact launch_logs_agree fuel (startBlock_agrees (hvalue block) (hvalues args)) h
  | evaluate fuel draft =>
    have hbuild := Draft.build_agrees (draft.resolve_rel h) m₁ m₂ h
    simp only [Request.turn, Request.resolve, Operation.run, Operation.log,
      ObjectMachine.evaluate, executeMethod_eq_launch]
    generalize hr₁ : (draft.resolve m₁).build m₁ = r₁, hr₂ : (draft.resolve m₂).build m₂ = r₂
      at hbuild
    cases hbuild with
    | stop => exact .inr (.inr rfl)
    | left hfull => exact .inl (.bind (by rw [hr₁]; exact ⟨rfl, hfull⟩))
    | right hfull => exact .inr (.inl (.bind (by rw [hr₂]; exact ⟨rfl, hfull⟩)))
    | ok hsim hmethod =>
      rcases launch_logs_agree fuel (startMethod_agrees hmethod World.rel_nil .empty) hsim with
        hfull | hfull | hlog
      · exact .inl (.of_bind hr₁ hfull)
      · exact .inr (.inl (.of_bind hr₂ hfull))
      · exact .inr (.inr hlog)
  | _ => exact .inr (.inr rfl)

/-- Results that a host cannot tell apart: answers are the same value up to
places, print alike and have classes of one name; stops have the same cause up
to places. -/
inductive Corresponds : EStateM.Result Stop Machine Value → EStateM.Result Stop Machine Value → Prop
  | answer {w : World} {v u : Value} {m₁ m₂ : Machine} : m₁.Sim w m₂ → w.Rel v u →
      Matches Eq (m₁.printString v) (m₂.printString u) →
      Matches Eq (m₁.classNameOf v) (m₂.classNameOf u) →
      Corresponds (.ok v m₁) (.ok u m₂)
  | stop {e₁ e₂ : Stop} {m₁ m₂ : Machine} : e₁.erase = e₂.erase →
      Corresponds (.error e₁ m₁) (.error e₂ m₂)

structure Logged.Corresponds (l₁ l₂ : Logged) : Prop where
  log : l₁.log = l₂.log
  result : ObjectMachine.Corresponds l₁.result l₂.result

/-- The same requests with collections anywhere in between. -/
inductive Interleaved : List Command → List Command → Prop
  | nil : Interleaved [] []
  | left {s₁ s₂ : List Command} : Interleaved s₁ s₂ → Interleaved (.collect :: s₁) s₂
  | right {s₁ s₂ : List Command} : Interleaved s₁ s₂ → Interleaved s₁ (.collect :: s₂)
  | ask {s₁ s₂ : List Command} (request : Request) (keep : Bool) : Interleaved s₁ s₂ →
      Interleaved (.ask request keep :: s₁) (.ask request keep :: s₂)

theorem interleaved_of_filter {s₁ s₂ : List Command}
    (h : s₁.filter Command.isAsk = s₂.filter Command.isAsk) : Interleaved s₁ s₂ := by
  induction s₁ generalizing s₂ with
  | nil =>
    induction s₂ with
    | nil => exact .nil
    | cons c s₂ ih =>
      cases c with
      | collect => exact .right (ih h)
      | ask request keep => exact absurd h (by simp [Command.isAsk])
  | cons c s₁ ih₁ =>
    cases c with
    | collect => exact .left (ih₁ h)
    | ask request keep =>
      induction s₂ with
      | nil => exact absurd h (by simp [Command.isAsk])
      | cons d s₂ ih₂ =>
        cases d with
        | collect => exact .right (ih₂ h)
        | ask request' keep' =>
          simp only [List.filter_cons, Command.isAsk, if_true, List.cons.injEq,
            Command.ask.injEq] at h
          obtain ⟨⟨rfl, rfl⟩, h⟩ := h
          exact .ask request keep (ih₁ h)

/-- A script that starts with a collection goes on where things have moved to. -/
theorem play_collect {m : Machine} {script : List Command} {turns : List Logged}
    (hrange : ∀ r, m.memory.Reaches m.roots r → m.memory.InRange r)
    (hepochs : m.memory.EpochsPast) (hplay : play m (.collect :: script) = some turns) :
    ∃ kept f m', Moved kept f m m' ∧ play m' script = some turns := by
  rcases collectGarbage_moves hrange hepochs with ⟨herr, hfull⟩ | ⟨kept, f, m', hmoved, hok⟩
  · simp only [play, herr] at hplay
    rw [if_pos ⟨rfl, hfull⟩] at hplay
    exact absurd hplay (by simp)
  · simp only [play, hok] at hplay
    exact ⟨kept, f, m', hmoved, hplay⟩

/-- Turns in corresponding machines correspond, and so do the machines in which
the script goes on. -/
theorem Request.turns_correspond (h : m₁.Sim w m₂) (request : Request) (keep : Bool)
    (hfits₁ : ¬OutOfCapacity (request.turn m₁).result)
    (hfits₂ : ¬OutOfCapacity (request.turn m₂).result) :
    (request.turn m₁).Corresponds (request.turn m₂) ∧
      Option.Rel (fun m₁ m₂ => ∃ w, Machine.Sim w m₁ m₂)
        (next? keep (request.turn m₁).result) (next? keep (request.turn m₂).result) := by
  have hlog : (request.turn m₁).log = (request.turn m₂).log := by
    rcases request.logs_agree h with hfull | hfull | hlog
    · exact absurd hfull hfits₁
    · exact absurd hfull hfits₂
    · exact hlog
  have hagree : Agree World.Rel (request.turn m₁).result (request.turn m₂).result :=
    request.agrees h m₁ m₂ h
  suffices hresult : ObjectMachine.Corresponds (request.turn m₁).result (request.turn m₂).result ∧
      Option.Rel (fun m₁ m₂ => ∃ w, Machine.Sim w m₁ m₂)
        (next? keep (request.turn m₁).result) (next? keep (request.turn m₂).result) from
    ⟨⟨hlog, hresult.1⟩, hresult.2⟩
  generalize (request.turn m₁).result = r₁, (request.turn m₂).result = r₂
    at hagree hfits₁ hfits₂
  cases hagree with
  | left hfull => exact absurd ⟨rfl, hfull⟩ hfits₁
  | right hfull => exact absurd ⟨rfl, hfull⟩ hfits₂
  | ok hsim hv =>
    constructor
    · exact .answer hsim hv (hsim.printString hv) (hsim.classNameOf hv)
    · apply Option.Rel.some
      cases keep with
      | true => exact ⟨_, { hsim with scratch := hsim.scratch.push hv }⟩
      | false => exact ⟨_, hsim⟩
  | @stop w' e₁ e₂ m₁' m₂' hsim he =>
    constructor
    · exact .stop he
    · cases e₁ <;> cases e₂ <;> simp only [Stop.erase, reduceCtorEq] at he
      · exact .some ⟨_, hsim⟩
      · exact .none
      · exact .none

theorem not_outOfCapacity_of_play {m : Machine} {request : Request} {keep : Bool}
    {script : List Command} {turns : List Logged}
    (hplay : play m (.ask request keep :: script) = some turns) :
    ¬OutOfCapacity (request.turn m).result := by
  intro hfull
  obtain ⟨m', hr, hlimit⟩ := hfull.eq_error
  simp only [play, hr, next?] at hplay
  rw [if_pos ⟨rfl, hlimit⟩] at hplay
  exact absurd hplay (by simp)

/-- Machines that correspond answer interleaved scripts alike. -/
theorem play_corresponds {script₁ script₂ : List Command} (hscripts : Interleaved script₁ script₂)
    (h : m₁.Sim w m₂) {turns₁ turns₂ : List Logged} (hplay₁ : play m₁ script₁ = some turns₁)
    (hplay₂ : play m₂ script₂ = some turns₂) :
    List.Forall₂ Logged.Corresponds turns₁ turns₂ := by
  induction hscripts generalizing w m₁ m₂ turns₁ turns₂ with
  | nil =>
    obtain rfl := Option.some.inj hplay₁
    obtain rfl := Option.some.inj hplay₂
    exact .nil
  | left _ ih =>
    obtain ⟨kept, f, m₁', hmoved, hrest⟩ :=
      play_collect (h.memory.inRange_left h.roots) h.memory.left hplay₁
    exact ih (h.displace hmoved (.still h.memory.right)) hrest hplay₂
  | right _ ih =>
    obtain ⟨kept, f, m₂', hmoved, hrest⟩ :=
      play_collect (h.memory.inRange_right h.roots) h.memory.right hplay₂
    exact ih (h.displace (.still h.memory.left) hmoved) hplay₁ hrest
  | ask request keep _ ih =>
    have hfits₁ := not_outOfCapacity_of_play hplay₁
    have hfits₂ := not_outOfCapacity_of_play hplay₂
    obtain ⟨hturns, hnext⟩ := request.turns_correspond h keep hfits₁ hfits₂
    unfold play at hplay₁ hplay₂
    dsimp only at hplay₁ hplay₂
    rw [if_neg hfits₁] at hplay₁
    rw [if_neg hfits₂] at hplay₂
    generalize next? keep (request.turn m₁).result = n₁,
      next? keep (request.turn m₂).result = n₂ at hnext hplay₁ hplay₂
    cases hnext with
    | none =>
      obtain rfl := Option.some.inj hplay₁
      obtain rfl := Option.some.inj hplay₂
      exact .cons hturns .nil
    | some hsim =>
      obtain ⟨w', hsim⟩ := hsim
      obtain ⟨rest₁, hrest₁, rfl⟩ := Option.map_eq_some_iff.mp hplay₁
      obtain ⟨rest₂, hrest₂, rfl⟩ := Option.map_eq_some_iff.mp hplay₂
      exact .cons hturns (ih hsim hrest₁ hrest₂)

/-- Collections are invisible. Two fresh machines of one depth limit but with any
memory settings carry out scripts that make the same requests, with collections
wherever each likes. Unless a memory cannot grow, every request carries out the
same instructions in both and ends alike. -/
theorem collections_are_invisible {settings₁ settings₂ : Settings} {maxDepth : Nat}
    {m₁ m₂ : Machine} (hboot₁ : bootstrap settings₁ maxDepth = .ok m₁)
    (hboot₂ : bootstrap settings₂ maxDepth = .ok m₂) {script₁ script₂ : List Command}
    (hscripts : script₁.filter Command.isAsk = script₂.filter Command.isAsk)
    {turns₁ turns₂ : List Logged} (hplay₁ : play m₁ script₁ = some turns₁)
    (hplay₂ : play m₂ script₂ = some turns₂) :
    List.Forall₂ Logged.Corresponds turns₁ turns₂ := by
  obtain ⟨w, hsim⟩ := bootstrap_sim hboot₁ hboot₂
  exact play_corresponds (interleaved_of_filter hscripts) hsim hplay₁ hplay₂

/-- Joins a kept string to itself. -/
def HostDraft.doubling : HostDraft where
  owner := .global "Object"
  selector := "double"
  literals := [.value (.kept 0), .symbol ",", .value (.kept 0)]
  temporaries := []
  primitive := none
  assemble places :=
    let place (k : Nat) : UInt32 := places.getD k 0
    (((Assembly.empty.emit (.pushLiteral (place 0))).emit (.pushLiteral (place 2))).emit
      (.send (place 1) 1)).emit .returnTop

/-- A string, its double, the size of that, and a message not understood. -/
def Request.errands : List Command :=
  [.ask (.newString "ab") true, .ask (.evaluate 10 .doubling) true,
    .ask (.send 10 (.kept 1) "size" #[]) false, .ask (.send 10 (.kept 1) "reversed" #[]) false]

/-- A tight machine that also collects after the first request and a roomy one
that never does run these errands alike, four instructions and an error included. -/
theorem errands_collections_are_invisible : ∃ m₁ m₂ turns₁ turns₂,
    bootstrap .tight 10 = .ok m₁ ∧ bootstrap .standard 10 = .ok m₂ ∧
    play m₁ (Request.errands.insertIdx 1 .collect) = some turns₁ ∧
    play m₂ Request.errands = some turns₂ ∧
    turns₁.map (fun turn => turn.log.length) = [0, 4, 0, 0] ∧
    m₂.memory.collections < m₁.memory.collections ∧
    List.Forall₂ Logged.Corresponds turns₁ turns₂ := by
  have hrun : ((bootstrap .tight 10).toOption.any fun m₁ =>
      (bootstrap .standard 10).toOption.any fun m₂ =>
      (play m₁ (Request.errands.insertIdx 1 .collect)).any fun turns₁ =>
      (play m₂ Request.errands).any fun _ =>
        turns₁.map (fun turn => turn.log.length) = [0, 4, 0, 0] ∧
          m₂.memory.collections < m₁.memory.collections) = true := by decide +kernel
  have hscripts : (Request.errands.insertIdx 1 .collect).filter Command.isAsk =
      Request.errands.filter Command.isAsk := rfl
  have hok : ∀ {settings m}, (bootstrap settings 10).toOption = some m →
      bootstrap settings 10 = .ok m := by
    intro settings m h
    cases hboot : bootstrap settings 10 with
    | ok m' =>
      rw [hboot] at h
      exact congrArg _ (Option.some.inj h)
    | error e =>
      rw [hboot] at h
      exact absurd h (by simp [Except.toOption])
  simp only [Option.any_eq_true, decide_eq_true_eq] at hrun
  obtain ⟨m₁, hboot₁, m₂, hboot₂, turns₁, hplay₁, turns₂, hplay₂, hlogs, hcollected⟩ := hrun
  exact ⟨m₁, m₂, turns₁, turns₂, hok hboot₁, hok hboot₂, hplay₁, hplay₂, hlogs, hcollected,
    collections_are_invisible (hok hboot₁) (hok hboot₂) hscripts hplay₁ hplay₂⟩

end ObjectMachine

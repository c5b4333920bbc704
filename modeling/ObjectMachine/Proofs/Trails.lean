import ObjectMachine.Proofs.Effects
import ObjectMachine.Proofs.IndexedConstruction
import ObjectMachine.Proofs.Unwinding

/-!
# Trails

Whatever a machine does is a row of small changes: the acts of running code, and
the other changes that a host can bring about. Only collections move objects, and
a trail follows the objects through them. Every operation leaves a trail, whatever
values it is given and however it ends, so an invariant needs one case for each
kind of change.
-/

namespace ObjectMachine

open ObjectMachine.Action

/-- Where the objects of a machine have gone: those that are left, and their places. -/
@[ext]
structure Displacement where
  survives : Nat → Prop
  place : Nat → Nat

namespace Displacement

def still : Displacement := ⟨fun _ => True, id⟩

def andThen (d e : Displacement) : Displacement :=
  ⟨fun i => d.survives i ∧ e.survives (d.place i), e.place ∘ d.place⟩

theorem still_andThen (d : Displacement) : still.andThen d = d := by
  ext i
  · exact iff_of_eq (true_and _)
  · rfl

theorem andThen_still (d : Displacement) : d.andThen still = d := by
  ext i
  · exact iff_of_eq (and_true _)
  · rfl

theorem andThen_assoc (d e f : Displacement) :
    (d.andThen e).andThen f = d.andThen (e.andThen f) := by
  ext i
  · exact and_assoc
  · rfl

theorem rename_andThen (d e : Displacement) :
    Value.rename (d.andThen e).place = Value.rename e.place ∘ Value.rename d.place :=
  Value.rename_comp d.place e.place

/-- What `v` refers to, if anything, is left. -/
def Keeps (d : Displacement) (v : Value) : Prop := ∀ i, v = .pointer i → d.survives i

theorem keeps_still (v : Value) : still.Keeps v := fun _ _ => trivial

theorem keeps_andThen {d e : Displacement} {v : Value} :
    (d.andThen e).Keeps v ↔ d.Keeps v ∧ e.Keeps (v.rename d.place) := by
  cases v with
  | pointer i => simp [Keeps, andThen]
  | _ => simp [Keeps, Value.rename]

end Displacement

/-- Where a collection has put the objects that it has kept. -/
def Collection.displacement (c : Collection) : Displacement where
  survives i := ∃ k, ((c.survey.space[i]?).bind fun o => o.header.forward) = some k
  place := c.survey.place

/-- How an object comes into memory: at once, or after a collection. -/
inductive Places (m : Machine) (o : HeapObject) : Displacement → Value → Machine → Prop
  | free : m.memory.shouldCollect = false → Places m o .still m.nextPlace (m.append o)
  | full {c : Collection} : m.memory.shouldCollect = true →
      m.memory.collect (m.roots ++ o.roots) = .ok c →
      Places m o c.displacement (m.settle c).nextPlace
        ((m.settle c).append (o.mapEdges c.survey.relocate))

/-- Changes that follow one another from one machine to the next. -/
inductive Trail (R : Machine → Displacement → Machine → Prop) :
    Machine → Displacement → Machine → Prop
  | refl (m : Machine) : Trail R m .still m
  | tail {m m₁ m' : Machine} {d e : Displacement} : Trail R m d m₁ → R m₁ e m' →
      Trail R m (d.andThen e) m'

namespace Trail

variable {R S : Machine → Displacement → Machine → Prop} {m m₁ m' : Machine} {d e : Displacement}

theorem one (h : R m d m') : Trail R m d m' := by
  rw [← d.still_andThen]
  exact .tail (.refl m) h

theorem trans (h : Trail R m d m₁) (h' : Trail R m₁ e m') : Trail R m (d.andThen e) m' := by
  induction h' with
  | refl => rwa [d.andThen_still]
  | tail _ hstep ih =>
    rw [← Displacement.andThen_assoc]
    exact .tail ih hstep

theorem mono (h : Trail R m d m') (hRS : ∀ m d m', R m d m' → S m d m') : Trail S m d m' := by
  induction h with
  | refl => exact .refl _
  | tail _ hstep ih => exact .tail ih (hRS _ _ _ hstep)

/-- What every change keeps is kept along the trail. -/
theorem keeps {P : Machine → Prop} (h : Trail R m d m')
    (hR : ∀ m d m', R m d m' → P m → P m') (hm : P m) : P m' := by
  induction h with
  | refl => exact hm
  | tail _ hstep ih => exact hR _ _ _ hstep ih

end Trail

/-- A trail leads from one machine to the other. -/
def Linked (R : Machine → Displacement → Machine → Prop) (m m' : Machine) : Prop :=
  ∃ d, Trail R m d m'

namespace Linked

variable {R S : Machine → Displacement → Machine → Prop} {m m₁ m' : Machine} {d : Displacement}

theorem refl (m : Machine) : Linked R m m := ⟨_, .refl m⟩

theorem one (h : R m d m') : Linked R m m' := ⟨d, .one h⟩

theorem trans (h : Linked R m m₁) (h' : Linked R m₁ m') : Linked R m m' := by
  obtain ⟨d, h⟩ := h
  obtain ⟨e, h'⟩ := h'
  exact ⟨_, h.trans h'⟩

theorem tail (h : Linked R m m₁) (h' : R m₁ d m') : Linked R m m' := h.trans (.one h')

theorem mono (h : Linked R m m') (hRS : ∀ m d m', R m d m' → S m d m') : Linked S m m' := by
  obtain ⟨d, h⟩ := h
  exact ⟨d, h.mono hRS⟩

end Linked

theorem allocate_places (o : HeapObject) (m : Machine) :
    (∃ d v m', Places m o d v m' ∧ allocate o m = .ok v m') ∨
      ∃ f, m.memory.collect (m.roots ++ o.roots) = .error f ∧
        allocate o m = .error (.fault f) m.afterFailedCollection := by
  unfold allocate
  split_ifs with hfull
  · cases hc : m.memory.collect (m.roots ++ o.roots) with
    | error f => exact .inr ⟨f, rfl, rfl⟩
    | ok c => exact .inl ⟨_, _, _, .full hfull hc, rfl⟩
  · exact .inl ⟨_, _, _, .free (Bool.eq_false_iff.mpr hfull), rfl⟩

/-- The objects that running code makes: blocks of its own code, and what its
primitives make. -/
inductive Creates (m : Machine) : HeapObject → Prop
  | block {id : ContextId} {c : Context} {code : Code} {literals : Array Value} {pc : Nat}
      {body : Code} {count temporaries : UInt32} : m.Runs id c →
      m.program c.method = .ok (code, literals) →
      code.fetch? pc = some (.ok (.createBlock body count temporaries)) →
      Creates m (.new m.core.block
        (.block ⟨body, literals.take count.toNat, temporaries.toNat, some id⟩))
  | primitive {o : HeapObject} : Primitive.Makes m o → Creates m o

inductive Act : Machine → Displacement → Machine → Prop
  | note (m : Machine) (e : Event) : Act m .still (m.note e)
  /-- The active context changes its operands and its offset. -/
  | operate {m : Machine} {id : ContextId} {c : Context} (stack : Array Value) (pc : Nat) :
      m.Runs id c → Act m .still (m.setContext id { c with stack, pc })
  | setTemporary (m : Machine) (home : ContextId) (index : Nat) (v : Value) :
      Act m .still { m with memory := m.memory.setTemporary home index v }
  | write (m : Machine) (v : Value) {g : Body → Body} : Body.Rewrites g → Act m .still (m.write v g)
  | create {m m' : Machine} {o : HeapObject} {d : Displacement} {v : Value} : Creates m o →
      Places m o d v m' → Act m d m'
  /-- A collection that fails is counted. -/
  | attempt (m : Machine) : Act m .still m.afterFailedCollection
  | callMethod {m : Machine} {method : Value} {c : Method} (receiver : Value) (args : Array Value) :
      m.memory.body? method = some (.method c) → m.depth < m.maxDepth →
      Act m .still (m.activate (c.call method receiver args))
  | callBlock {m : Machine} {block : Value} {b : Block} (args : Array Value) :
      m.memory.body? block = some (.block b) → m.depth < m.maxDepth →
      Act m .still (m.activate (b.call block args))
  | leave (m : Machine) : Act m .still m.leave

/-- The acts that leave every context alone. -/
inductive Quiet : Machine → Displacement → Machine → Prop
  | note (m : Machine) (e : Event) : Quiet m .still (m.note e)
  | write (m : Machine) (v : Value) {g : Body → Body} : Body.Rewrites g →
      Quiet m .still (m.write v g)
  | create {m m' : Machine} {o : HeapObject} {d : Displacement} {v : Value} : Creates m o →
      Places m o d v m' → Quiet m d m'
  | attempt (m : Machine) : Quiet m .still m.afterFailedCollection

/-- The method or block that is called is there. -/
inductive Call.Ready (m : Machine) : Call → Prop
  | method {method : Value} {c : Method} (receiver : Value) (args : Array Value) :
      m.memory.body? method = some (.method c) → Ready m (c.call method receiver args)
  | block {block : Value} {b : Block} (args : Array Value) :
      m.memory.body? block = some (.block b) → Ready m (b.call block args)

/-- The acts of a context until it ends. A temporary is set where it is found. -/
inductive Deed : Machine → Displacement → Machine → Prop
  | quiet {m m' : Machine} {d : Displacement} : Quiet m d m' → Deed m d m'
  | operate {m : Machine} {id : ContextId} {c : Context} (stack : Array Value) (pc : Nat) :
      m.Runs id c → Deed m .still (m.setContext id { c with stack, pc })
  | setTemporary {m : Machine} {id home : ContextId} {c : Context} {index : Nat} (v : Value) :
      m.Runs id c → m.memory.home? id index = some home →
      Deed m .still { m with memory := m.memory.setTemporary home index v }
  | call {m : Machine} {call : Call} : call.Ready m → m.depth < m.maxDepth →
      Deed m .still (m.activate call)

theorem Quiet.act {m m' : Machine} {d : Displacement} (h : Quiet m d m') : Act m d m' := by
  cases h with
  | note e => exact .note m e
  | write v hg => exact .write m v hg
  | create ho hplaces => exact .create ho hplaces
  | attempt => exact .attempt m

theorem Deed.act {m m' : Machine} {d : Displacement} (h : Deed m d m') : Act m d m' := by
  cases h with
  | quiet hquiet => exact hquiet.act
  | operate stack pc hruns => exact .operate stack pc hruns
  | setTemporary v => exact .setTemporary m _ _ v
  | call hready hdepth =>
    cases hready with
    | method receiver args hc => exact .callMethod receiver args hc hdepth
    | block args hb => exact .callBlock args hb hdepth

/-- What happens to a machine whose host may bring in the code `brings`. -/
inductive Change (brings : Body → Prop) : Machine → Displacement → Machine → Prop
  | act {m m' : Machine} {d : Displacement} : Act m d m' → Change brings m d m'
  | reroot {m m' : Machine} : m.Rerooted m' → Change brings m .still m'
  | make {m m' : Machine} {o : HeapObject} {d : Displacement} {v : Value} :
      (o.body.lasts = true → brings o.body) → Places m o d v m' → Change brings m d m'
  | intern {m m' : Machine} {name : String} {d : Displacement} {v : Value} :
      m.symbols.get? name = none → Places m (.new m.core.symbol (.symbol name)) d v m' →
      Change brings m d { m' with symbols := m'.symbols.insert name v }
  | define {m : Machine} {v : Value} {t : Dictionary} (t' : Dictionary) :
      m.memory.body? v = some (.dictionary t) →
      Change brings m .still (m.write v fun _ => .dictionary t')
  | adopt (m : Machine) :
      Change brings m .still { m with memory :=
        { m.memory with objects := m.memory.objects.map fun o => o.adopt m.core.dictionary } }
  | collect {m : Machine} {c : Collection} : m.memory.collect m.roots = .ok c →
      Change brings m c.displacement (m.settle c)

theorem Change.mono {brings brings' : Body → Prop} (hbrings : ∀ b, brings b → brings' b)
    {m m' : Machine} {d : Displacement} (h : Change brings m d m') : Change brings' m d m' := by
  cases h with
  | act hact => exact .act hact
  | reroot hm' => exact .reroot hm'
  | make ho hplaces => exact .make (fun hlasts => hbrings _ (ho hlasts)) hplaces
  | intern hname hplaces => exact .intern hname hplaces
  | define t' hd => exact .define t' hd
  | adopt => exact .adopt m
  | collect hc => exact .collect hc

section

variable {m m' : Machine} {receiver : Value} {selector : String} {args : Array Value}

theorem create_linked {o : HeapObject} (h : Creates m o) :
    Linked Quiet m (left (allocate o m)) := by
  rcases allocate_places o m with ⟨d, v, m', hplaces, heq⟩ | ⟨f, -, heq⟩
  · rw [heq]
    exact .one (.create h hplaces)
  · rw [heq]
    exact .one (.attempt m)

theorem Performs.linked {e : Effect} {r : EStateM.Result Stop Machine Value} (h : Performs m e r)
    (he : e.Proper m receiver args.toList) : Linked Quiet m (left r) := by
  cases h with
  | answer v => exact .refl m
  | putElement target place v => exact .one (.write m target (.element place v))
  | putByte target place byte v => exact .one (.write m target (.byte place byte))
  | create o => exact create_linked (.primitive he)

/-- A primitive that calls no block leaves the contexts alone. -/
theorem Replies.linked {index : Nat} {r : EStateM.Result Stop Machine Reply}
    (h : Replies m index receiver args r) (hr : ∀ m', r ≠ .ok .entered m') :
    Linked Quiet m (left r) := by
  cases h with
  | answered hwants hperforms => exact hperforms.linked (hwants.regular.proper _ rfl)
  | failed hwants hperforms => exact hperforms.linked (hwants.regular.proper _ rfl)
  | entered => exact absurd rfl (hr _)
  | unknown | broken | declined | notBlock | tooDeep => exact .refl m

theorem Finds.linked {method : Value} {c : Method}
    (h : Finds m receiver selector args method c m') : Linked Quiet m m' := by
  cases h
  exact .one (.note m _)

theorem Finds.body? {method : Value} {c : Method} (h : Finds m receiver selector args method c m') :
    m'.memory.body? method = some (.method c) := by
  cases h with
  | found _ hentry => exact Machine.body?_of_entry hentry

theorem Calls.linked {call : Call} (h : Calls m receiver selector args call m') :
    Linked Quiet m m' ∧ call.Ready m' := by
  cases h with
  | plain hfinds => exact ⟨hfinds.linked, .method _ _ hfinds.body?⟩
  | declined hfinds =>
    refine ⟨hfinds.linked.tail (.note _ _), ?_⟩
    exact Call.Ready.method (m := Machine.note _ _) _ _ hfinds.body?
  | block hfinds _ _ hb => exact ⟨hfinds.linked, .block _ hb⟩

theorem Linked.ofQuiet (h : Linked Quiet m m') : Linked Deed m m' := h.mono fun _ _ _ => .quiet

theorem Responds.linked {r : EStateM.Result Stop Machine (Option Value)}
    (h : Responds m receiver selector args r) : Linked Deed m (left r) := by
  cases h with
  | unresolved | missing => exact .refl m
  | corrupt => exact .one (.quiet (.note m _))
  | stopped hfinds _ hreplies =>
    exact (hfinds.linked.trans (hreplies.linked fun _ h => by cases h)).ofQuiet
  | answered hfinds _ hreplies =>
    exact (hfinds.linked.trans (hreplies.linked fun _ h => by cases h)).ofQuiet
  | entered hcalls hdepth => exact hcalls.linked.1.ofQuiet.tail (.call hcalls.linked.2 hdepth)
  | tooDeep hcalls => exact hcalls.linked.1.ofQuiet

theorem Machine.pushed_linked (m : Machine) (v : Value) : Linked Deed m (m.pushed v) := by
  rw [pushed]
  cases hactive : m.active with
  | none => exact .refl m
  | some id =>
    cases hc : m.memory.contexts[id]? with
    | some c =>
      dsimp only
      rw [m.memory.modifyContext_eq hc, ← hactive]
      exact .one (.operate (c.stack.push v) c.pc ⟨hactive, hc⟩)
    | none =>
      have hsame : m.memory.modifyContext id (fun c => c.push v) = m.memory := by
        have hcontexts : m.memory.contexts.modify id (fun c => c.push v) = m.memory.contexts := by
          apply Array.ext_getElem?
          intro k
          rw [Array.getElem?_modify]
          split_ifs with hk
          · subst hk
            rw [hc]
            rfl
          · rfl
        rw [Memory.modifyContext, hcontexts]
      dsimp only
      rw [hsame, ← hactive]
      exact .refl m

section

variable {id : ContextId} {c : Context} {code : Code} {literals : Array Value} {i : Instruction}

theorem Carries.linked {r : EStateM.Result Stop Machine Unit}
    (h : Carries m id c code literals i r) (hruns : m.Runs id c)
    (hprogram : m.program c.method = .ok (code, literals)) {pc : Nat}
    (hfetch : code.fetch? pc = some (.ok i)) : Linked Deed m (left r) := by
  have hstack : ∀ stack, Linked Deed m (m.setContext id { c with stack }) :=
    fun stack => .one (.operate stack c.pc hruns)
  cases h with
  | operated => exact .one (.operate _ _ hruns)
  | refused => exact hstack _
  | @slotStored index v => exact .one (.quiet (.write m _ (.slot index.toNat v)))
  | temporaryStored _ hhome => exact .one (.setTemporary _ hruns hhome)
  | answered _ _ _ _ hresponds =>
    exact ((hstack _).trans hresponds.linked).trans (Machine.pushed_linked _ _)
  | entered _ _ _ _ hresponds => exact (hstack _).trans hresponds.linked
  | stopped _ _ _ _ hresponds => exact (hstack _).trans hresponds.linked
  | blockMade _ hnew =>
    have hmade := create_linked (.block hruns hprogram hfetch)
    rw [show allocate _ m = _ from hnew] at hmade
    exact hmade.ofQuiet.trans (Machine.pushed_linked _ _)
  | blockNotMade _ hnew =>
    have hmade := create_linked (.block hruns hprogram hfetch)
    rw [show allocate _ m = _ from hnew] at hmade
    exact hmade.ofQuiet
  | @blockEntered _ rest _ _ _ _ _ hb hdepth =>
    exact (hstack rest).tail (.call (.block _ hb) hdepth)
  | tooDeep => exact hstack _

end

/-- A step is a row of deeds, after which the active context may end. -/
inductive Proceeds (m : Machine) : EStateM.Result Stop Machine (Option Value) → Prop
  | next {m' : Machine} : Linked Deed m m' → Proceeds m (.ok none m')
  | ended {m' : Machine} {v : Value} : Linked Deed m m' → Proceeds m (.ok (some v) m'.leave)
  | stopped {m' : Machine} {s : Stop} : Linked Deed m m' → Proceeds m (.error s m')

theorem step_proceeds (m : Machine) : Proceeds m (step m) := by
  have hrules := step_rules m
  generalize step m = r at hrules
  cases hrules with
  | idle | lost | malformed => exact .stopped (.refl m)
  | ended => exact .ended (.refl m)
  | @returned id c _ _ hruns =>
    exact .ended (.one (.operate c.stack (c.past .returnTop).pc hruns))
  | @carried id c _ _ i _ hruns hprogram hfetch _ hcarries =>
    have hpast : Linked Deed m (m.setContext id (c.past i)) := .one (.operate c.stack _ hruns)
    exact .next (hpast.trans (hcarries.linked (hruns.setContext _) hprogram hfetch))
  | @stopped id c _ _ i _ _ hruns hprogram hfetch _ hcarries =>
    have hpast : Linked Deed m (m.setContext id (c.past i)) := .one (.operate c.stack _ hruns)
    exact .stopped (hpast.trans (hcarries.linked (hruns.setContext _) hprogram hfetch))

theorem Linked.ofDeeds (h : Linked Deed m m') : Linked Act m m' := h.mono fun _ _ _ => Deed.act

theorem step_linked (m : Machine) : Linked Act m (left (step m)) := by
  have hproceeds := step_proceeds m
  generalize step m = r at hproceeds
  cases hproceeds with
  | next hdeeds => exact hdeeds.ofDeeds
  | ended hdeeds => exact hdeeds.ofDeeds.tail (.leave _)
  | stopped hdeeds => exact hdeeds.ofDeeds

variable {base fuel left : Nat}

theorem Visits.linked (h : Visits base fuel m left m') : Linked Act m m' := by
  induction h with
  | here => exact .refl _
  | @next _ _ m _ _ hstep _ ih =>
    have hlinked := step_linked m
    rw [hstep] at hlinked
    exact hlinked.trans ih
  | @resumed _ _ m _ _ _ hstep _ _ ih =>
    have hlinked := step_linked m
    rw [hstep] at hlinked
    exact (hlinked.trans (Machine.pushed_linked _ _).ofDeeds).trans ih

theorem run_linked (base fuel : Nat) (m : Machine) :
    Linked Act m (Action.left (run base fuel m)) := by
  obtain ⟨left, m', hvisits, hends⟩ := run_rules base fuel m
  have hlinked := step_linked m'
  generalize run base fuel m = r at hends
  cases hends with
  | exhausted => exact hvisits.linked
  | stopped hstep =>
    rw [hstep] at hlinked
    exact hvisits.linked.trans hlinked
  | answered hstep =>
    rw [hstep] at hlinked
    exact hvisits.linked.trans hlinked

theorem Machine.unwind_linked (m : Machine) (base : Nat) : Linked Act m (m.unwind base) := by
  rw [unwind]
  induction m.depth - base with
  | zero => exact .refl m
  | succ n ih => exact ih.tail (.leave _)

theorem unwindRaised_linked {α : Type} (base : Nat) (r : EStateM.Result Stop Machine α) :
    Linked Act (Action.left r) (Action.left (unwindRaised base r)) := by
  cases r with
  | ok a m => exact .refl m
  | error s m =>
    cases s with
    | raised e => exact m.unwind_linked base
    | fault f => exact .refl m
    | exhausted => exact .refl m

theorem launch_linked {start : Action (Option Value)}
    (hstart : Linked Act m (Action.left (start m))) :
    Linked Act m (Action.left (launch fuel start m)) := by
  cases hr : start m with
  | error s m' =>
    rw [hr] at hstart
    rw [launch_eq_error hr]
    exact hstart.trans
      (unwindRaised_linked m.depth (.error s m' : EStateM.Result Stop Machine Value))
  | ok answer m' =>
    rw [hr] at hstart
    cases answer with
    | some v =>
      rw [launch_eq_answer hr]
      exact hstart
    | none =>
      rw [launch_eq_run hr]
      exact (hstart.trans (run_linked m.depth fuel m')).trans (unwindRaised_linked _ _)

theorem startMethod_linked (m : Machine) (method receiver : Value) (args : Array Value) :
    Linked Act m (Action.left (startMethod method receiver args m)) := by
  rcases startMethod_rules m method receiver args with ⟨c, hc, heq⟩ | heq
  · rw [heq]
    rcases (c.call method receiver args).start_rules m with ⟨hdepth, heq⟩ | ⟨-, heq⟩
    · rw [heq]
      exact .one (.callMethod receiver args hc hdepth)
    · rw [heq]
      exact .refl m
  · rw [heq]
    exact .refl m

theorem startBlock_linked (m : Machine) (block : Value) (args : Array Value) :
    Linked Act m (Action.left (startBlock block args m)) := by
  rcases startBlock_rules m block args with ⟨b, hb, heq⟩ | heq
  · rw [heq]
    rcases (b.call block args).start_rules m with ⟨hdepth, heq⟩ | ⟨-, heq⟩
    · rw [heq]
      exact .one (.callBlock args hb hdepth)
    · rw [heq]
      exact .refl m
  · rw [heq]
    exact .refl m

/-- A program that starts leaves a trail of acts. -/
theorem Operation.Launches.linked {op : Operation} {start : Action (Option Value)} {m₁ : Machine}
    (h : op.Launches m fuel start m₁) : Linked Act m₁ (Action.left (start m₁)) := by
  cases h with
  | send _ receiver selector args => exact (startSend_rules m receiver selector args).linked.ofDeeds
  | executeMethod => exact startMethod_linked _ _ _ _
  | callBlock => exact startBlock_linked _ _ _
  | evaluate => exact startMethod_linked _ _ _ _

end

section

variable {brings : Body → Prop} {m m' : Machine}

theorem Linked.ofActs (h : Linked Act m m') : Linked (Change brings) m m' :=
  h.mono fun _ _ _ hact => .act hact

theorem make_linked {o : HeapObject} (ho : o.body.lasts = true → brings o.body) :
    Upholds (Linked (Change brings) m) (allocate o) := by
  intro m₁ hm₁
  rcases allocate_places o m₁ with ⟨d, v, m', hplaces, heq⟩ | ⟨f, -, heq⟩
  · rw [heq]
    exact .ok (hm₁.tail (.make ho hplaces))
  · rw [heq]
    exact .fault (hm₁.tail (.act (.attempt m₁)))

theorem intern_linked (name : String) : Upholds (Linked (Change brings) m) (intern name) := by
  intro m₁ hm₁
  rw [intern, bind_get]
  cases hfound : m₁.symbols.get? name with
  | some v => exact .ok hm₁
  | none =>
    dsimp only
    rw [bind_get]
    rcases allocate_places (.new m₁.core.symbol (.symbol name)) m₁ with
      ⟨d, v, m', hplaces, heq⟩ | ⟨f, -, heq⟩
    · rw [bind_ok heq, bind_modify]
      exact .ok (hm₁.tail (.intern hfound hplaces))
    · rw [bind_error heq]
      exact .fault (hm₁.tail (.act (.attempt m₁)))

/-- Whatever a host makes, a trail leads there. -/
theorem linked_stable (brings : Body → Prop) (m : Machine) : Stable (Linked (Change brings) m) where
  rerooted hm hm' := hm.tail (.reroot hm')
  allocate _ ho := make_linked fun hlasts => absurd (ho ▸ hlasts) Bool.false_ne_true
  intern := intern_linked
  define hm hd d' := hm.tail (.define d' hd)
  adopt := .modify fun m hm => hm.tail (.adopt m)

theorem collectGarbage_linked : Upholds (Linked (Change brings) m) collectGarbage := by
  intro m₁ hm₁
  unfold collectGarbage
  cases hc : m₁.memory.collect m₁.roots with
  | error f => exact .fault (hm₁.tail (.act (.attempt m₁)))
  | ok c => exact .ok (hm₁.tail (.collect hc))

namespace Operation

theorem Launches.linked_start {op : Operation} {fuel : Nat} {start : Action (Option Value)}
    (h : op.Launches m fuel start m') : Linked (Change op.Brings) m m' :=
  h.keeps (linked_stable op.Brings m) (fun _ ho => make_linked fun _ => ho) (.refl m)

/-- Every operation leaves a trail, however it ends. -/
theorem run_linked (op : Operation) (m : Machine) :
    Linked (Change op.Brings) m (Action.left (op.run m)) := by
  rcases launches_or_keeps (linked_stable op.Brings m) (fun _ ho => make_linked fun _ => ho)
    collectGarbage_linked (.refl m) with ⟨fuel, start, m₁, hlaunch⟩ | hkept
  · rw [hlaunch.run_eq]
    exact hlaunch.linked_start.trans (launch_linked hlaunch.linked).ofActs
  · exact hkept.left

/-- A trail leads to every machine that a program goes through. -/
theorem Visits.linked {op : Operation} {left : Nat} (h : op.Visits m left m') :
    Linked (Change op.Brings) m m' := by
  obtain ⟨fuel, start, m₁, m₂, hlaunch, hstart, hvisits⟩ := h
  have hstarted := hlaunch.linked
  rw [hstart] at hstarted
  exact hlaunch.linked_start.trans (hstarted.trans hvisits.linked).ofActs

end Operation

end

/-- A collection keeps what it has reached. -/
theorem Memory.survives_iff {mem : Memory} {roots : List Root} {c : Collection}
    (hfresh : mem.Unmarked) (h : mem.collect roots = .ok c) (i : Nat) :
    c.displacement.survives i ↔ mem.Reaches roots (.value (.pointer i)) := by
  obtain ⟨hcomplete, -⟩ := copy_of_collect hfresh h
  rw [← hcomplete.order i, Array.mem_iff_getElem?]
  exact exists_congr fun k => hcomplete.charts.forward i k

/-- The machine has moved, and its objects are where `d` says. -/
structure Shifted (kept : Root → Prop) (d : Displacement) (m m' : Machine) : Prop
    extends Relocated kept d.place m m' where
  survives : ∀ i, d.survives i ↔ kept (.value (.pointer i))

section

variable {m m' : Machine}

theorem Shifted.still (h : m.memory.EpochsPast) : Shifted (fun _ => True) .still m m :=
  ⟨.refl h, fun _ => Iff.rfl⟩

theorem Shifted.collected (h : m.memory.EpochsPast) {pending : List Root} {c : Collection}
    (hc : m.memory.collect (m.roots ++ pending) = .ok c) :
    Shifted (m.memory.Reaches (m.roots ++ pending)) c.displacement m (m.settle c) :=
  ⟨.collected h hc, Memory.survives_iff h.unmarked hc⟩

/-- An object comes into a machine that has moved. -/
theorem Places.shifted {o : HeapObject} {d : Displacement} {v : Value} (hp : Places m o d v m')
    (h : m.memory.EpochsPast) : ∃ kept m₁, Shifted kept d m m₁ ∧ (∀ r ∈ o.roots, kept r) ∧
      v = m₁.nextPlace ∧ m' = m₁.append (o.mapEdges (Value.rename d.place)) := by
  cases hp with
  | free =>
    refine ⟨_, m, .still h, fun _ _ => trivial, rfl, ?_⟩
    rw [Displacement.still, Value.rename_id, o.mapEdges_id]
  | @full c _ hc =>
    refine ⟨_, m.settle c, .collected h hc, ?_, rfl, ?_⟩
    · exact fun r hr => .root (List.mem_append_right _ hr)
    · rw [c.survey.relocate_eq_rename]
      rfl

theorem Places.epochs {o : HeapObject} {d : Displacement} {v : Value} (hp : Places m o d v m')
    (h : m.memory.EpochsPast) : m'.memory.EpochsPast := by
  obtain ⟨kept, m₁, hshifted, -, -, rfl⟩ := hp.shifted h
  exact hshifted.epochs

/-- The roots of a machine are kept and go where `d` says. -/
structure RootsFollow (d : Displacement) (m m' : Machine) : Prop where
  kept : ∀ v, .value v ∈ m.roots → d.Keeps v
  core : m'.core = m.core.map (Value.rename d.place)
  globals : m'.globals = m.globals.map (Value.rename d.place)
  symbols : m'.symbols = m.symbols.map (Value.rename d.place)
  scratch : m'.scratch = m.scratch.map (Value.rename d.place)

theorem RootsFollow.still (m : Machine) : RootsFollow .still m m where
  kept v _ := Displacement.keeps_still v
  core := by rw [Displacement.still, Value.rename_id]; rfl
  globals := by rw [Displacement.still, Value.rename_id, Dictionary.map_id]
  symbols := by rw [Displacement.still, Value.rename_id, Dictionary.map_id]
  scratch := by rw [Displacement.still, Value.rename_id, Array.map_id]

theorem RootsFollow.trans {m₁ : Machine} {d e : Displacement} (h : RootsFollow d m m₁)
    (h' : RootsFollow e m₁ m') : RootsFollow (d.andThen e) m m' := by
  have hplace := d.rename_andThen e
  constructor
  · intro v hv
    rw [Displacement.keeps_andThen]
    refine ⟨h.kept v hv, h'.kept _ ?_⟩
    rw [Machine.value_mem_roots] at hv ⊢
    rw [h.core, h.globals, h.symbols, h.scratch, CoreClasses.values_map, Dictionary.values_map,
      Dictionary.values_map]
    exact hv.imp List.mem_map_of_mem (.imp List.mem_map_of_mem
      (.imp List.mem_map_of_mem Array.mem_map_of_mem))
  · rw [h'.core, h.core, hplace]
    rfl
  · rw [h'.globals, h.globals, hplace, Dictionary.map_map]
  · rw [h'.symbols, h.symbols, hplace, Dictionary.map_map]
  · rw [h'.scratch, h.scratch, hplace, Array.map_map]

theorem Shifted.keeps {kept : Root → Prop} {d : Displacement} (h : Shifted kept d m m') {v : Value}
    (hv : kept (.value v)) : d.Keeps v := by
  intro i hi
  rw [h.survives, ← hi]
  exact hv

theorem Shifted.rootsFollow {kept : Root → Prop} {d : Displacement} (h : Shifted kept d m m') :
    RootsFollow d m m' :=
  ⟨fun _ hv => h.keeps (h.roots _ hv), h.core, h.globals, h.symbols, h.scratch⟩

theorem Places.rootsFollow {o : HeapObject} {d : Displacement} {v : Value}
    (hp : Places m o d v m') (h : m.memory.EpochsPast) : RootsFollow d m m' := by
  obtain ⟨kept, m₁, hshifted, -, -, rfl⟩ := hp.shifted h
  have hroots := hshifted.rootsFollow
  exact ⟨hroots.kept, hroots.core, hroots.globals, hroots.symbols, hroots.scratch⟩

theorem Memory.EpochsPast.write (h : m.memory.EpochsPast) (v : Value) (g : Body → Body) :
    (m.write v g).memory.EpochsPast := by
  cases v with
  | pointer => exact h
  | _ => exact h

theorem Machine.epochs_leave (h : m.memory.EpochsPast) : m.leave.memory.EpochsPast := by
  rw [leave]
  cases m.active with
  | none => exact h
  | some id => exact h.modifyContext fun _ _ => rfl

theorem Act.epochs {d : Displacement} (hact : Act m d m') (h : m.memory.EpochsPast) :
    m'.memory.EpochsPast := by
  cases hact with
  | note => exact h
  | operate stack pc hruns =>
    apply h.modifyContext
    intro c hc
    rw [hruns.context] at hc
    cases hc
    rfl
  | setTemporary => exact h.modifyContext fun _ _ => rfl
  | write v => exact h.write v _
  | create _ hplaces => exact hplaces.epochs h
  | attempt => exact fun id c hc => Nat.le_succ_of_le (h id c hc)
  | callMethod | callBlock => exact h.addContext rfl
  | leave => exact Machine.epochs_leave h

/-- Running code does not change a root. -/
theorem Act.rootsFollow {d : Displacement} (hact : Act m d m') (h : m.memory.EpochsPast) :
    RootsFollow d m m' := by
  have hsame := RootsFollow.still m
  cases hact with
  | create _ hplaces => exact hplaces.rootsFollow h
  | leave =>
    rw [Machine.leave]
    cases m.active with
    | none => exact hsame
    | some id => exact ⟨hsame.kept, hsame.core, hsame.globals, hsame.symbols, hsame.scratch⟩
  | _ => exact ⟨hsame.kept, hsame.core, hsame.globals, hsame.symbols, hsame.scratch⟩

theorem Change.epochs {brings : Body → Prop} {d : Displacement} (hchange : Change brings m d m')
    (h : m.memory.EpochsPast) : m'.memory.EpochsPast := by
  cases hchange with
  | act hact => exact hact.epochs h
  | reroot hm' =>
    rw [hm'.memory]
    exact h
  | make _ hplaces => exact hplaces.epochs h
  | intern _ hplaces => exact hplaces.epochs h
  | define => exact h.write _ _
  | adopt => exact h
  | collect hc =>
    rw [← List.append_nil m.roots] at hc
    exact (Shifted.collected h hc).epochs

end

/-- The code of a fresh machine: none where a primitive does the work, or code that
answers the only literal. -/
inductive Body.Initial : Body → Prop
  | primitive {c : Method} : c.code = [] → Initial (.method c)
  | constant {c : Method} :
      c.code = Instruction.encode (.pushLiteral 0) ++ Instruction.encode .returnTop →
      Initial (.method c)

section

variable {m m' : Machine}

theorem Draft.install_linked {brings : Body → Prop} {d : Draft}
    (hd : ∀ c : Method, c.code = d.assembly.code → brings (.method c)) :
    Upholds (Linked (Change brings) m) d.install := by
  have hstable := linked_stable brings m
  intro m₁ hm₁
  apply hstable.install
  exact hstable.build (fun c hc => .get_bind fun _ => make_linked fun _ => hd c hc) m₁ hm₁

theorem setUp_linked : Upholds (Linked (Change Body.Initial) m) setUp := by
  apply (linked_stable Body.Initial m).setUp
  · intro className selector primitive
    apply Upholds.get_bind
    intro m₁
    apply Upholds.bind _ fun _ => .pure ()
    exact Draft.install_linked fun c hc => .primitive hc
  · intro className selector v
    apply Upholds.get_bind
    intro m₁
    apply Upholds.bind _ fun _ => .pure ()
    rw [Draft.constant_eq]
    exact Draft.install_linked fun c hc => .constant hc

def Machine.bare (settings : Settings) (maxDepth : Nat) : Machine :=
  ⟨⟨settings, settings.initialCapacity, #[], 0, #[]⟩, .none, .empty, .empty, #[], none, 0,
    maxDepth, #[]⟩

theorem Machine.body?_bare (settings : Settings) (maxDepth : Nat) (v : Value) :
    (bare settings maxDepth).memory.body? v = none := by
  cases v <;> rfl

/-- A fresh machine comes from one without objects. -/
theorem bootstrap_linked {settings : Settings} {maxDepth : Nat}
    (h : bootstrap settings maxDepth = .ok m) :
    Linked (Change Body.Initial) (.bare settings maxDepth) m :=
  bootstrap_keeps (.refl _) setUp_linked h

theorem Linked.keeps {brings : Body → Prop} {P : Machine → Prop}
    (h : Linked (Change brings) m m') (hepochs : m.memory.EpochsPast)
    (hchange : ∀ {m d m'}, m.memory.EpochsPast → Change brings m d m' → P m → P m') (hm : P m) :
    m'.memory.EpochsPast ∧ P m' := by
  obtain ⟨d, h⟩ := h
  apply h.keeps (P := fun m => m.memory.EpochsPast ∧ P m)
  · rintro m₁ e m₂ hstep ⟨hepochs₁, hm₁⟩
    exact ⟨hstep.epochs hepochs₁, hchange hepochs₁ hstep hm₁⟩
  · exact ⟨hepochs, hm⟩

theorem Linked.epochs {brings : Body → Prop} (h : Linked (Change brings) m m')
    (hepochs : m.memory.EpochsPast) : m'.memory.EpochsPast :=
  (h.keeps hepochs (P := fun _ => True) (fun _ _ _ => trivial) trivial).1

/-- The machines that operations with `Q` leave, and those that their programs go
through. -/
inductive Occurs (Q : Machine → Operation → Prop) : Machine → Prop
  | attained {m : Machine} : Attained Q m → Occurs Q m
  | visited {m m' : Machine} {op : Operation} {left : Nat} : Attained Q m → Q m op →
      op.Visits m left m' → Occurs Q m'

variable {Q : Machine → Operation → Prop} {P : Machine → Prop}

/-- What holds of machines without objects and is kept along every trail. -/
theorem Attained.keeps (hbare : ∀ settings maxDepth, P (.bare settings maxDepth))
    (hboot : ∀ {m m'}, m.memory.EpochsPast → Linked (Change Body.Initial) m m' → P m → P m')
    (hop : ∀ {m m' op}, Q m op → m.memory.EpochsPast → Linked (Change op.Brings) m m' → P m → P m')
    (h : Attained Q m) : m.memory.EpochsPast ∧ P m := by
  induction h with
  | @boot settings maxDepth m h =>
    have hbare' : (Machine.bare settings maxDepth).memory.EpochsPast := by
      intro id c hc
      simp [Machine.bare] at hc
    have hlinked := bootstrap_linked h
    exact ⟨hlinked.epochs hbare', hboot hbare' hlinked (hbare settings maxDepth)⟩
  | @operated m op _ hQ ih =>
    have hlinked := op.run_linked m
    rw [after_eq]
    exact ⟨hlinked.epochs ih.1, hop hQ ih.1 hlinked ih.2⟩

theorem Attained.epochs (h : Attained Q m) : m.memory.EpochsPast :=
  (h.keeps (P := fun _ => True) (fun _ _ => trivial) (fun _ _ _ => trivial)
    (fun _ _ _ _ => trivial)).1

theorem Occurs.keeps (hbare : ∀ settings maxDepth, P (.bare settings maxDepth))
    (hboot : ∀ {m m'}, m.memory.EpochsPast → Linked (Change Body.Initial) m m' → P m → P m')
    (hop : ∀ {m m' op}, Q m op → m.memory.EpochsPast → Linked (Change op.Brings) m m' → P m → P m')
    (h : Occurs Q m) : P m := by
  cases h with
  | attained hm => exact (hm.keeps hbare hboot hop).2
  | visited hm hQ hvisits =>
    obtain ⟨hepochs, hm⟩ := hm.keeps hbare hboot hop
    exact hop hQ hepochs hvisits.linked hm

theorem Occurs.epochs (h : Occurs Q m) : m.memory.EpochsPast := by
  cases h with
  | attained hm => exact hm.epochs
  | visited hm _ hvisits => exact hvisits.linked.epochs hm.epochs

end

end ObjectMachine

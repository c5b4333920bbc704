import ObjectMachine.Proofs.BalancedMachine
import ObjectMachine.Proofs.IndexedRuns
import ObjectMachine.Proofs.Starvation

/-!
# Running balanced code

Balanced code always finds the operands that it takes. Nothing but an instruction
takes operands, and an instruction of balanced code is read when there are as many
of them as height maps say. Carrying it out leaves as many as they say for where it
leads, by one case for each rule: at once, or when the call that it makes has
answered. So it goes on through every run.
-/

namespace ObjectMachine

open ObjectMachine.Action

/-- An answer with `Q`, or a stop that is not for want of operands and leaves balanced
code. -/
inductive Fares {α : Type} (Q : α → Machine → Prop) : EStateM.Result Stop Machine α → Prop
  | ok {a : α} {m : Machine} : Q a m → Fares Q (.ok a m)
  | error {s : Stop} {m : Machine} : s.starved = false → m.Balanced → Fares Q (.error s m)

/-- There is an answer for the contexts `waiting`, or some context goes on. -/
def Machine.Proceeds (below waiting : List ContextId) : Option Value → Machine → Prop
  | some _, m => m.Awaits below waiting
  | none, m => ∃ id waiting', m.Poised below id waiting'

theorem allocate_fares {m : Machine} (hm : m.Balanced) {o : HeapObject} (ho : o.body.Balanced) :
    Fares (fun _ m' => Undisturbed m m') (allocate o m) := by
  rcases allocate_places o m with ⟨d, v, m', hplaces, heq⟩ | ⟨f, hf, heq⟩
  · rw [heq]
    exact .ok (.places hm hplaces ho)
  · rw [heq]
    exact .error (m.memory.collect_fed _ f hf) hm.afterFailedCollection

theorem newBlock_fares {m : Machine} {b : Block} {r : EStateM.Result Stop Machine Value}
    (h : newBlock b m = r) (hm : m.Balanced) (hb : b.code.Balanced) :
    Fares (fun _ m' => Undisturbed m m') r := by
  rw [← h]
  exact allocate_fares (o := .new m.core.block (.block b)) hm hb

theorem Primitive.Makes.balanced {m : Machine} {o : HeapObject} (h : Makes m o) :
    o.body.Balanced := by
  cases h with
  | emptyBlock => exact Code.Balanced.nil
  | other hother => exact .of_lasts hother

section

variable {m m' : Machine} {receiver : Value} {selector : String} {args : Array Value}
  {below waiting : List ContextId}

theorem Performs.fares {e : Effect} {r : EStateM.Result Stop Machine Value} (h : Performs m e r)
    (he : e.Proper m receiver args.toList) (hm : m.Balanced) :
    Fares (fun _ m' => Undisturbed m m') r := by
  cases h with
  | answer v => exact .ok (.refl hm)
  | putElement target place v => exact .ok (.write hm target (.element place v))
  | putByte target place byte v => exact .ok (.write hm target (.byte place byte))
  | create o => exact allocate_fares hm (Primitive.Makes.balanced he)

theorem Replies.fares {index : Nat} {r : EStateM.Result Stop Machine Reply}
    (h : Replies m index receiver args r) (hm : m.Balanced) :
    Fares (fun reply m' => ∀ v, reply = .answered v → Undisturbed m m') r := by
  cases h with
  | broken hwants => exact .error (hwants.regular.fed _ rfl) hm
  | answered hwants hperforms =>
    cases hperforms.fares (hwants.regular.proper _ rfl) hm with
    | ok hm' => exact .ok fun _ _ => hm'
  | failed hwants hperforms =>
    cases hperforms.fares (hwants.regular.proper _ rfl) hm with
    | error hs hm' => exact .error hs hm'
  | declined | entered =>
    apply Fares.ok
    intro v hv
    cases hv
  | unknown | notBlock | tooDeep => exact .error rfl hm

theorem Finds.undisturbed {method : Value} {c : Method}
    (h : Finds m receiver selector args method c m') (hm : m.Balanced) : Undisturbed m m' := by
  cases h
  exact .note hm _

theorem Calls.undisturbed {call : Call} (h : Calls m receiver selector args call m')
    (hm : m.Balanced) : Undisturbed m m' ∧ ∃ b code literals,
      m'.memory.body? call.method = some b ∧ b.program? = some (code, literals) := by
  cases h with
  | plain hfinds => exact ⟨hfinds.undisturbed hm, _, _, _, hfinds.body?, rfl⟩
  | declined hfinds =>
    have hm₁ := hfinds.undisturbed hm
    exact ⟨hm₁.trans (.note hm₁.code _), _, _, _, hfinds.body?, rfl⟩
  | block hfinds _ _ hb => exact ⟨hfinds.undisturbed hm, _, _, _, hb, rfl⟩

theorem Responds.fares {r : EStateM.Result Stop Machine (Option Value)}
    (h : Responds m receiver selector args r) (hm : m.Awaits below waiting) :
    Fares (Machine.Proceeds below waiting) r := by
  cases h with
  | unresolved hresolve => exact .error (m.resolve_fed _ _ _ hresolve) hm.code
  | missing => exact .error rfl hm.code
  | corrupt _ hentry =>
    exact .error (m.entry_fed _ _ _ hentry) (Undisturbed.note hm.code _).code
  | stopped hfinds _ hreplies =>
    cases hreplies.fares (hfinds.undisturbed hm.code).code with
    | error hs hm' => exact .error hs hm'
  | answered hfinds _ hreplies =>
    have hm₁ := hm.undisturbed (hfinds.undisturbed hm.code)
    cases hreplies.fares hm₁.code with
    | ok hm' => exact .ok (hm₁.undisturbed (hm' _ rfl))
  | entered hcalls hdepth =>
    obtain ⟨hm₁, b, code, literals, hb, hprogram⟩ := hcalls.undisturbed hm.code
    exact .ok ⟨_, _, (hm.undisturbed hm₁).activate hdepth hb hprogram⟩
  | tooDeep hcalls => exact .error rfl (hcalls.undisturbed hm.code).1.code

end

theorem Instruction.takes_of_usesTop {i : Instruction} (h : i.usesTop = true) : i.takes = 1 := by
  cases i with
  | jump kind offset => exact if_neg (of_decide_eq_true h)
  | storeInstanceVariable | storeTemporary | pop | duplicate => rfl
  | _ => cases h

/-- The context has read the instruction `i` at `pc`, and has as many operands as
height maps say for there. -/
structure Context.Reads (mem : Memory) (code : Code) (pc : Nat) (i : Instruction) (c : Context) :
    Prop where
  program : ∃ b literals, mem.body? c.method = some b ∧ b.program? = some (code, literals)
  balanced : code.Balanced
  listed : (pc, i) ∈ code.listing.1
  past : c.pc = pc + i.size
  height : ∀ h, code.HeightMap h → c.stack.size = h pc

namespace Context.Reads

variable {mem : Memory} {code : Code} {pc : Nat} {i : Instruction} {c : Context}

theorem enough (hc : c.Reads mem code pc i) : i.takes ≤ c.stack.size := by
  obtain ⟨h, hmap⟩ := hc.balanced.exists_heightMap
  rw [hc.height h hmap]
  exact (hmap.respects _ hc.listed).enough

/-- After the instruction there are as many operands as height maps say, but for those
that are awaited. -/
theorem next (hc : c.Reads mem code pc i) (hfalls : i.fallsThrough = true) {stack : Array Value}
    {awaited : Nat} (hsize : stack.size + awaited + i.takes = c.stack.size + i.gives) :
    Context.Level mem awaited { c with stack } := by
  obtain ⟨b, literals, hb, hprogram⟩ := hc.program
  refine ⟨b, code, literals, hb, hprogram, ?_, ?_⟩
  · obtain ⟨h, hmap⟩ := hc.balanced.exists_heightMap
    change code.Boundary c.pc
    rw [hc.past]
    exact ((Code.listing_reads hmap.readable).entry hc.listed).2
  · intro h hmap
    have hheight := hc.height h hmap
    have hnext : h (pc + i.size) + i.takes = h pc + i.gives :=
      (hmap.respects _ hc.listed).next hfalls
    change stack.size + awaited = h c.pc
    rw [hc.past]
    omega

theorem jumps (hc : c.Reads mem code pc i) {offset : Int32} {target : Nat}
    (hoffset : i.offset? = some offset) (hlands : c.Lands code offset target)
    {stack : Array Value} (hsize : stack.size + i.takes = c.stack.size + i.gives) :
    Context.Level mem 0 { c with stack, pc := target } := by
  have htarget : ∀ h, code.HeightMap h → (∃ i', (target, i') ∈ code.listing.1) ∧
      h target + i.takes = h pc + i.gives := by
    intro h hmap
    obtain ⟨e, he, heq, hheight⟩ := (hmap.respects _ hc.listed).target offset hoffset
    have hlanded := hlands.eq
    rw [hc.past] at hlanded
    obtain rfl : target = e.1 := Int.ofNat.inj (hlanded.symm.trans heq)
    exact ⟨⟨e.2, he⟩, hheight⟩
  obtain ⟨b, literals, hb, hprogram⟩ := hc.program
  refine ⟨b, code, literals, hb, hprogram, ?_, ?_⟩
  · obtain ⟨h, hmap⟩ := hc.balanced.exists_heightMap
    exact .inr (htarget h hmap).1
  · intro h hmap
    have hheight := hc.height h hmap
    have hthere := (htarget h hmap).2
    change stack.size + 0 = h target
    omega

end Context.Reads

section

variable {m : Machine} {id : ContextId} {c : Context} {code : Code} {literals : Array Value}
  {pc : Nat} {i : Instruction} {below waiting : List ContextId}

theorem Operates.level {stack : Array Value} {pc' : Nat}
    (h : Operates m id c code literals i stack pc') (hc : c.Reads m.memory code pc i) :
    Context.Level m.memory 0 { c with stack, pc := pc' } := by
  have henough := hc.enough
  have hpop : i.takes = 1 → c.stack.pop.size + 1 = c.stack.size := by
    intro htakes
    rw [Array.size_pop]
    omega
  cases h with
  | pushLiteral | pushInstanceVariable | pushTemporary | pushSelf =>
    exact hc.next rfl (Array.size_push _)
  | duplicate => exact hc.next rfl (congrArg (· + 1) (Array.size_push _))
  | pop => exact hc.next rfl (hpop rfl)
  | jump hlands => exact hc.jumps rfl hlands rfl
  | @taken kind offset _ _ hkind _ _ hlands =>
    have htakes : (Instruction.jump kind offset).takes = 1 := if_neg hkind
    apply hc.jumps rfl hlands
    rw [htakes]
    exact hpop htakes
  | @passed kind offset _ hkind =>
    have htakes : (Instruction.jump kind offset).takes = 1 := if_neg hkind
    apply hc.next (decide_eq_true hkind)
    rw [htakes]
    exact hpop htakes

/-- Where an instruction is refused, its operands are there. -/
theorem Refuses.not_starved {s : Stop} {stack : Array Value}
    (h : Refuses m id c code literals i s stack) (hc : c.Reads m.memory code pc i) :
    s.starved = false := by
  have henough := hc.enough
  cases h with
  | underflow htop hnone =>
    rw [Instruction.takes_of_usesTop htop] at henough
    rw [Array.back?_eq_none_iff.mp hnone] at henough
    cases henough
  | fewArguments _ _ hfew => exact absurd henough (Nat.not_le.mpr (Nat.lt_succ_of_lt hfew))
  | noReceiver _ _ hall => exact absurd henough (Nat.not_le.mpr (Nat.lt_succ_of_le hall.le))
  | fewBlockArguments hfew => exact absurd henough (Nat.not_le.mpr (Nat.lt_succ_of_lt hfew))
  | noBlock hall => exact absurd henough (Nat.not_le.mpr (Nat.lt_succ_of_le hall.le))
  | _ => rfl

/-- A context whose receiver and arguments are gone waits for the answer. -/
theorem Machine.Suspends.calls (hm : m.Suspends below id waiting) (hruns : m.Runs id c)
    (hc : c.Reads m.memory code pc i) (hfalls : i.fallsThrough = true) (hgives : i.gives = 1)
    {rest args : Array Value} {v : Value} (hstack : c.stack = rest.push v ++ args)
    (htakes : i.takes = args.size + 1) :
    (m.setContext id { c with stack := rest }).Awaits below (id :: waiting) := by
  apply Suspends.awaits
  · exact hm.setContext hruns.context rfl rfl
  refine ⟨_, getElem?_setContext hruns.context _, hc.next hfalls ?_⟩
  rw [hstack, Array.size_append, Array.size_push]
  omega

theorem Carries.fares {r : EStateM.Result Stop Machine Unit}
    (h : Carries m id c code literals i r) (hm : m.Suspends below id waiting) (hruns : m.Runs id c)
    (hc : c.Reads m.memory code pc i) :
    Fares (fun _ m' => ∃ id waiting, m'.Poised below id waiting) r := by
  cases h with
  | operated hoperates =>
    apply Fares.ok
    refine ⟨id, waiting, hm.setContext hruns.context rfl rfl, _, ?_, hoperates.level hc⟩
    exact Machine.getElem?_setContext hruns.context _
  | refused hrefuses =>
    exact .error (hrefuses.not_starved hc) (hm.code.setContext hruns.context rfl)
  | @slotStored index v =>
    have hpoised : m.Poised below id waiting := ⟨hm, c, hruns.context, hc.next rfl rfl⟩
    exact .ok ⟨id, waiting, hpoised.undisturbed (.write hm.code _ (.slot index.toNat v))⟩
  | temporaryStored =>
    have hpoised : m.Poised below id waiting := ⟨hm, c, hruns.context, hc.next rfl rfl⟩
    exact .ok ⟨id, waiting, hpoised.undisturbed (.setTemporary hm.code _ _ _)⟩
  | answered _ _ hstack hsize hresponds =>
    have hawaits := hm.calls hruns hc rfl rfl hstack (congrArg (· + 1) hsize.symm)
    cases hresponds.fares hawaits with
    | ok hm' => exact .ok ⟨id, waiting, hm'.pushed _⟩
  | entered _ _ hstack hsize hresponds =>
    have hawaits := hm.calls hruns hc rfl rfl hstack (congrArg (· + 1) hsize.symm)
    cases hresponds.fares hawaits with
    | ok hm' => exact .ok hm'
  | stopped _ _ hstack hsize hresponds =>
    have hawaits := hm.calls hruns hc rfl rfl hstack (congrArg (· + 1) hsize.symm)
    cases hresponds.fares hawaits with
    | error hs hm' => exact .error hs hm'
  | blockMade _ hnew =>
    have hawaits := hm.awaits ⟨c, hruns.context, hc.next rfl rfl⟩
    cases newBlock_fares hnew hm.code (hc.balanced.block hc.listed) with
    | ok hm' => exact .ok ⟨id, waiting, (hawaits.undisturbed hm').pushed _⟩
  | blockNotMade _ hnew =>
    cases newBlock_fares hnew hm.code (hc.balanced.block hc.listed) with
    | error hs hm' => exact .error hs hm'
  | blockEntered hstack hsize hb hdepth =>
    have hawaits := hm.calls hruns hc rfl rfl hstack (congrArg (· + 1) hsize.symm)
    exact .ok ⟨_, _, hawaits.activate hdepth hb rfl⟩
  | tooDeep => exact .error rfl (hm.code.setContext hruns.context rfl)

end

section

variable {m m' : Machine} {below waiting : List ContextId} {id : ContextId} {c : Context}
  {code : Code} {literals : Array Value}

theorem Machine.Poised.stands (hm : m.Poised below id waiting) {k : ContextId} (hruns : m.Runs k c)
    (hprogram : m.program c.method = .ok (code, literals)) :
    k = id ∧ (∃ b, m.memory.body? c.method = some b ∧ b.program? = some (code, literals)) ∧
      code.Balanced ∧ code.Boundary c.pc ∧
      ∀ h, code.HeightMap h → c.stack.size = h c.pc := by
  obtain rfl : k = id := Option.some.inj (hruns.active.symm.trans hm.runs.active_eq)
  obtain ⟨c', hc', b, code', literals', hb, hb', hboundary, hheight⟩ := hm.level
  rw [hruns.context] at hc'
  cases hc'
  rw [program_eq hb hb'] at hprogram
  cases hprogram
  exact ⟨rfl, ⟨b, hb, hb'⟩, (hm.code.bodies _ b hb).of_program? hb', hboundary, hheight⟩

theorem Machine.Poised.past (hm : m.Poised below id waiting) {k : ContextId} (hruns : m.Runs k c)
    (hprogram : m.program c.method = .ok (code, literals)) {i : Instruction}
    (hfetch : code.fetch? c.pc = some (.ok i)) :
    (m.setContext k (c.past i)).Suspends below k waiting ∧
      (c.past i).Reads (m.setContext k (c.past i)).memory code c.pc i := by
  obtain ⟨rfl, ⟨b, hb, hb'⟩, hbalanced, hboundary, hheight⟩ := hm.stands hruns hprogram
  refine ⟨hm.toSuspends.setContext hruns.context rfl rfl, ⟨b, literals, hb, hb'⟩, hbalanced, ?_,
    rfl, hheight⟩
  obtain ⟨h, hmap⟩ := hbalanced.exists_heightMap
  rcases hboundary.fetch? hmap.readable with hnone | ⟨i', hsome, hi, -⟩
  · rw [hfetch] at hnone
    cases hnone
  · rw [hfetch] at hsome
    cases hsome
    exact hi

theorem step_fares (hm : m.Poised below id waiting) :
    Fares (Machine.Proceeds below waiting) (step m) := by
  have hrules := step_rules m
  generalize step m = r at hrules
  cases hrules with
  | idle | malformed => exact .error rfl hm.code
  | lost _ hprogram => exact .error (m.program_fed _ _ hprogram) hm.code
  | ended => exact .ok hm.leave
  | returned hruns hprogram hfetch => exact .ok (hm.past hruns hprogram hfetch).1.leave
  | carried hruns hprogram hfetch _ hcarries =>
    obtain ⟨hm', hc⟩ := hm.past hruns hprogram hfetch
    cases hcarries.fares hm' (hruns.setContext _) hc with
    | ok hm₁ => exact .ok hm₁
  | stopped hruns hprogram hfetch _ hcarries =>
    obtain ⟨hm', hc⟩ := hm.past hruns hprogram hfetch
    cases hcarries.fares hm' (hruns.setContext _) hc with
    | error hs hm₁ => exact .error hs hm₁

variable {base fuel left : Nat}

/-- Before every step of a run, the active context is at its height. -/
theorem Visits.poised (h : Visits base fuel m left m') (hm : m.Poised below id waiting)
    (hbase : below.length = base) : ∃ id waiting, m'.Poised below id waiting := by
  induction h generalizing id waiting with
  | here => exact ⟨id, waiting, hm⟩
  | next hstep _ ih =>
    have hfares := step_fares hm
    rw [hstep] at hfares
    cases hfares with
    | ok hm₁ =>
      obtain ⟨id, waiting, hm₁⟩ := hm₁
      exact ih hm₁
  | @resumed _ _ _ m₁ _ v hstep hdepth _ ih =>
    have hfares := step_fares hm
    rw [hstep] at hfares
    cases hfares with
    | ok hm₁ =>
      cases waiting with
      -- with nobody waiting the run has ended
      | nil => exact absurd (hbase.symm.trans hm₁.runs.length) (Nat.ne_of_lt hdepth)
      | cons id waiting => exact ih (Machine.Awaits.pushed hm₁ v)

theorem run_fares (hm : m.Poised below id waiting) (hbase : below.length = base) :
    Fares (fun _ m' => m'.Balanced) (run base fuel m) := by
  obtain ⟨left, m', hvisits, hends⟩ := run_rules base fuel m
  obtain ⟨id, waiting, hm'⟩ := hvisits.poised hm hbase
  have hfares := step_fares hm'
  generalize run base fuel m = r at hends
  cases hends with
  | exhausted => exact .error rfl hm'.code
  | stopped hstep =>
    rw [hstep] at hfares
    cases hfares with
    | error hs hm₁ => exact .error hs hm₁
  | answered hstep =>
    rw [hstep] at hfares
    cases hfares with
    | ok hm₁ => exact .ok hm₁.code

theorem Fares.unwindRaised {α : Type} {Q : α → Machine → Prop} {r : EStateM.Result Stop Machine α}
    (h : Fares Q r) (base : Nat) : Fares Q (unwindRaised base r) := by
  cases h with
  | ok hm => exact .ok hm
  | @error s m hs hm =>
    cases s with
    | raised e => exact .error hs (hm.unwind base)
    | fault f => exact .error hs hm
    | exhausted => exact .error rfl hm

theorem launch_fares {start : Action (Option Value)} (hruns : m.activity.Runs below)
    (hstart : Fares (Machine.Proceeds below []) (start m)) :
    Fares (fun _ m' => m'.Balanced) (launch fuel start m) := by
  generalize hr : start m = r at hstart
  cases hstart with
  | @ok answer m' hm' =>
    cases answer with
    | some v =>
      rw [launch_eq_answer hr]
      exact .ok hm'.code
    | none =>
      obtain ⟨id, waiting, hm'⟩ := hm'
      rw [launch_eq_run hr]
      exact (run_fares hm' hruns.length).unwindRaised m.depth
  | error hs hm' =>
    rw [launch_eq_error hr]
    exact Fares.unwindRaised (.error hs hm') m.depth

theorem Call.start_fares {call : Call} (hm : m.Awaits below waiting) {b : Body}
    (hb : m.memory.body? call.method = some b) (hprogram : b.program? = some (code, literals)) :
    Fares (Machine.Proceeds below waiting) (call.start m) := by
  rcases call.start_rules m with ⟨hdepth, heq⟩ | ⟨-, heq⟩
  · rw [heq]
    exact .ok ⟨_, _, hm.activate hdepth hb hprogram⟩
  · rw [heq]
    exact .error rfl hm.code

theorem startMethod_fares (hm : m.Awaits below waiting) (method receiver : Value)
    (args : Array Value) :
    Fares (Machine.Proceeds below waiting) (startMethod method receiver args m) := by
  rcases startMethod_rules m method receiver args with ⟨c, hc, heq⟩ | heq
  · rw [heq]
    exact Call.start_fares hm hc rfl
  · rw [heq]
    exact .error rfl hm.code

theorem startBlock_fares (hm : m.Awaits below waiting) (block : Value) (args : Array Value) :
    Fares (Machine.Proceeds below waiting) (startBlock block args m) := by
  rcases startBlock_rules m block args with ⟨b, hb, heq⟩ | heq
  · rw [heq]
    exact Call.start_fares hm hb rfl
  · rw [heq]
    exact .error rfl hm.code

end

section

variable {m m' : Machine}

theorem allocate_balanced {o : HeapObject} (ho : o.body.Balanced) :
    Upholds Machine.Balanced (allocate o) := by
  intro m hm
  rcases allocate_places o m with ⟨d, v, m', hplaces, heq⟩ | ⟨f, -, heq⟩
  · rw [heq]
    exact .ok (hm.places hplaces ho)
  · rw [heq]
    exact .fault hm.afterFailedCollection

/-- Only code can be unbalanced. -/
theorem Machine.balanced_stable : Stable Machine.Balanced where
  rerooted hm hm' := by
    apply hm.congr
    · rw [hm'.memory]
    · rw [hm'.memory]
      exact hm.epochs
  allocate o ho := allocate_balanced (.of_lasts ho)
  intern name := by
    apply Upholds.get_bind
    intro m
    cases m.symbols.get? name with
    | some v => exact .pure v
    | none =>
      apply Upholds.get_bind
      intro m
      apply (allocate_balanced (o := .new m.core.symbol (.symbol name)) trivial).bind
      intro v
      apply Upholds.bind
      · exact .modify fun m hm => hm.congr rfl hm.epochs
      · exact fun _ => .pure v
  define hm _ _ := hm.write _ fun _ _ _ => trivial
  adopt := by
    apply Upholds.modify
    intro m hm
    refine ⟨hm.epochs, fun v b hb => hm.bodies v b ?_⟩
    rwa [m.body?_adopt] at hb

theorem collectGarbage_balanced : Upholds Machine.Balanced collectGarbage := by
  intro m hm
  unfold collectGarbage
  cases hc : m.memory.collect m.roots with
  | error f => exact .fault hm.afterFailedCollection
  | ok c =>
    rw [← List.append_nil m.roots] at hc
    exact .ok (hm.relocated (.collected hm.epochs hc))

theorem Draft.install_balanced {d : Draft} (hd : d.assembly.code.Balanced) :
    Upholds Machine.Balanced d.install := by
  intro m hm
  apply Machine.balanced_stable.install
  apply Machine.balanced_stable.build _ m hm
  intro c hc
  apply Upholds.get_bind
  intro m
  apply allocate_balanced
  change c.code.Balanced
  rwa [hc]

theorem bootstrap_balanced {settings : Settings} {maxDepth : Nat}
    (h : bootstrap settings maxDepth = .ok m) : m.Balanced := by
  apply bootstrap_keeps _ _ h
  · constructor
    · intro id c hc
      simp at hc
    · intro v b hb
      cases (Machine.body?_bare settings maxDepth v).symm.trans hb
  · apply Machine.balanced_stable.setUp
    · intro className selector primitive
      apply Upholds.get_bind
      intro m
      apply Upholds.bind _ fun _ => .pure ()
      exact Draft.install_balanced Code.Balanced.nil
    · intro className selector v
      apply Upholds.get_bind
      intro m
      apply Upholds.bind _ fun _ => .pure ()
      rw [Draft.constant_eq]
      exact Draft.install_balanced Code.Balanced.constant

namespace Operation

/-- The code that the operation brings in is balanced. -/
def Balanced (op : Operation) : Prop := ∀ b, op.Brings b → b.Balanced

variable {op : Operation} {m₁ : Machine} {fuel left : Nat} {start : Action (Option Value)}
  {ids : List ContextId}

theorem Launches.fares (h : op.Launches m fuel start m₁) (hop : op.Balanced) (hm : m.Balanced)
    (hruns : m.activity.Runs ids) :
    m₁.activity.Runs ids ∧ Fares (Machine.Proceeds ids []) (start m₁) := by
  have hm₁ : m₁.Balanced :=
    h.keeps Machine.balanced_stable (fun o ho => allocate_balanced (hop _ ho)) hm
  have hruns₁ : m₁.activity.Runs ids := by
    rw [h.activity_eq]
    exact hruns
  have hawaits : m₁.Awaits ids [] := ⟨hm₁, hruns₁, fun _ hid => absurd hid List.not_mem_nil⟩
  refine ⟨hruns₁, ?_⟩
  cases h with
  | send => exact (startSend_rules _ _ _ _).fares hawaits
  | executeMethod => exact startMethod_fares hawaits _ _ _
  | callBlock => exact startBlock_fares hawaits _ _
  | evaluate => exact startMethod_fares hawaits _ _ _

theorem Visits.poised (h : op.Visits m left m') (hop : op.Balanced) (hm : m.Balanced)
    (hruns : m.activity.Runs ids) : ∃ id waiting, m'.Poised ids id waiting := by
  obtain ⟨fuel, start, m₁, m₂, hlaunch, hstart, hvisits⟩ := h
  obtain ⟨hruns₁, hfares⟩ := hlaunch.fares hop hm hruns
  rw [hstart] at hfares
  cases hfares with
  | ok hm₂ =>
    obtain ⟨id, waiting, hm₂⟩ := hm₂
    exact hvisits.poised hm₂ hruns₁.length

theorem run_fares (hop : op.Balanced) (hm : m.Balanced) (hnested : m.activity.Nested) :
    Fares (fun _ m' => m'.Balanced) (op.run m) := by
  have hlaunched : (∃ fuel start m₁, op.Launches m fuel start m₁) →
      Fares (fun _ m' => m'.Balanced) (op.run m) := by
    rintro ⟨fuel, start, m₁, hlaunch⟩
    obtain ⟨ids, hruns⟩ := hnested
    obtain ⟨hruns₁, hfares⟩ := hlaunch.fares hop hm hruns
    rw [hlaunch.run_eq]
    exact launch_fares hruns₁ hfares
  rcases launches_or_keeps Machine.balanced_stable (fun o ho => allocate_balanced (hop _ ho))
    collectGarbage_balanced hm with hlaunches | hkept
  · exact hlaunched hlaunches
  · rcases op.launches_or_sated m with hlaunches | hsated
    · exact hlaunched hlaunches
    · generalize hr : op.run m = r at hkept
      cases hkept with
      | ok hm' => exact .ok hm'
      | fault hm' => exact .error (hsated _ _ hr) hm'

end Operation

theorem Attained.balanced (h : Attained (fun _ op => op.Balanced) m) : m.Balanced := by
  induction h with
  | boot hboot => exact bootstrap_balanced hboot
  | @operated m op hm hop ih =>
    have hfares := op.run_fares hop ih hm.nested
    rw [after]
    generalize op.run m = r at hfares
    cases hfares with
    | ok hm' => exact hm'
    | error _ hm' => exact hm'

end

def Draft.countdownBlockHeights (pc : Nat) : Nat := [(5, 1), (10, 2), (19, 1)].lookup pc |>.getD 0

def Draft.countdownHeights (pc : Nat) : Nat :=
  [(1, 1), (6, 1), (12, 1), (17, 2), (26, 1), (64, 1), (69, 1), (74, 1), (85, 1)].lookup pc
    |>.getD 0

theorem Draft.countdown_balanced (owner : Value) : (countdown owner).assembly.code.Balanced := by
  change (countdown .nil).assembly.code.Balanced
  apply Code.Balanced.of_inlined (h := Draft.countdownHeights)
  · decide +kernel
  · have hbodies : ∀ e ∈ (countdown .nil).assembly.code.listing.1,
        Code.HeightMap e.2.inlined Draft.countdownBlockHeights ∧
          ∀ e' ∈ (Code.listing e.2.inlined).1, e'.2.inlined = [] := by decide +kernel
    exact fun e he => .of_plain (hbodies e he).1 (hbodies e he).2

/-- Where a host has brought in balanced code only, or where what it has brought in and
is not balanced is gone: no operation that brings in balanced code stops for want of
operands, and whenever an instruction is to be read, there are exactly as many operands
as the height maps of the code say for that offset. -/
theorem balanced_code_never_underflows {m : Machine}
    (hm : Attained (fun _ op => op.Balanced) m ∨
      Attained (fun _ _ => True) m ∧ ∀ v b, m.memory.body? v = some b → b.Balanced)
    {op : Operation} (hop : op.Balanced) :
    (∀ s m', op.run m = .error s m' → s.starved = false) ∧
    ∀ left m', op.Visits m (left + 1) m' → ∃ id c code literals, m'.Runs id c ∧
      m'.program c.method = .ok (code, literals) ∧ code.Balanced ∧ code.Boundary c.pc ∧
      ∀ h, code.HeightMap h → c.stack.size = h c.pc := by
  obtain ⟨hnested, hbalanced⟩ : m.activity.Nested ∧ m.Balanced := by
    rcases hm with hm | ⟨hm, hbodies⟩
    · exact ⟨hm.nested, hm.balanced⟩
    · exact ⟨hm.nested, hm.epochs, hbodies⟩
  constructor
  · intro s m' hrun
    have hfares := op.run_fares hop hbalanced hnested
    rw [hrun] at hfares
    cases hfares with
    | error hs => exact hs
  · intro left m' hvisits
    obtain ⟨ids, hruns⟩ := hnested
    obtain ⟨id, waiting, hm'⟩ := hvisits.poised hop hbalanced hruns
    obtain ⟨c, hc, b, code, literals, hb, hprogram, hboundary, hheight⟩ := hm'.level
    exact ⟨id, c, code, literals, ⟨hm'.runs.active_eq, hc⟩, Machine.program_eq hb hprogram,
      (hm'.code.bodies _ b hb).of_program? hprogram, hboundary, hheight⟩

theorem countdown_never_underflows : ∃ m m₁ m', Attained (fun _ op => op.Balanced) m ∧
    Operation.countdown.Balanced ∧
    Operation.countdown.run m = .ok (.integer (.ofByte 0)) m' ∧
    Operation.countdown.Visits m 100 m₁ ∧
    (∀ left m₂, Operation.countdown.Visits m (left + 1) m₂ → ∃ id c code literals,
      m₂.Runs id c ∧ m₂.program c.method = .ok (code, literals) ∧ code.Balanced ∧
      code.Boundary c.pc ∧ ∀ h, code.HeightMap h → c.stack.size = h c.pc) := by
  obtain ⟨m, m₁, m', hboot, hvisits, hrun⟩ := countdown_runs
  have hinstall : (Operation.installCountdown m).Balanced := by
    rintro b (hcode | _)
    change Code.Balanced _
    rw [hcode]
    exact Draft.countdown_balanced _
  have hop : Operation.countdown.Balanced := by
    intro b hb
    cases hb
  have hm : Attained (fun _ op => op.Balanced) (after (Operation.installCountdown m).run m) :=
    .operated (.boot hboot) hinstall
  exact ⟨_, m₁, m', hm, hop, hrun, hvisits, (balanced_code_never_underflows (.inl hm) hop).2⟩

end ObjectMachine

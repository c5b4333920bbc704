import ObjectMachine.Proofs.Effects
import ObjectMachine.Proofs.IndexedConstruction
import ObjectMachine.Proofs.Unwinding

/-!
# Running well-indexed code

A machine with well-indexed code never looks for a literal, a temporary or a jump
target that is not there, never meets bytes that are no instruction and never
sends a selector that is no symbol. Every step keeps the machine well indexed, by
one case for each rule, and so does every run.
-/

namespace ObjectMachine

open ObjectMachine.Action

/-- The errors of code that is not well indexed. -/
def RuntimeError.misindexed : RuntimeError → Bool
  | literalOutOfBounds _ _ | temporaryOutOfBounds _ | jumpOutOfBounds _ _ | decode _
  | selectorNotSymbol _ => true
  | _ => false

def Stop.misindexed : Stop → Bool
  | raised e => e.misindexed
  | _ => false

/-- The machine is well indexed afterwards, and no error has come from its code. -/
inductive Sound {α : Type} : EStateM.Result Stop Machine α → Prop
  | ok {a : α} {m : Machine} : m.Indexed → Sound (.ok a m)
  | error {s : Stop} {m : Machine} : s.misindexed = false → m.Indexed → Sound (.error s m)

theorem Kept.sound {α : Type} {r : EStateM.Result Stop Machine α}
    (h : Kept Machine.Indexed r) : Sound r := by
  cases h with
  | ok hm => exact .ok hm
  | fault hm => exact .error rfl hm

def Effect.Indexed (mem : Memory) : Effect → Prop
  | create o => o.body.Indexed mem
  | _ => True

def Effect.AllIndexed (mem : Memory) (r : Except Fault Effect) : Prop :=
  ∀ e, r = .ok e → e.Indexed mem

theorem Primitive.Makes.indexed {m : Machine} {o : HeapObject} (h : Makes m o) :
    o.body.Indexed m.memory := by
  cases h with
  | emptyBlock => exact ⟨0, .nil _ _, fun index hindex => absurd hindex (Nat.not_lt_zero _)⟩
  | other hother => exact .of_lasts hother

theorem Primitive.effect_indexed (m : Machine) (p : Primitive) (receiver : Value)
    (args : List Value) : Effect.AllIndexed m.memory (p.effect m receiver args) := by
  intro e he
  have hproper := (p.effect_regular m receiver args).proper e he
  cases e with
  | create o => exact hproper.indexed
  | _ => trivial

/-- What running code writes is no code. -/
theorem Machine.Indexed.rewrite {m : Machine} (hm : m.Indexed) (v : Value) {g : Body → Body}
    (hg : Body.Rewrites g) : (m.write v g).Indexed := by
  apply hm.write
  · exact fun _ _ hlasts => hg.eq_self (.inl (Body.isFixed_of_lasts hlasts))
  · exact fun _ _ hlasts => hg.eq_self (.inr (Body.isFixed_of_lasts hlasts))

section

variable {m m' : Machine} {receiver : Value} {selector : String} {args : Array Value}

theorem Performs.indexed {e : Effect} {r : EStateM.Result Stop Machine Value} (h : Performs m e r)
    (hm : m.Indexed) (he : e.Indexed m.memory) : Kept Machine.Indexed r := by
  cases h with
  | answer v => exact .ok hm
  | putElement target place v => exact .ok (hm.rewrite target (.element place v))
  | putByte target place byte v => exact .ok (hm.rewrite target (.byte place byte))
  | create o => exact allocate_kept hm he

theorem Wants.indexed {index : Nat} {e : Effect} (h : Wants m index receiver args (.ok e)) :
    e.Indexed m.memory := by
  obtain ⟨row, -, heffect⟩ := h
  exact row.primitive.effect_indexed m receiver args.toList e heffect

theorem Method.call_indexed {method : Value} {c : Method} (hm : m.Indexed)
    (hc : m.memory.body? method = some (.method c)) (receiver : Value) (args : Array Value) :
    (c.call method receiver args).Indexed m.memory := by
  refine ⟨.method c, c.code, c.literals, 0, hc, rfl, ?_, ?_⟩
  · rw [Nat.zero_max]
    exact hm.bodies method _ hc
  · exact fun index hindex => absurd hindex (Nat.not_lt_zero _)

theorem Block.call_indexed {block : Value} {b : Block} (hm : m.Indexed)
    (hb : m.memory.body? block = some (.block b)) (args : Array Value) :
    (b.call block args).Indexed m.memory := by
  obtain ⟨limit, hcode, hlends⟩ := hm.bodies block _ hb
  exact ⟨.block b, b.code, b.literals, limit, hb, rfl, hcode, hlends⟩

theorem Machine.Indexed.note (hm : m.Indexed) (e : Event) : (m.note e).Indexed :=
  hm.withRoots rfl rfl fun _ hv => .inr hv

theorem Finds.indexed {method : Value} {c : Method}
    (h : Finds m receiver selector args method c m') (hm : m.Indexed) :
    m'.Indexed ∧ m'.memory.body? method = some (.method c) := by
  cases h with
  | found _ hentry => exact ⟨hm.note _, Machine.body?_of_entry hentry⟩

theorem Calls.indexed {call : Call} (h : Calls m receiver selector args call m')
    (hm : m.Indexed) : m'.Indexed ∧ call.Indexed m'.memory := by
  cases h with
  | plain hfinds =>
    obtain ⟨hm', hc⟩ := hfinds.indexed hm
    exact ⟨hm', Method.call_indexed hm' hc _ _⟩
  | declined hfinds =>
    obtain ⟨hm', hc⟩ := hfinds.indexed hm
    exact ⟨hm'.note _, Method.call_indexed hm' hc _ _⟩
  | block hfinds _ _ hb =>
    obtain ⟨hm', -⟩ := hfinds.indexed hm
    exact ⟨hm', Block.call_indexed hm' hb _⟩

theorem Replies.sound {index : Nat} {r : EStateM.Result Stop Machine Reply}
    (h : Replies m index receiver args r) (hm : m.Indexed) : Sound r := by
  cases h with
  | answered hwants hperforms =>
    cases hperforms.indexed hm hwants.indexed with
    | ok hm' => exact .ok hm'
  | failed hwants hperforms =>
    cases hperforms.indexed hm hwants.indexed with
    | fault hm' => exact .error rfl hm'
  | declined => exact .ok hm
  | entered _ hb => exact .ok (hm.activate (Block.call_indexed hm hb _))
  | unknown | broken | notBlock | tooDeep => exact .error rfl hm

theorem Responds.sound {r : EStateM.Result Stop Machine (Option Value)}
    (h : Responds m receiver selector args r) (hm : m.Indexed) : Sound r := by
  cases h with
  | unresolved | missing => exact .error rfl hm
  | corrupt => exact .error rfl (hm.note _)
  | stopped hfinds _ hreplies =>
    cases hreplies.sound (hfinds.indexed hm).1 with
    | error hs hm' => exact .error hs hm'
  | answered hfinds _ hreplies =>
    cases hreplies.sound (hfinds.indexed hm).1 with
    | ok hm' => exact .ok hm'
  | entered hcalls =>
    obtain ⟨hm', hcall⟩ := hcalls.indexed hm
    exact .ok (hm'.activate hcall)
  | tooDeep hcalls => exact .error rfl (hcalls.indexed hm).1

end

theorem Memory.exists_temporary_of_homeFrom {mem : Memory} {index fuel : Nat}
    {id home : ContextId} (h : mem.homeFrom index fuel id = some home) :
    ∃ c, mem.contexts[home]? = some c ∧ index < c.temporaries.size := by
  induction fuel generalizing id with
  | zero => cases h
  | succ fuel ih =>
    rw [homeFrom] at h
    cases hc : mem.contexts[id]? with
    | none =>
      rw [hc] at h
      cases h
    | some c =>
      rw [hc] at h
      dsimp only at h
      split_ifs at h with hindex
      · cases h
        exact ⟨c, hc, hindex⟩
      · cases houter : c.outer with
        | none =>
          rw [houter] at h
          cases h
        | some outer =>
          rw [houter] at h
          exact ih h

theorem Memory.temporary?_ne_none {mem : Memory} {id home : ContextId} {index : Nat}
    (h : mem.home? id index = some home) : mem.temporary? id index ≠ none := by
  obtain ⟨c, hc, hindex⟩ := exists_temporary_of_homeFrom h
  simp [temporary?, h, hc, hindex]

theorem Memory.IsSymbol.symbolName? {m : Machine} {v : Value} (h : m.memory.IsSymbol v) :
    m.symbolName? v ≠ none := by
  obtain ⟨name, hbody⟩ := h
  simp [Machine.symbolName?, hbody]

namespace Code.WellIndexed

variable {α : Type} {named : α → Prop} {code : Code} {literals : Array α} {limit : Nat}

/-- A jump of well-indexed code lands at an instruction. -/
theorem lands (h : code.WellIndexed named literals limit) {c : Context} {pc : Nat}
    {kind : JumpKind} {offset : Int32} (hi : (pc, .jump kind offset) ∈ code.listing.1)
    (hpc : c.pc = pc + (Instruction.jump kind offset).size) :
    ∃ target, c.Lands code offset target ∧ code.Boundary target := by
  obtain ⟨target, i, htarget, hmem⟩ := h.instruction hi
  obtain ⟨hfetch, -⟩ := (listing_reads h.readable).entry hmem
  have hinside : target < code.length := by
    apply Nat.lt_of_not_le
    intro hout
    rw [fetch?_eq_none.mpr hout] at hfetch
    cases hfetch
  exact ⟨target, ⟨hpc ▸ htarget, hinside⟩, .inr ⟨i, hmem⟩⟩

end Code.WellIndexed

section

variable {m : Machine} {id : ContextId} {c : Context} {code : Code} {literals : Array Value}
  {limit pc : Nat} {i : Instruction}

theorem Operates.boundary {stack : Array Value} {pc' : Nat}
    (h : Operates m id c code literals i stack pc') (hc : c.Stands m.memory id code literals limit)
    (hi : (pc, i) ∈ code.listing.1) (hpc : c.pc = pc + i.size) : code.Boundary pc' := by
  have hjump : ∀ {kind : JumpKind} {offset : Int32} {target : Nat}, i = .jump kind offset →
      c.Lands code offset target → code.Boundary target := by
    rintro kind offset target rfl hlands
    obtain ⟨target', hlands', hboundary⟩ := hc.indexed.lands hi hpc
    obtain rfl : target = target' := Int.ofNat.inj (hlands.eq.symm.trans hlands'.eq)
    exact hboundary
  cases h with
  | jump hlands => exact hjump rfl hlands
  | taken _ _ _ hlands => exact hjump rfl hlands
  | _ => exact hc.boundary

/-- Well-indexed instructions are refused for other reasons only. -/
theorem Refuses.not_misindexed {s : Stop} {stack : Array Value}
    (h : Refuses m id c code literals i s stack) (hc : c.Stands m.memory id code literals limit)
    (hi : (pc, i) ∈ code.listing.1) (hpc : c.pc = pc + i.size) : s.misindexed = false := by
  have hindexed := hc.indexed.instruction hi
  cases h with
  | pushLiteral hout => exact absurd hindexed (Nat.not_lt.mpr hout)
  | @pushTemporary index hnone =>
    obtain ⟨_, home, ⟨⟩, hhome⟩ := hc.lends index.toNat hindexed
    exact absurd hnone (Memory.temporary?_ne_none hhome)
  | @storeTemporary index v _ hnone =>
    obtain ⟨_, home, ⟨⟩, hhome⟩ := hc.lends index.toNat hindexed
    rw [hnone] at hhome
    cases hhome
  | jump hnone =>
    obtain ⟨target, hlands, -⟩ := hc.indexed.lands hi hpc
    exact absurd hlands (hnone target)
  | taken _ _ _ hnone =>
    obtain ⟨target, hlands, -⟩ := hc.indexed.lands hi hpc
    exact absurd hlands (hnone target)
  | noSelector hout =>
    obtain ⟨l, hl, -⟩ := hindexed
    rw [Array.getElem?_eq_none hout] at hl
    cases hl
  | notSymbol hselector hname =>
    obtain ⟨l, hl, hsymbol⟩ := hindexed
    rw [hselector] at hl
    cases hl
    exact absurd hname hsymbol.symbolName?
  | manyLiterals hmany => exact absurd hindexed (Nat.not_le.mpr hmany)
  | _ => rfl

theorem newBlock_indexed {b : Block} {r : EStateM.Result Stop Machine Value} (hm : m.Indexed)
    (hb : (Body.block b).Indexed m.memory) (h : newBlock b m = r) : Kept Machine.Indexed r :=
  h ▸ allocate_kept hm hb

theorem Machine.Indexed.setStack (hm : m.Indexed) (hruns : m.Runs id c) (stack : Array Value) :
    (m.setContext id { c with stack }).Indexed :=
  hm.setContext hruns.context ⟨rfl, rfl, rfl, rfl, rfl⟩ (.inl rfl)

theorem Carries.sound {r : EStateM.Result Stop Machine Unit}
    (h : Carries m id c code literals i r) (hm : m.Indexed) (hruns : m.Runs id c)
    (hc : c.Stands m.memory id code literals limit) (hi : (pc, i) ∈ code.listing.1)
    (hpc : c.pc = pc + i.size) : Sound r := by
  cases h with
  | operated hoperates =>
    have hboundary := hoperates.boundary hc hi hpc
    apply Sound.ok
    refine hm.setContext hruns.context ⟨rfl, rfl, rfl, rfl, rfl⟩ (.inr ?_)
    exact ⟨code, literals, limit, hc.program, hc.indexed, hc.lends, hboundary⟩
  | refused hrefuses =>
    exact .error (hrefuses.not_misindexed hc hi hpc) (hm.setStack hruns _)
  | @slotStored index v => exact .ok (hm.rewrite c.receiver (.slot index.toNat v))
  | temporaryStored => exact .ok (hm.setTemporary _ _ _)
  | answered _ _ _ _ hresponds =>
    cases hresponds.sound (hm.setStack hruns _) with
    | ok hm' => exact .ok (hm'.pushed _)
  | entered _ _ _ _ hresponds =>
    cases hresponds.sound (hm.setStack hruns _) with
    | ok hm' => exact .ok hm'
  | stopped _ _ _ _ hresponds =>
    cases hresponds.sound (hm.setStack hruns _) with
    | error hs hm' => exact .error hs hm'
  | blockMade _ hnew =>
    cases newBlock_indexed hm ⟨limit, hc.indexed.block hi, hc.lends⟩ hnew with
    | ok hm' => exact .ok (hm'.pushed _)
  | blockNotMade _ hnew =>
    cases newBlock_indexed hm ⟨limit, hc.indexed.block hi, hc.lends⟩ hnew with
    | fault hm' => exact .error rfl hm'
  | @blockEntered _ rest _ _ _ _ _ hb =>
    have hm' := hm.setStack hruns rest
    exact .ok (hm'.activate (Block.call_indexed hm' hb _))
  | tooDeep => exact .error rfl (hm.setStack hruns _)

end

section

variable {m m' : Machine} {id : ContextId} {c : Context} {code : Code} {literals : Array Value}

theorem Machine.program_eq {v : Value} {b : Body} (hb : m.memory.body? v = some b)
    (hprogram : b.program? = some (code, literals)) : m.program v = .ok (code, literals) := by
  rw [program, body, hb]
  cases b with
  | method | block =>
    cases hprogram
    rfl
  | _ => cases hprogram

theorem Machine.Indexed.stands (hm : m.Indexed) (hruns : m.Runs id c)
    (hprogram : m.program c.method = .ok (code, literals)) :
    ∃ limit, c.Stands m.memory id code literals limit := by
  obtain ⟨c', hc', code', literals', limit, hstands⟩ := hm.running id (.active hruns.active)
  rw [hruns.context] at hc'
  cases hc'
  obtain ⟨b, hb, hb'⟩ := hstands.program
  rw [program_eq hb hb'] at hprogram
  cases hprogram
  exact ⟨limit, hstands⟩

/-- An instruction that is read stands in the listing, and after it the context is
at a boundary again. -/
theorem Machine.Indexed.past (hm : m.Indexed) (hruns : m.Runs id c)
    (hprogram : m.program c.method = .ok (code, literals)) {i : Instruction}
    (hfetch : code.fetch? c.pc = some (.ok i)) :
    (m.setContext id (c.past i)).Indexed ∧ (c.pc, i) ∈ code.listing.1 := by
  obtain ⟨limit, hc⟩ := hm.stands hruns hprogram
  rcases hc.boundary.fetch? hc.indexed.readable with hnone | ⟨i', hsome, hi, hnext⟩
  · rw [hfetch] at hnone
    cases hnone
  · rw [hfetch] at hsome
    cases hsome
    refine ⟨hm.setContext hruns.context ⟨rfl, rfl, rfl, rfl, rfl⟩ (.inr ?_), hi⟩
    exact ⟨code, literals, limit, hc.program, hc.indexed, hc.lends, hnext⟩

theorem step_sound (hm : m.Indexed) : Sound (step m) := by
  have hcarried : ∀ {id : ContextId} {c : Context} {code : Code} {literals : Array Value}
      {i : Instruction} {r : EStateM.Result Stop Machine Unit}, m.Runs id c →
      m.program c.method = .ok (code, literals) → code.fetch? c.pc = some (.ok i) →
      Carries (m.setContext id (c.past i)) id (c.past i) code literals i r → Sound r := by
    intro id c code literals i r hruns hprogram hfetch hcarries
    obtain ⟨hm', hi⟩ := hm.past hruns hprogram hfetch
    have hruns' := hruns.setContext (c.past i)
    obtain ⟨limit, hc⟩ := hm'.stands hruns' hprogram
    exact hcarries.sound hm' hruns' hc hi rfl
  have hrules := step_rules m
  generalize step m = r at hrules
  cases hrules with
  | idle | lost => exact .error rfl hm
  | malformed hruns hprogram hfetch =>
    obtain ⟨limit, hc⟩ := hm.stands hruns hprogram
    rcases hc.boundary.fetch? hc.indexed.readable with hnone | ⟨i, hsome, -⟩
    · rw [hfetch] at hnone
      cases hnone
    · rw [hfetch] at hsome
      cases hsome
  | ended => exact .ok hm.leave
  | returned hruns hprogram hfetch => exact .ok (hm.past hruns hprogram hfetch).1.leave
  | carried hruns hprogram hfetch _ hcarries =>
    cases hcarried hruns hprogram hfetch hcarries with
    | ok hm' => exact .ok hm'
  | stopped hruns hprogram hfetch _ hcarries =>
    cases hcarried hruns hprogram hfetch hcarries with
    | error hs hm' => exact .error hs hm'

variable {base fuel left : Nat}

/-- Every machine that a run goes through is well indexed. -/
theorem Visits.indexed (h : Visits base fuel m left m') (hm : m.Indexed) : m'.Indexed := by
  induction h with
  | here => exact hm
  | next hstep _ ih =>
    have hsound := step_sound hm
    rw [hstep] at hsound
    cases hsound with
    | ok hm₁ => exact ih hm₁
  | resumed hstep _ _ ih =>
    have hsound := step_sound hm
    rw [hstep] at hsound
    cases hsound with
    | ok hm₁ => exact ih (hm₁.pushed _)

theorem run_sound (hm : m.Indexed) (base fuel : Nat) : Sound (run base fuel m) := by
  obtain ⟨left, m', hvisits, hends⟩ := run_rules base fuel m
  have hsound := step_sound (hvisits.indexed hm)
  generalize run base fuel m = r at hends
  cases hends with
  | exhausted => exact .error rfl (hvisits.indexed hm)
  | stopped hstep =>
    rw [hstep] at hsound
    cases hsound with
    | error hs hm₁ => exact .error hs hm₁
  | answered hstep =>
    rw [hstep] at hsound
    cases hsound with
    | ok hm₁ => exact .ok hm₁

theorem Sound.unwindRaised {α : Type} {r : EStateM.Result Stop Machine α} (h : Sound r)
    (base : Nat) : Sound (unwindRaised base r) := by
  cases h with
  | ok hm => exact .ok hm
  | @error s m hs hm =>
    cases s with
    | raised e => exact .error hs (hm.unwind base)
    | fault f => exact .error rfl hm
    | exhausted => exact .error rfl hm

theorem launch_sound {start : Action (Option Value)} (hstart : Sound (start m)) :
    Sound (launch fuel start m) := by
  generalize hr : start m = r at hstart
  cases hstart with
  | @ok answer m' hm' =>
    cases answer with
    | some v =>
      rw [launch_eq_answer hr]
      exact .ok hm'
    | none =>
      rw [launch_eq_run hr]
      exact (run_sound hm' m.depth fuel).unwindRaised m.depth
  | error hs hm' =>
    rw [launch_eq_error hr]
    exact (Sound.error hs hm').unwindRaised m.depth

theorem Call.start_sound {call : Call} (hm : m.Indexed) (hcall : call.Indexed m.memory) :
    Sound (call.start m) := by
  rcases call.start_rules m with ⟨-, heq⟩ | ⟨-, heq⟩
  · rw [heq]
    exact .ok (hm.activate hcall)
  · rw [heq]
    exact .error rfl hm

theorem startMethod_sound (hm : m.Indexed) (method receiver : Value) (args : Array Value) :
    Sound (startMethod method receiver args m) := by
  rcases startMethod_rules m method receiver args with ⟨c, hc, heq⟩ | heq
  · rw [heq]
    exact Call.start_sound hm (Method.call_indexed hm hc receiver args)
  · rw [heq]
    exact .error rfl hm

theorem startBlock_sound (hm : m.Indexed) (block : Value) (args : Array Value) :
    Sound (startBlock block args m) := by
  rcases startBlock_rules m block args with ⟨b, hb, heq⟩ | heq
  · rw [heq]
    exact Call.start_sound hm (Block.call_indexed hm hb args)
  · rw [heq]
    exact .error rfl hm

end

namespace Operation

def WellIndexed (mem : Memory) : Operation → Prop
  | install draft | evaluate _ draft => draft.WellIndexed mem
  | newMethod c => c.code.WellIndexed mem.IsSymbol c.literals c.temporaries.length
  | newBlock b => b.code.WellIndexed mem.IsSymbol b.literals b.temporaryCount
  | _ => True

variable {op : Operation} {m m' m₁ : Machine} {fuel left : Nat} {start : Action (Option Value)}

theorem Launches.indexed (h : op.Launches m fuel start m₁) (hm : m.Indexed)
    (hop : op.WellIndexed m.memory) : m₁.Indexed ∧ Sound (start m₁) := by
  cases h with
  | send => exact ⟨hm, (startSend_rules _ _ _ _).sound hm⟩
  | executeMethod => exact ⟨hm, startMethod_sound hm _ _ _⟩
  | callBlock => exact ⟨hm, startBlock_sound hm _ _⟩
  | evaluate hbuild =>
    have hkept := Draft.build_kept hm hop
    rw [hbuild] at hkept
    cases hkept with
    | ok hm₁ => exact ⟨hm₁, startMethod_sound hm₁ _ _ _⟩

theorem Visits.indexed (h : op.Visits m left m') (hm : m.Indexed)
    (hop : op.WellIndexed m.memory) : m'.Indexed := by
  obtain ⟨fuel, start, m₁, m₂, hlaunch, hstart, hvisits⟩ := h
  obtain ⟨-, hsound⟩ := hlaunch.indexed hm hop
  rw [hstart] at hsound
  cases hsound with
  | ok hm₂ => exact hvisits.indexed hm₂

theorem run_sound (op : Operation) (hm : m.Indexed) (hop : op.WellIndexed m.memory) :
    Sound (op.run m) := by
  have hlaunched : ∀ {fuel : Nat} {start : Action (Option Value)} {m₁ : Machine},
      op.Launches m fuel start m₁ → Sound (op.run m) := by
    intro fuel start m₁ hlaunch
    rw [hlaunch.run_eq]
    exact launch_sound (hlaunch.indexed hm hop).2
  have hmade : ∀ o : Machine → HeapObject, (o m).body.Indexed m.memory →
      Sound ((get >>= fun m => allocate (o m)) m) :=
    fun o ho => (allocate_kept hm ho).sound
  have hstable := Machine.indexed_stable
  cases op with
  | send => exact hlaunched (.send ..)
  | executeMethod => exact hlaunched (.executeMethod ..)
  | callBlock => exact hlaunched (.callBlock ..)
  | evaluate fuel draft =>
    cases hbuild : draft.build m with
    | ok method m' => exact hlaunched (.evaluate hbuild)
    | error s m' =>
      have hkept := Draft.build_kept hm hop
      rw [hbuild] at hkept
      rw [run, ObjectMachine.evaluate, bind_error hbuild]
      cases hkept with
      | fault hm' => exact .error rfl hm'
  | newClass name superclass ownVariables => exact (hstable.newClass _ _ _ m hm).sound
  | install draft => exact (Draft.install_kept hm hop).sound
  | intern name => exact (hstable.intern name m hm).sound
  | newInstance classRef size => exact (hstable.newInstance classRef size m hm).sound
  | newMethod c => exact hmade _ hop
  | newBlock b =>
    apply hmade
    refine ⟨0, ?_, fun index hindex => absurd hindex (Nat.not_lt_zero _)⟩
    rw [Nat.zero_max]
    exact hop
  | setGlobal name v =>
    apply Kept.sound
    apply Upholds.bind (P := Machine.Indexed) _ (fun _ => .pure _) m hm
    exact hstable.reroot fun _ => ⟨rfl, rfl, rfl, rfl, rfl⟩
  | setScratch values =>
    apply Kept.sound
    apply Upholds.bind (P := Machine.Indexed) _ (fun _ => .pure _) m hm
    exact hstable.reroot fun _ => ⟨rfl, rfl, rfl, rfl, rfl⟩
  | collectGarbage => exact (collectGarbage_kept.bind (fun _ => .pure _) m hm).sound
  | _ => exact hmade _ trivial

end Operation

theorem Sound.after {x : Action Value} {m : Machine} (h : Sound (x m)) : (after x m).Indexed := by
  rw [Action.after]
  generalize x m = r at h
  cases h with
  | ok hm => exact hm
  | error _ hm => exact hm

theorem Attained.indexed {m : Machine}
    (h : Attained (fun m op => op.WellIndexed m.memory) m) : m.Indexed := by
  induction h with
  | boot hboot => exact bootstrap_indexed hboot
  | operated _ hop ih => exact (Operation.run_sound _ ih hop).after

/-- Where a host has brought in well-indexed code only and does so again: no error
comes from a literal, a temporary or a jump out of bounds, from bytes that are no
instruction or from a selector that is no symbol, and whenever an instruction is to
be read, the offset is the start of an instruction of the code or its end. -/
theorem well_indexed_code_stays_in_bounds {m : Machine}
    (hm : Attained (fun m op => op.WellIndexed m.memory) m) {op : Operation}
    (hop : op.WellIndexed m.memory) :
    (∀ e m', op.run m = .error (.raised e) m' → e.misindexed = false) ∧
    ∀ left m', op.Visits m (left + 1) m' → ∃ id c code literals, m'.Runs id c ∧
      m'.program c.method = .ok (code, literals) ∧ code.listing.2.error = none ∧
      code.Boundary c.pc := by
  constructor
  · intro e m' hrun
    have hsound := op.run_sound hm.indexed hop
    rw [hrun] at hsound
    cases hsound with
    | error he => exact he
  · intro left m' hvisits
    obtain ⟨hnested, hdepth, -⟩ := hvisits.nested hm.nested
    obtain ⟨id, -, hactive, -⟩ := hnested.exists_active (Nat.zero_lt_of_lt hdepth)
    have hindexed := hvisits.indexed hm.indexed hop
    obtain ⟨c, hc, code, literals, limit, hstands⟩ := hindexed.running id (.active hactive)
    obtain ⟨b, hb, hprogram⟩ := hstands.program
    exact ⟨id, c, code, literals, ⟨hactive, hc⟩, Machine.program_eq hb hprogram,
      hstands.indexed.readable, hstands.boundary⟩

/-- A method that counts its receiver down to zero. The block that takes one off
reads a temporary of the method. -/
def Draft.countdown (owner : Value) : Draft where
  owner := owner
  selector := "countdown"
  literals := #[.value (.integer (.ofByte 0)), .symbol ">", .value (.integer (.ofByte 1)),
    .symbol "-"]
  temporaries := ["n"]
  primitive := none
  assembly :=
    let body := [Instruction.pushTemporary 0, .pushLiteral 2, .send 3 1, .returnTop]
    let instructions := [.pushSelf, .storeTemporary 0, .pop, .pushTemporary 0, .pushLiteral 0,
      .send 1 1, .jump .ifFalse 49, .createBlock (body.flatMap Instruction.encode) 4 0,
      .executeBlock 0, .storeTemporary 0, .pop, .jump .always (-73), .pushTemporary 0, .returnTop]
    ⟨instructions.flatMap Instruction.encode⟩

theorem Draft.countdown_wellIndexed (owner : Value) (mem : Memory) :
    (countdown owner).WellIndexed mem := by
  have hcode : (countdown owner).assembly.code.WellIndexed
      (fun l => l = .symbol ">" ∨ l = .symbol "-") (countdown owner).literals 1 := by
    change Code.WellIndexed (fun l => l = .symbol ">" ∨ l = .symbol "-")
      (countdown .nil).assembly.code (countdown .nil).literals 1
    decide +kernel
  apply hcode.transfer rfl
  intro k l l' hl hl' hname
  rw [hl] at hl'
  cases hl'
  rcases hname with rfl | rfl <;> trivial

def Operation.countdown : Operation := .send 100 (.integer (.ofByte 3)) "countdown" #[]

def Operation.installCountdown (m : Machine) : Operation :=
  .install (.countdown ((m.globals.get? "Integer").getD .nil))

theorem countdown_runs : ∃ m m₁ m', bootstrap .tight 5 = .ok m ∧
    Operation.countdown.Visits (after (Operation.installCountdown m).run m) 100 m₁ ∧
    Operation.countdown.run (after (Operation.installCountdown m).run m) =
      .ok (.integer (.ofByte 0)) m' := by
  have hboots : boots .tight 5 (fun m =>
      let m := after (Operation.installCountdown m).run m
      Action.answers (startSend (.integer (.ofByte 3)) "countdown" #[]) m
          (fun early _ => decide (early = none)) &&
        Action.answers Operation.countdown.run m
          fun v _ => decide (v = .integer (.ofByte 0))) = true := by decide +kernel
  obtain ⟨m, hboot, htest⟩ := exists_of_boots hboots
  obtain ⟨hstarts, hcounts⟩ := Bool.and_eq_true_iff.mp htest
  obtain ⟨early, m₁, hstart, hearly⟩ := Action.exists_of_answers hstarts
  obtain rfl := of_decide_eq_true hearly
  obtain ⟨v, m', hcount, hzero⟩ := Action.exists_of_answers hcounts
  obtain rfl := of_decide_eq_true hzero
  exact ⟨m, m₁, m', hboot, ⟨100, _, _, m₁, .send .., hstart, .here 100 m₁⟩, hcount⟩

theorem countdown_ends : ∃ m m₁ m', Attained (fun m op => op.WellIndexed m.memory) m ∧
    Operation.countdown.Visits m 100 m₁ ∧
    Operation.countdown.run m = .ok (.integer (.ofByte 0)) m' := by
  obtain ⟨m, m₁, m', hboot, hvisits, hrun⟩ := countdown_runs
  have hop : (Operation.installCountdown m).WellIndexed m.memory :=
    Draft.countdown_wellIndexed _ _
  exact ⟨_, m₁, m', .operated (.boot hboot) hop, hvisits, hrun⟩

theorem countdown_stays_in_bounds : ∃ m m₁ m',
    Attained (fun m op => op.WellIndexed m.memory) m ∧
    Operation.countdown.WellIndexed m.memory ∧
    Operation.countdown.run m = .ok (.integer (.ofByte 0)) m' ∧
    Operation.countdown.Visits m 100 m₁ ∧
    (∀ left m₂, Operation.countdown.Visits m (left + 1) m₂ → ∃ id c code literals,
      m₂.Runs id c ∧ m₂.program c.method = .ok (code, literals) ∧
      code.listing.2.error = none ∧ code.Boundary c.pc) := by
  obtain ⟨m, m₁, m', hm, hvisits, hrun⟩ := countdown_ends
  have hop : Operation.countdown.WellIndexed m.memory := trivial
  exact ⟨m, m₁, m', hm, hop, hrun, hvisits, (well_indexed_code_stays_in_bounds hm hop).2⟩

end ObjectMachine

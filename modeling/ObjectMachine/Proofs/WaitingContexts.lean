import ObjectMachine.Proofs.BalancedMachine
import ObjectMachine.Proofs.Lexical
import ObjectMachine.Proofs.Structure

/-!
# Contexts that wait

A context waits while contexts above it run. What these do leaves it as it is: its
operands, its code and its place there, its receiver and its arguments. Collections may
move what these refer to. Its temporaries can be set only from inside, through the outer
links of a block, and no context that is newer gets inside without such a block.
-/

namespace ObjectMachine

open ObjectMachine.Action

namespace Context

/-- What the context refers to, apart from its temporaries. -/
def frameValues (c : Context) : List Value :=
  c.method :: c.receiver :: (c.args.toList ++ c.stack.toList)

/-- The context `c` as `c'`, where `d` has brought it. Its temporaries may be others. -/
structure Carried (d : Displacement) (c c' : Context) : Prop where
  kept : ∀ v ∈ c.frameValues, d.Keeps v
  method : c'.method = c.method.rename d.place
  receiver : c'.receiver = c.receiver.rename d.place
  args : c'.args = c.args.map (Value.rename d.place)
  stack : c'.stack = c.stack.map (Value.rename d.place)
  pc : c'.pc = c.pc
  sender : c'.sender = c.sender
  outer : c'.outer = c.outer
  temporaryCount : c'.temporaries.size = c.temporaries.size

/-- The temporaries of `c'` are those of `c`, where `d` has brought them. -/
structure KeepsTemporaries (d : Displacement) (c c' : Context) : Prop where
  kept : ∀ v ∈ c.temporaries, d.Keeps v
  eq : c'.temporaries = c.temporaries.map (Value.rename d.place)

variable {c c₁ c' : Context} {d e : Displacement}

theorem Carried.frameValues_eq (h : c.Carried d c') :
    c'.frameValues = c.frameValues.map (Value.rename d.place) := by
  simp [frameValues, h.method, h.receiver, h.args, h.stack]

theorem Carried.trans (h : c.Carried d c₁) (h' : c₁.Carried e c') :
    c.Carried (d.andThen e) c' := by
  have hrename := d.rename_andThen e
  constructor
  · intro v hv
    refine Displacement.keeps_andThen.mpr ⟨h.kept v hv, h'.kept _ ?_⟩
    rw [h.frameValues_eq]
    exact List.mem_map_of_mem hv
  · rw [h'.method, h.method, hrename, Function.comp_apply]
  · rw [h'.receiver, h.receiver, hrename, Function.comp_apply]
  · rw [h'.args, h.args, hrename, Array.map_map]
  · rw [h'.stack, h.stack, hrename, Array.map_map]
  · exact h'.pc.trans h.pc
  · exact h'.sender.trans h.sender
  · exact h'.outer.trans h.outer
  · exact h'.temporaryCount.trans h.temporaryCount

theorem KeepsTemporaries.trans (h : c.KeepsTemporaries d c₁) (h' : c₁.KeepsTemporaries e c') :
    c.KeepsTemporaries (d.andThen e) c' := by
  constructor
  · intro v hv
    refine Displacement.keeps_andThen.mpr ⟨h.kept v hv, h'.kept _ ?_⟩
    rw [h.eq]
    exact Array.mem_map_of_mem hv
  · rw [h'.eq, h.eq, d.rename_andThen e, Array.map_map]

theorem KeepsTemporaries.still (c : Context) : c.KeepsTemporaries .still c := by
  have hrename : Value.rename Displacement.still.place = id := Value.rename_id
  exact ⟨fun v _ => Displacement.keeps_still v, by rw [hrename, Array.map_id]⟩

/-- Temporaries are set in place. -/
theorem Carried.inPlace (c : Context) {temporaries : Array Value}
    (hsize : temporaries.size = c.temporaries.size) :
    c.Carried .still { c with temporaries } := by
  have hrename : Value.rename Displacement.still.place = id := Value.rename_id
  constructor
  · exact fun v _ => Displacement.keeps_still v
  · rw [hrename, id]
  · rw [hrename, id]
  · rw [hrename, Array.map_id]
  · rw [hrename, Array.map_id]
  · rfl
  · rfl
  · rfl
  · exact hsize

theorem Carried.still (c : Context) : c.Carried .still c := .inPlace c rfl

/-- A collection that keeps what a context refers to carries it along. -/
theorem carried_mapEdges (hkept : ∀ v ∈ c.edges, d.Keeps v) (epoch : Nat) :
    c.Carried d { c.mapEdges (Value.rename d.place) with epoch } ∧
      c.KeepsTemporaries d { c.mapEdges (Value.rename d.place) with epoch } := by
  rw [mapEdges_eq]
  refine ⟨⟨fun v hv => hkept v ?_, rfl, rfl, rfl, rfl, rfl, rfl, rfl, Array.size_map⟩,
    fun v hv => hkept v ?_, rfl⟩
  · simp only [frameValues, List.mem_cons, List.mem_append] at hv
    simp only [edges, List.mem_cons, List.mem_append]
    tauto
  · simp [edges, hv]

end Context

namespace Memory

/-- The context `k` is `id` or has it around. -/
def Inside (mem : Memory) (k id : ContextId) : Prop := Relation.ReflTransGen mem.OuterLink k id

variable {mem mem' : Memory} {id home : ContextId} {index : Nat}

theorem OuterLink.congr {k o : ContextId} (h : mem'.OuterLink k o)
    (houter : ∀ k : ContextId,
      (mem'.contexts[k]?).map Context.outer = (mem.contexts[k]?).map Context.outer) :
    mem.OuterLink k o := by
  obtain ⟨c', hc', ho⟩ := h
  have hk := houter k
  rw [hc'] at hk
  obtain ⟨c, hc, heq⟩ := Option.map_eq_some_iff.mp hk.symm
  exact ⟨c, hc, heq.trans ho⟩

theorem inside_of_homeFrom {fuel : Nat} (h : mem.homeFrom index fuel id = some home) :
    mem.Inside id home := by
  induction fuel generalizing id with
  | zero => cases h
  | succ fuel ih =>
    rw [homeFrom] at h
    cases hc : mem.contexts[id]? with
    | none =>
      rw [hc] at h
      cases h
    | some c =>
      rw [hc] at h
      dsimp only at h
      split_ifs at h with hindex
      · cases h
        exact .refl
      · cases houter : c.outer with
        | none =>
          rw [houter] at h
          cases h
        | some outer =>
          rw [houter] at h
          exact .head ⟨c, hc, houter⟩ (ih h)

end Memory

/-- No block is inside the context `id`, and no context from `n` on. -/
structure Machine.Uncaptured (n : Nat) (id : ContextId) (m : Machine) : Prop where
  blocks : ∀ v b o, m.memory.body? v = some b → b.outer? = some o → ¬m.memory.Inside o id
  contexts : ∀ k, n ≤ k → ¬m.memory.Inside k id

namespace Machine.Uncaptured

variable {n : Nat} {id : ContextId} {m m' : Machine} {d : Displacement}

theorem start (hid : id < m.memory.contexts.size)
    (h : ∀ v b o, m.memory.body? v = some b → b.outer? = some o → ¬m.memory.Inside o id) :
    m.Uncaptured m.memory.contexts.size id := by
  refine ⟨h, fun k hk hinside => ?_⟩
  rcases Relation.ReflTransGen.cases_head hinside with rfl | ⟨o, ⟨c, hc, -⟩, -⟩
  · exact Nat.not_lt.mpr hk hid
  · exact Nat.not_lt.mpr hk (Array.getElem?_eq_some_iff.mp hc).1

theorem carry (h : m.Uncaptured n id)
    (houter : ∀ k : ContextId,
      (m'.memory.contexts[k]?).map Context.outer = (m.memory.contexts[k]?).map Context.outer)
    (hblocks : ∀ v' b' o, m'.memory.body? v' = some b' → b'.outer? = some o →
      (∃ v b, m.memory.body? v = some b ∧ b.outer? = some o) ∨ n ≤ o) :
    m'.Uncaptured n id := by
  have hinside : ∀ k, m'.memory.Inside k id → m.memory.Inside k id := by
    intro k hk
    induction hk using Relation.ReflTransGen.head_induction_on with
    | refl => exact .refl
    | head hlink _ ih => exact .head (hlink.congr houter) ih
  constructor
  · intro v' b' o hb' ho hk
    rcases hblocks v' b' o hb' ho with ⟨v, b, hb, ho⟩ | ho
    · exact h.blocks v b o hb ho (hinside o hk)
    · exact h.contexts o ho (hinside o hk)
  · exact fun k hn hk => h.contexts k hn (hinside k hk)

/-- Contexts may change, but for what is around them. -/
theorem withContext (h : m.Uncaptured n id) (k : ContextId) {g : Context → Context}
    (hg : ∀ c, m.memory.contexts[k]? = some c → (g c).outer = c.outer)
    (active : Option ContextId) (depth : Nat) :
    Uncaptured n id { m with memory := m.memory.modifyContext k g, active, depth } := by
  refine h.carry (fun k' => ?_) fun v b o hb ho => .inl ⟨v, b, hb, ho⟩
  change ((m.memory.contexts.modify k g)[k']?).map Context.outer = _
  rw [Array.getElem?_modify]
  split_ifs with hk
  · subst hk
    rw [Option.map_map]
    cases hc : m.memory.contexts[k]? with
    | none => rfl
    | some c => exact congrArg some (hg c hc)
  · rfl

theorem leave (h : m.Uncaptured n id) : m.leave.Uncaptured n id := by
  rw [Machine.leave]
  cases m.active with
  | none => exact h
  | some top =>
    apply h.withContext
    exact fun c _ => rfl

/-- A context that is entered is inside what its block is inside of. -/
theorem activate (h : m.Uncaptured n id) {call : Call} (hready : call.Ready m) :
    (m.activate call).Uncaptured n id := by
  have hcall : ∀ o, call.outer = some o → ¬m.memory.Inside o id := by
    intro o ho
    cases hready with
    | method => cases ho
    | block args hb => exact h.blocks _ _ o hb ho
  have hinside : ∀ k, (m.activate call).memory.Inside k id → m.memory.Inside k id := by
    intro k hk
    induction hk using Relation.ReflTransGen.head_induction_on with
    | refl => exact .refl
    | @head k o hlink _ ih =>
      obtain ⟨c, hc, ho⟩ := hlink
      change (m.memory.contexts.push _)[k]? = some c at hc
      rw [Array.getElem?_push] at hc
      split_ifs at hc with hnew
      · cases hc
        exact absurd ih (hcall o ho)
      · exact .head ⟨c, hc, ho⟩ ih
  exact ⟨fun v b o hb ho hk => h.blocks v b o hb ho (hinside o hk),
    fun k hn hk => h.contexts k hn (hinside k hk)⟩

/-- What is made while a newer context is active is inside that one. -/
theorem quiet (h : m.Uncaptured n id) (hquiet : Quiet m d m') (hepochs : m.memory.EpochsPast)
    (hactive : ∀ k, m.active = some k → n ≤ k) : m'.Uncaptured n id := by
  cases hquiet with
  | note | attempt => exact h.carry (fun _ => rfl) fun v b o hb ho => .inl ⟨v, b, hb, ho⟩
  | @write v g hg =>
    have hcontexts : (m.write v g).memory.contexts = m.memory.contexts :=
      Memory.modifyObject_contexts ..
    refine h.carry (fun k => by rw [hcontexts]) fun v' b' o hb' ho => ?_
    have hbody : (m.write v g).memory.body? v' = _ := m.memory.body?_modifyBody v v' g
    rw [hbody] at hb'
    split_ifs at hb'
    · obtain ⟨b, hb, rfl⟩ := Option.map_eq_some_iff.mp hb'
      rw [hg.eq_self (.inr (Body.isFixed_of_lasts (Body.lasts_of_outer? ho)))] at ho
      exact .inl ⟨v', b, hb, ho⟩
    · exact .inl ⟨v', b', hb', ho⟩
  | create hcreates hplaces =>
    obtain ⟨kept, m₁, hshifted, -, -, rfl⟩ := hplaces.shifted hepochs
    refine h.carry (fun k => ?_) fun v' b' o hb' ho => ?_
    · have hframe := congrArg (Option.map Frame.outer) (hshifted.frame_eq k)
      rwa [Option.map_map, Option.map_map] at hframe
    · rcases Memory.body?_of_append hb' with hold | ⟨-, rfl⟩
      · obtain ⟨v, b, -, hb, -, rfl⟩ := hshifted.exists_body? hold
        rw [Body.outer?_map] at ho
        exact .inl ⟨v, b, hb, ho⟩
      · rw [HeapObject.mapEdges_body, Body.outer?_map] at ho
        exact .inr (hactive o (hcreates.outer_active ho))

end Machine.Uncaptured

/-- The context `c` at `id` waits for those above it. It is older than `n`, and they are not. -/
structure Machine.Waits (n : Nat) (above : List ContextId) (id : ContextId)
    (below : List ContextId) (c : Context) (m : Machine) : Prop where
  context : m.memory.contexts[id]? = some c
  runs : m.activity.Runs (above ++ id :: below)
  newer : ∀ k ∈ above, n ≤ k
  older : id < n
  count : n ≤ m.memory.contexts.size

/-- The context `c` at `id` has become `c'`. Its temporaries are the same if nothing was
inside it, and then nothing has come to be. -/
structure Endures (n : Nat) (id : ContextId) (d : Displacement) (m : Machine) (c : Context)
    (m' : Machine) (c' : Context) : Prop where
  carried : c.Carried d c'
  uncaptured : m.Uncaptured n id → m'.Uncaptured n id ∧ c.KeepsTemporaries d c'

section

variable {n : Nat} {id top : ContextId} {above rest below : List ContextId} {c c₁ c' : Context}
  {m m₁ m' : Machine} {d e : Displacement}

theorem Endures.refl (n : Nat) (id : ContextId) (m : Machine) (c : Context) :
    Endures n id .still m c m c :=
  ⟨.still c, fun h => ⟨h, .still c⟩⟩

theorem Endures.leave (n : Nat) (id : ContextId) (m : Machine) (c : Context) :
    Endures n id .still m c m.leave c :=
  ⟨.still c, fun h => ⟨h.leave, .still c⟩⟩

theorem Endures.trans (h : Endures n id d m c m₁ c₁) (h' : Endures n id e m₁ c₁ m' c') :
    Endures n id (d.andThen e) m c m' c' := by
  refine ⟨h.carried.trans h'.carried, fun hm => ?_⟩
  obtain ⟨hm₁, htemporaries⟩ := h.uncaptured hm
  obtain ⟨hm', htemporaries'⟩ := h'.uncaptured hm₁
  exact ⟨hm', htemporaries.trans htemporaries'⟩

namespace Machine.Waits

theorem running (h : m.Waits n above id below c) : m.activity.Running id :=
  h.runs.running id (by simp)

theorem active_eq (h : m.Waits n (top :: rest) id below c) : m.active = some top :=
  h.runs.active_eq

theorem top_ne (h : m.Waits n (top :: rest) id below c) : top ≠ id := by
  rintro rfl
  exact Nat.not_lt.mpr (h.newer top List.mem_cons_self) h.older

theorem congr (h : m.Waits n above id below c) (hcontext : m'.memory.contexts[id]? = some c')
    (hactivity : m'.activity = m.activity) : m'.Waits n above id below c' := by
  refine ⟨hcontext, hactivity ▸ h.runs, h.newer, h.older, h.count.trans_eq ?_⟩
  have hsenders := congrArg (fun a => a.senders.size) hactivity
  simpa [Machine.activity] using hsenders.symm

theorem quiet (h : m.Waits n above id below c) (hquiet : Quiet m d m')
    (hepochs : m.memory.EpochsPast) :
    ∃ c', m'.Waits n above id below c' ∧ c.Carried d c' ∧ c.KeepsTemporaries d c' := by
  cases hquiet with
  | note | attempt =>
    exact ⟨c, h.congr h.context (Machine.activity_congr rfl rfl rfl rfl), .still c, .still c⟩
  | @write v g =>
    have hcontexts : (m.write v g).memory.contexts = m.memory.contexts :=
      Memory.modifyObject_contexts ..
    exact ⟨c, h.congr (hcontexts ▸ h.context) (m.activity_write v g), .still c, .still c⟩
  | create _ hplaces =>
    obtain ⟨kept, m₁, hshifted, -, -, rfl⟩ := hplaces.shifted hepochs
    have hid := hshifted.kept_of_running h.running
    obtain ⟨epoch, hc'⟩ := hshifted.contexts id c hid h.context
    have hkept : ∀ v ∈ c.edges, d.Keeps v := by
      intro v hv
      exact hshifted.keeps (hshifted.context_roots hid h.context _ ((c.value_mem_roots v).mpr hv))
    exact ⟨_, h.congr hc' hshifted.activity_eq, Context.carried_mapEdges hkept epoch⟩

/-- A context above changes, and not the one that waits. -/
theorem setContext (h : m.Waits n (top :: rest) id below c) {c₁ c₂ : Context}
    (hruns : m.Runs top c₁) (hsender : c₂.sender = c₁.sender) :
    (m.setContext top c₂).Waits n (top :: rest) id below c := by
  apply h.congr
  · change (m.memory.contexts.modify top _)[id]? = some c
    rw [Array.getElem?_modify, if_neg h.top_ne]
    exact h.context
  · exact Machine.activity_setContext hruns.context hsender

/-- A temporary is set, perhaps one of the context that waits. -/
theorem setTemporary (h : m.Waits n above id below c) (home : ContextId) (index : Nat) (v : Value) :
    ∃ c', Waits n above id below c' { m with memory := m.memory.setTemporary home index v } ∧
      c.Carried .still c' ∧ (home ≠ id → c' = c) := by
  have hactivity := m.activity_modifyContext home
    (g := fun c => { c with temporaries := c.temporaries.set! index v }) fun _ _ => rfl
  have hcontext := m.memory.getElem?_setTemporary home index v id
  rw [h.context] at hcontext
  split_ifs at hcontext with hhome
  · refine ⟨_, h.congr hcontext hactivity, .inPlace c (by simp), fun hne => absurd hhome hne⟩
  · exact ⟨c, h.congr hcontext hactivity, .still c, fun _ => rfl⟩

theorem activate (h : m.Waits n above id below c) {call : Call} (hdepth : m.depth < m.maxDepth) :
    (m.activate call).Waits n (m.memory.contexts.size :: above) id below c := by
  have hsize : (m.activate call).memory.contexts.size = m.memory.contexts.size + 1 :=
    Array.size_push _
  have hsenders : m.activity.senders.size = m.memory.contexts.size := Array.size_map
  constructor
  · change (m.memory.contexts.push _)[id]? = some c
    rw [Array.getElem?_push, if_neg (Nat.ne_of_lt (h.older.trans_le h.count))]
    exact h.context
  · rw [m.activity_activate, ← hsenders]
    exact h.runs.call hdepth
  · intro k hk
    rcases List.mem_cons.mp hk with rfl | hk
    · exact h.count
    · exact h.newer k hk
  · exact h.older
  · rw [hsize]
    exact h.count.trans (Nat.le_succ _)

theorem leave (h : m.Waits n (top :: rest) id below c) : m.leave.Waits n rest id below c := by
  have hruns : m.leave.activity.Runs (rest ++ id :: below) := by
    rw [m.activity_leave]
    exact h.runs.leave
  have hnewer : ∀ k ∈ rest, n ≤ k := fun k hk => h.newer k (List.mem_cons_of_mem _ hk)
  rw [Machine.leave, h.active_eq] at hruns ⊢
  refine ⟨?_, hruns, hnewer, h.older, h.count.trans_eq Array.size_modify.symm⟩
  change (m.memory.contexts.modify top _)[id]? = some c
  rw [Array.getElem?_modify, if_neg h.top_ne]
  exact h.context

end Machine.Waits

/-- What a newer context does leaves the one that waits as it is. -/
theorem Deed.endures (h : Deed m d m') (hepochs : m.memory.EpochsPast)
    (hm : m.Waits n (top :: rest) id below c) :
    ∃ top' rest' c', m'.Waits n (top' :: rest') id below c' ∧ Endures n id d m c m' c' := by
  have hactive := hm.active_eq
  have htop := hm.newer top List.mem_cons_self
  cases h with
  | quiet hquiet =>
    obtain ⟨c', hm', hcarried, htemporaries⟩ := hm.quiet hquiet hepochs
    refine ⟨top, rest, c', hm', hcarried, fun huncaptured => ⟨?_, htemporaries⟩⟩
    refine huncaptured.quiet hquiet hepochs fun k hk => ?_
    cases hactive.symm.trans hk
    exact htop
  | @operate k c₁ stack pc hruns =>
    cases hactive.symm.trans hruns.active
    refine ⟨top, rest, c, hm.setContext hruns rfl, .still c, fun huncaptured => ⟨?_, .still c⟩⟩
    refine huncaptured.withContext top (fun c hc => ?_) m.active m.depth
    cases hruns.context.symm.trans hc
    rfl
  | @setTemporary k home _ index v hruns hhome =>
    cases hactive.symm.trans hruns.active
    obtain ⟨c', hm', hcarried, hsame⟩ := hm.setTemporary home index v
    refine ⟨top, rest, c', hm', hcarried, fun huncaptured => ⟨?_, ?_⟩⟩
    · apply huncaptured.withContext home _ m.active m.depth
      exact fun c _ => rfl
    · -- the home of a temporary is around the context that sets it
      have hne : home ≠ id := by
        rintro rfl
        exact huncaptured.contexts top htop (Memory.inside_of_homeFrom hhome)
      rw [hsame hne]
      exact .still c
  | call hready hdepth =>
    exact ⟨_, _, c, hm.activate hdepth, .still c, fun huncaptured =>
      ⟨huncaptured.activate hready, .still c⟩⟩

/-- Quiet acts leave also the active context alone. -/
theorem Trail.quietly (h : Trail Quiet m d m') (hepochs : m.memory.EpochsPast)
    (hm : m.Waits n above id below c) : m'.memory.EpochsPast ∧
      ∃ c', m'.Waits n above id below c' ∧ c.Carried d c' ∧ c.KeepsTemporaries d c' := by
  induction h with
  | refl => exact ⟨hepochs, c, hm, .still c, .still c⟩
  | tail _ hquiet ih =>
    obtain ⟨hepochs₁, c₁, hm₁, hcarried, htemporaries⟩ := ih
    obtain ⟨c', hm', hcarried', htemporaries'⟩ := hm₁.quiet hquiet hepochs₁
    exact ⟨hquiet.act.epochs hepochs₁, c', hm', hcarried.trans hcarried',
      htemporaries.trans htemporaries'⟩

/-- From `m` to `m'` the context has waited, and at the end it is below those `above`. -/
structure Outwaits (n : Nat) (id : ContextId) (below : List ContextId) (d : Displacement)
    (m : Machine) (c : Context) (m' : Machine) (above : List ContextId) (c' : Context) : Prop
    extends Endures n id d m c m' c' where
  trail : Trail Act m d m'
  epochs : m'.memory.EpochsPast
  waits : m'.Waits n above id below c'

namespace Outwaits

theorem refl (hepochs : m.memory.EpochsPast) (hm : m.Waits n above id below c) :
    Outwaits n id below .still m c m above c :=
  ⟨.refl n id m c, .refl m, hepochs, hm⟩

theorem trans {above' : List ContextId} (h : Outwaits n id below d m c m₁ above c₁)
    (h' : Outwaits n id below e m₁ c₁ m' above' c') :
    Outwaits n id below (d.andThen e) m c m' above' c' :=
  ⟨h.toEndures.trans h'.toEndures, h.trail.trans h'.trail, h'.epochs, h'.waits⟩

theorem leave (hepochs : m.memory.EpochsPast) (hm : m.Waits n (top :: rest) id below c) :
    Outwaits n id below .still m c m.leave rest c :=
  ⟨.leave n id m c, .one (.leave m), Machine.epochs_leave hepochs, hm.leave⟩

end Outwaits

theorem Trail.outwaits (h : Trail Deed m d m') (hepochs : m.memory.EpochsPast)
    (hm : m.Waits n (top :: rest) id below c) :
    ∃ top' rest' c', Outwaits n id below d m c m' (top' :: rest') c' := by
  induction h with
  | refl => exact ⟨top, rest, c, .refl hepochs hm⟩
  | tail _ hdeed ih =>
    obtain ⟨top₁, rest₁, c₁, houtwaits⟩ := ih
    obtain ⟨top', rest', c', hm', hendures⟩ := hdeed.endures houtwaits.epochs houtwaits.waits
    exact ⟨top', rest', c', houtwaits.trans
      ⟨hendures, .one hdeed.act, hdeed.act.epochs houtwaits.epochs, hm'⟩⟩

theorem outwaits_of_step_none (hstep : step m = .ok none m') (hepochs : m.memory.EpochsPast)
    (hm : m.Waits n (top :: rest) id below c) :
    ∃ d top' rest' c', Outwaits n id below d m c m' (top' :: rest') c' := by
  have hproceeds := step_proceeds m
  rw [hstep] at hproceeds
  cases hproceeds with
  | next hdeeds =>
    obtain ⟨d, hdeeds⟩ := hdeeds
    exact ⟨d, hdeeds.outwaits hepochs hm⟩

/-- When a context above has ended, the one that waits may be active. -/
theorem outwaits_of_step_some {v : Value} (hstep : step m = .ok (some v) m')
    (hepochs : m.memory.EpochsPast) (hm : m.Waits n (top :: rest) id below c) :
    ∃ d above c', Outwaits n id below d m c m' above c' := by
  have hproceeds := step_proceeds m
  rw [hstep] at hproceeds
  cases hproceeds with
  | ended hdeeds =>
    obtain ⟨d, hdeeds⟩ := hdeeds
    obtain ⟨top', rest', c', houtwaits⟩ := hdeeds.outwaits hepochs hm
    exact ⟨_, rest', c', houtwaits.trans (.leave houtwaits.epochs houtwaits.waits)⟩

theorem Machine.Waits.depth_eq (h : m.Waits n above id below c) :
    above.length + (below.length + 1) = m.depth := by
  have hlength := h.runs.length
  rwa [List.length_append, List.length_cons] at hlength

variable {base fuel left : Nat}

theorem Visits.outwaits (h : Visits base fuel m left m') (hepochs : m.memory.EpochsPast)
    (hm : m.Waits n (top :: rest) id below c) (hbase : base = below.length + 1) :
    ∃ d top' rest' c', Outwaits n id below d m c m' (top' :: rest') c' := by
  induction h generalizing top rest c with
  | here => exact ⟨_, top, rest, c, .refl hepochs hm⟩
  | next hstep _ ih =>
    obtain ⟨d, top₁, rest₁, c₁, h₁⟩ := outwaits_of_step_none hstep hepochs hm
    obtain ⟨e, top', rest', c', h'⟩ := ih h₁.epochs h₁.waits
    exact ⟨_, top', rest', c', h₁.trans h'⟩
  | @resumed _ _ _ m₁ _ v hstep hdepth _ ih =>
    obtain ⟨d, above₁, c₁, h₁⟩ := outwaits_of_step_some hstep hepochs hm
    have hlength := h₁.waits.depth_eq
    -- the depth is that of a context above the one that waits
    cases above₁ with
    | nil =>
      rw [List.length_nil] at hlength
      omega
    | cons top₁ rest₁ =>
      obtain ⟨e, hpushed⟩ := m₁.pushed_linked v
      obtain ⟨top₂, rest₂, c₂, h₂⟩ := hpushed.outwaits h₁.epochs h₁.waits
      obtain ⟨f, top', rest', c', h'⟩ := ih h₂.epochs h₂.waits
      exact ⟨_, top', rest', c', (h₁.trans h₂).trans h'⟩

/-- When the run has answered, the context that waited is active. -/
theorem outwaits_of_run {v : Value} (hrun : run base fuel m = .ok v m')
    (hepochs : m.memory.EpochsPast) (hm : m.Waits n (top :: rest) id below c)
    (hbase : base = below.length + 1) :
    ∃ d c', Outwaits n id below d m c m' [] c' := by
  obtain ⟨left, m₁, hvisits, hends⟩ := run_rules base fuel m
  rw [hrun] at hends
  cases hends with
  | answered hstep hdepth =>
    obtain ⟨d, top₁, rest₁, c₁, h₁⟩ := hvisits.outwaits hepochs hm hbase
    obtain ⟨e, above, c', h'⟩ := outwaits_of_step_some hstep h₁.epochs h₁.waits
    have hlength := h'.waits.depth_eq
    cases above with
    | nil => exact ⟨_, c', h₁.trans h'⟩
    | cons =>
      rw [List.length_cons] at hlength
      omega

end

end ObjectMachine

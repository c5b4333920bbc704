import ObjectMachine.Proofs.HeightMaps
import ObjectMachine.Proofs.Trails

/-!
# Machines with balanced code

While balanced code runs, the active context has as many operands as the height maps
of its code say. A context that waits for the answer of a call has one less: the
answer will make up for it. What happens elsewhere in the machine, collections
included, leaves the operands of both where they are, so a call adds a context with
no operands at all and a return hands its answer to one that has waited for it.
-/

namespace ObjectMachine

open ObjectMachine.Action

/-- If this is code, it is balanced. -/
def Body.Balanced : Body → Prop
  | method c => c.code.Balanced
  | block b => b.code.Balanced
  | _ => True

section

variable {b : Body}

theorem Body.Balanced.map (h : b.Balanced) (g : Value → Value) : (b.map g).Balanced := by
  cases b with
  | method | block => exact h
  | _ => trivial

theorem Body.Balanced.of_program? (h : b.Balanced) {code : Code} {literals : Array Value}
    (hprogram : b.program? = some (code, literals)) : code.Balanced := by
  cases b with
  | method | block =>
    cases hprogram
    exact h
  | _ => cases hprogram

theorem Body.Balanced.of_lasts (h : b.lasts = false) : b.Balanced := by
  cases b with
  | method | block => cases h
  | _ => trivial

theorem Body.Rewrites.balanced {g : Body → Body} (hg : Rewrites g) (h : b.Balanced) :
    (g b).Balanced := by
  cases hlasts : (g b).lasts with
  | false => exact .of_lasts hlasts
  | true =>
    rw [hg.eq_self (.inr (isFixed_of_lasts hlasts))]
    exact h

end

theorem Memory.body?_congr {mem mem' : Memory} (h : mem'.objects = mem.objects) (v : Value) :
    mem'.body? v = mem.body? v := by
  cases v with
  | pointer i => simp only [body?, object?, h]
  | _ => rfl

structure Machine.Balanced (m : Machine) : Prop where
  epochs : m.memory.EpochsPast
  bodies : ∀ v b, m.memory.body? v = some b → b.Balanced

namespace Machine.Balanced

variable {m m' : Machine}

theorem congr (h : m.Balanced) (hobjects : m'.memory.objects = m.memory.objects)
    (hepochs : m'.memory.EpochsPast) : m'.Balanced := by
  refine ⟨hepochs, fun v b hb => ?_⟩
  rw [Memory.body?_congr hobjects] at hb
  exact h.bodies v b hb

theorem setContext (h : m.Balanced) {id : ContextId} {c c' : Context}
    (hc : m.memory.contexts[id]? = some c) (hepoch : c'.epoch = c.epoch) :
    (m.setContext id c').Balanced := by
  apply h.congr
  · rfl
  · apply h.epochs.modifyContext
    intro c₁ hc₁
    rw [hc] at hc₁
    cases hc₁
    exact hepoch

theorem write (h : m.Balanced) (v : Value) {g : Body → Body}
    (hg : ∀ b, m.memory.body? v = some b → b.Balanced → (g b).Balanced) :
    (m.write v g).Balanced := by
  refine ⟨h.epochs.write v g, fun v' b' hb' => ?_⟩
  have hbody : (m.write v g).memory.body? v' = _ := m.memory.body?_modifyBody v v' g
  rw [hbody] at hb'
  split_ifs at hb' with hv
  · subst hv
    obtain ⟨b, hb, rfl⟩ := Option.map_eq_some_iff.mp hb'
    exact hg b hb (h.bodies v b hb)
  · exact h.bodies v' b' hb'

theorem relocated {kept : Root → Prop} {f : Nat → Nat} (h : m.Balanced)
    (hm' : Relocated kept f m m') : m'.Balanced := by
  refine ⟨hm'.epochs, fun v' b' hb' => ?_⟩
  obtain ⟨v, b, -, hb, -, rfl⟩ := hm'.exists_body? hb'
  exact (h.bodies v b hb).map _

theorem append (h : m.Balanced) {o : HeapObject} (ho : o.body.Balanced) :
    (m.append o).Balanced := by
  refine ⟨h.epochs, fun v b hb => ?_⟩
  rcases Memory.body?_of_append hb with hold | ⟨-, rfl⟩
  · exact h.bodies v b hold
  · exact ho

theorem places (h : m.Balanced) {o : HeapObject} {d : Displacement} {v : Value}
    (hp : Places m o d v m') (ho : o.body.Balanced) : m'.Balanced := by
  obtain ⟨kept, m₁, hshifted, -, -, rfl⟩ := hp.shifted h.epochs
  apply (h.relocated hshifted.toRelocated).append
  rw [HeapObject.mapEdges_body]
  exact ho.map _

theorem afterFailedCollection (h : m.Balanced) : m.afterFailedCollection.Balanced :=
  h.congr rfl ((Act.attempt m).epochs h.epochs)

theorem leave (h : m.Balanced) : m.leave.Balanced := by
  apply h.congr _ (epochs_leave h.epochs)
  rw [Machine.leave]
  cases m.active <;> rfl

theorem unwind (h : m.Balanced) (base : Nat) : (m.unwind base).Balanced := by
  rw [Machine.unwind]
  induction m.depth - base with
  | zero => exact h
  | succ n ih => exact ih.leave

end Machine.Balanced

/-- The context stands in its code, with as many operands as height maps say, but
for those that it awaits. -/
def Context.Level (mem : Memory) (awaited : Nat) (c : Context) : Prop :=
  ∃ b code literals, mem.body? c.method = some b ∧ b.program? = some (code, literals) ∧
    code.Boundary c.pc ∧ ∀ h, code.HeightMap h → c.stack.size + awaited = h c.pc

def Memory.Levels (mem : Memory) (awaited : Nat) (id : ContextId) : Prop :=
  ∃ c, mem.contexts[id]? = some c ∧ c.Level mem awaited

section

variable {mem mem' : Memory} {awaited : Nat} {id : ContextId}

/-- Code may move, and the context with it. -/
theorem Context.Level.carry {c c' : Context} (h : c.Level mem awaited) {g : Value → Value}
    (hmethod : ∀ b, b.lasts = true → mem.body? c.method = some b →
      mem'.body? c'.method = some (b.map g))
    (hpc : c'.pc = c.pc) (hsize : c'.stack.size = c.stack.size) : c'.Level mem' awaited := by
  obtain ⟨b, code, literals, hb, hprogram, hboundary, hheight⟩ := h
  have hb' := hmethod b (Body.lasts_of_program? hprogram) hb
  refine ⟨_, code, _, hb', Body.program?_map hprogram g, ?_, ?_⟩
  · rwa [hpc]
  · rwa [hpc, hsize]

theorem Context.Level.keep {c c' : Context} (h : c.Level mem awaited)
    (hbodies : ∀ v b, b.lasts = true → mem.body? v = some b → mem'.body? v = some b)
    (hmethod : c'.method = c.method) (hpc : c'.pc = c.pc)
    (hsize : c'.stack.size = c.stack.size) : c'.Level mem' awaited := by
  apply h.carry (g := id) _ hpc hsize
  intro b hlasts hb
  rw [b.map_id, hmethod]
  exact hbodies _ b hlasts hb

/-- The context stays as it is but for what does not concern its operands. -/
theorem Memory.Levels.keep (h : mem.Levels awaited id)
    (hbodies : ∀ v b, b.lasts = true → mem.body? v = some b → mem'.body? v = some b)
    (hcontext : ∀ c, mem.contexts[id]? = some c → ∃ c', mem'.contexts[id]? = some c' ∧
      c'.method = c.method ∧ c'.pc = c.pc ∧ c'.stack.size = c.stack.size) :
    mem'.Levels awaited id := by
  obtain ⟨c, hc, hlevel⟩ := h
  obtain ⟨c', hc', hmethod, hpc, hsize⟩ := hcontext c hc
  exact ⟨c', hc', hlevel.keep hbodies hmethod hpc hsize⟩

end

theorem Relocated.levels {kept : Root → Prop} {f : Nat → Nat} {m m' : Machine}
    (h : Relocated kept f m m') {awaited : Nat} {id : ContextId} (hid : kept (.context id))
    (hlevels : m.memory.Levels awaited id) : m'.memory.Levels awaited id := by
  obtain ⟨c, hc, hlevel⟩ := hlevels
  obtain ⟨epoch, hc'⟩ := h.contexts id c hid hc
  have hkept : kept (.value c.method) := by
    apply h.closed _ hid
    rw [Memory.mem_next_context hc]
    exact (c.value_mem_roots _).mpr (List.mem_cons_self ..)
  rw [Context.mapEdges_eq] at hc'
  refine ⟨_, hc', hlevel.carry (g := Value.rename f) ?_ rfl Array.size_map⟩
  exact fun b _ hb => h.body? hkept hb

/-- Nothing has happened to the running contexts and their operands. -/
structure Undisturbed (m m' : Machine) : Prop where
  code : m'.Balanced
  activity : m'.activity = m.activity
  levels : ∀ id awaited, m.activity.Running id → m.memory.Levels awaited id →
    m'.memory.Levels awaited id

namespace Undisturbed

variable {m m₁ m' : Machine}

theorem refl (hm : m.Balanced) : Undisturbed m m := ⟨hm, rfl, fun _ _ _ h => h⟩

theorem trans (h : Undisturbed m m₁) (h' : Undisturbed m₁ m') : Undisturbed m m' := by
  refine ⟨h'.code, h'.activity.trans h.activity, ?_⟩
  intro id awaited hid hlevels
  apply h'.levels id awaited _ (h.levels id awaited hid hlevels)
  rwa [h.activity]

theorem note (hm : m.Balanced) (e : Event) : Undisturbed m (m.note e) :=
  ⟨hm.congr rfl hm.epochs, Machine.activity_congr rfl rfl rfl rfl, fun _ _ _ h => h⟩

theorem write (hm : m.Balanced) (v : Value) {g : Body → Body} (hg : Body.Rewrites g) :
    Undisturbed m (m.write v g) := by
  refine ⟨hm.write v fun b _ hb => hg.balanced hb, m.activity_write v g, ?_⟩
  intro id awaited _ hlevels
  have hcontexts : (m.write v g).memory.contexts = m.memory.contexts :=
    Memory.modifyObject_contexts ..
  apply hlevels.keep
  · intro v' b hlasts hb
    have hbody : (m.write v g).memory.body? v' = _ := m.memory.body?_modifyBody v v' g
    rw [hbody, hb]
    split_ifs
    · exact congrArg some (hg.eq_self (.inl (Body.isFixed_of_lasts hlasts)))
    · rfl
  · rw [hcontexts]
    exact fun c hc => ⟨c, hc, rfl, rfl, rfl⟩

theorem setTemporary (hm : m.Balanced) (home : ContextId) (index : Nat) (v : Value) :
    Undisturbed m { m with memory := m.memory.setTemporary home index v } := by
  refine ⟨hm.congr rfl (hm.epochs.modifyContext fun _ _ => rfl),
    m.activity_modifyContext home fun _ _ => rfl, ?_⟩
  intro id awaited _ hlevels
  apply hlevels.keep
  · exact fun _ _ _ hb => hb
  · intro c hc
    change ∃ c', (m.memory.contexts.modify home _)[id]? = some c' ∧ _
    rw [Array.getElem?_modify, hc]
    split_ifs
    · exact ⟨_, rfl, rfl, rfl, rfl⟩
    · exact ⟨c, rfl, rfl, rfl, rfl⟩

theorem places (hm : m.Balanced) {o : HeapObject} {d : Displacement} {v : Value}
    (hp : Places m o d v m') (ho : o.body.Balanced) : Undisturbed m m' := by
  have hcode := hm.places hp ho
  obtain ⟨kept, m₁, hshifted, -, -, rfl⟩ := hp.shifted hm.epochs
  refine ⟨hcode, ?_, ?_⟩
  · rw [← hshifted.activity_eq]
    exact Machine.activity_congr rfl rfl rfl rfl
  · intro id awaited hid hlevels
    have hlevels₁ := hshifted.levels (hshifted.kept_of_running hid) hlevels
    apply hlevels₁.keep
    · exact fun _ _ _ hb => Memory.body?_append hb _
    · exact fun c hc => ⟨c, hc, rfl, rfl, rfl⟩

end Undisturbed

theorem Activity.Chain.running {a : Activity} {start : Option ContextId} {ids : List ContextId}
    (h : Chain a.senders start ids) (hstart : ∀ id, start = some id → a.Running id) :
    ∀ id ∈ ids, a.Running id := by
  induction h with
  | nil => exact fun _ hid => absurd hid List.not_mem_nil
  | @cons top sender ids hsender _ ih =>
    have htop := hstart top rfl
    intro id hid
    rcases List.mem_cons.mp hid with rfl | hid
    · exact htop
    · apply ih _ id hid
      rintro id' rfl
      exact .sender htop hsender

theorem Activity.Runs.running {a : Activity} {ids : List ContextId} (h : a.Runs ids) :
    ∀ id ∈ ids, a.Running id :=
  h.chain.running fun _ hid => .active hid

theorem Activity.Runs.active_eq {a : Activity} {id : ContextId} {ids : List ContextId}
    (h : a.Runs (id :: ids)) : a.active = some id := by
  have hchain := h.chain
  generalize a.active = active at hchain
  cases hchain
  rfl

/-- The contexts `waiting`, on top of those `below`, wait for answers, the first one
for the next. -/
structure Machine.Awaits (below waiting : List ContextId) (m : Machine) : Prop where
  code : m.Balanced
  runs : m.activity.Runs (waiting ++ below)
  levels : ∀ id ∈ waiting, m.memory.Levels 1 id

/-- The context at `id` is active, and the others wait for it. -/
structure Machine.Suspends (below : List ContextId) (id : ContextId) (waiting : List ContextId)
    (m : Machine) : Prop where
  code : m.Balanced
  runs : m.activity.Runs (id :: (waiting ++ below))
  waiting : ∀ k ∈ waiting, m.memory.Levels 1 k

/-- The active context is at its height. -/
structure Machine.Poised (below : List ContextId) (id : ContextId) (waiting : List ContextId)
    (m : Machine) : Prop extends m.Suspends below id waiting where
  level : m.memory.Levels 0 id

namespace Machine

variable {below waiting : List ContextId} {id : ContextId} {m m' : Machine}

theorem Awaits.undisturbed (h : m.Awaits below waiting) (hm' : Undisturbed m m') :
    m'.Awaits below waiting := by
  constructor
  · exact hm'.code
  · rw [hm'.activity]
    exact h.runs
  · intro id hid
    have hrunning := h.runs.running id (List.mem_append_left _ hid)
    exact hm'.levels id 1 hrunning (h.levels id hid)

theorem Poised.undisturbed (h : m.Poised below id waiting) (hm' : Undisturbed m m') :
    m'.Poised below id waiting := by
  have hrunning := h.runs.running
  constructor
  · constructor
    · exact hm'.code
    · rw [hm'.activity]
      exact h.runs
    · intro k hk
      apply hm'.levels k 1 (hrunning k _) (h.waiting k hk)
      exact List.mem_cons_of_mem _ (List.mem_append_left _ hk)
  · exact hm'.levels id 0 (hrunning id (List.mem_cons_self ..)) h.level

/-- The active context may change as it likes; it has not waited. -/
theorem Suspends.modifyContext (h : m.Suspends below id waiting) {g : Context → Context}
    (hg : ∀ c, m.memory.contexts[id]? = some c → (g c).sender = c.sender ∧ (g c).epoch = c.epoch) :
    Suspends below id waiting { m with memory := m.memory.modifyContext id g } := by
  constructor
  · apply h.code.congr
    · rfl
    · exact h.code.epochs.modifyContext fun c hc => (hg c hc).2
  · rw [m.activity_modifyContext id fun c hc => (hg c hc).1]
    exact h.runs
  · intro k hk
    have hne : id ≠ k := by
      rintro rfl
      have hnodup := (List.nodup_cons.mp h.runs.nodup).1
      exact hnodup (List.mem_append_left _ hk)
    apply (h.waiting k hk).keep
    · exact fun _ _ _ hb => hb
    · intro c hc
      refine ⟨c, ?_, rfl, rfl, rfl⟩
      change (m.memory.contexts.modify id g)[k]? = some c
      rw [Array.getElem?_modify, if_neg hne]
      exact hc

theorem Suspends.setContext (h : m.Suspends below id waiting) {c c' : Context}
    (hc : m.memory.contexts[id]? = some c) (hsender : c'.sender = c.sender)
    (hepoch : c'.epoch = c.epoch) : (m.setContext id c').Suspends below id waiting := by
  apply h.modifyContext
  intro c₁ hc₁
  rw [hc] at hc₁
  cases hc₁
  exact ⟨hsender, hepoch⟩

/-- A context that waits and has no more to do suspends itself. -/
theorem Suspends.awaits (h : m.Suspends below id waiting) (hlevel : m.memory.Levels 1 id) :
    m.Awaits below (id :: waiting) := by
  refine ⟨h.code, h.runs, ?_⟩
  intro k hk
  rcases List.mem_cons.mp hk with rfl | hk
  · exact hlevel
  · exact h.waiting k hk

/-- The first of the waiting contexts gets its answer. -/
theorem Awaits.pushed (h : m.Awaits below (id :: waiting)) (v : Value) :
    (m.pushed v).Poised below id waiting := by
  have hsuspends : m.Suspends below id waiting :=
    ⟨h.code, h.runs, fun k hk => h.levels k (List.mem_cons_of_mem _ hk)⟩
  have hactive : m.active = some id := h.runs.active_eq
  have hpushed : m.pushed v = { m with memory := m.memory.modifyContext id fun c => c.push v } := by
    rw [Machine.pushed, hactive]
  rw [hpushed]
  refine ⟨hsuspends.modifyContext fun _ _ => ⟨rfl, rfl⟩, ?_⟩
  obtain ⟨c, hc, b, code, literals, hb, hprogram, hboundary, hheight⟩ :=
    h.levels id (List.mem_cons_self ..)
  refine ⟨c.push v, ?_, b, code, literals, hb, hprogram, hboundary, ?_⟩
  · change (m.memory.contexts.modify id _)[id]? = _
    rw [Array.getElem?_modify, if_pos rfl, hc]
    rfl
  · exact fun h hmap => (Array.size_push v).trans (hheight h hmap)

/-- A call adds a context without operands. -/
theorem Awaits.activate (h : m.Awaits below waiting) (hdepth : m.depth < m.maxDepth) {call : Call}
    {b : Body} {code : Code} {literals : Array Value} (hb : m.memory.body? call.method = some b)
    (hprogram : b.program? = some (code, literals)) :
    (m.activate call).Poised below m.memory.contexts.size waiting := by
  have hnew : (m.activate call).memory.contexts[m.memory.contexts.size]? = some (.new call.method
      call.receiver call.args call.temporaryCount m.active call.outer) :=
    Array.getElem?_push_size
  have hsenders : m.activity.senders.size = m.memory.contexts.size := Array.size_map
  constructor
  · constructor
    · apply h.code.congr
      · rfl
      · exact h.code.epochs.addContext rfl
    · rw [m.activity_activate, ← hsenders]
      exact h.runs.call hdepth
    · intro k hk
      apply (h.levels k hk).keep
      · exact fun _ _ _ hb => hb
      · intro c hc
        refine ⟨c, ?_, rfl, rfl, rfl⟩
        have hlt := (Array.getElem?_eq_some_iff.mp hc).1
        change (m.memory.contexts.push _)[k]? = some c
        rw [Array.getElem?_push, if_neg (Nat.ne_of_lt hlt)]
        exact hc
  · obtain ⟨h₀, hmap⟩ := ((h.code.bodies _ b hb).of_program? hprogram).exists_heightMap
    refine ⟨_, hnew, b, code, literals, hb, hprogram, Code.boundary_zero hmap.readable, ?_⟩
    exact fun h hmap => hmap.start.symm

/-- The active context ends, and the next one waits for its answer. -/
theorem Suspends.leave (h : m.Suspends below id waiting) : m.leave.Awaits below waiting := by
  have hactive : m.active = some id := h.runs.active_eq
  have hcode := h.code.leave
  have hactivity := m.activity_leave
  rw [Machine.leave, hactive] at hcode hactivity ⊢
  constructor
  · exact hcode
  · rw [hactivity]
    exact h.runs.leave
  · intro k hk
    apply (h.waiting k hk).keep
    · exact fun _ _ _ hb => hb
    · intro c hc
      change ∃ c', (m.memory.contexts.modify id _)[k]? = some c' ∧ _
      rw [Array.getElem?_modify, hc]
      split_ifs
      · exact ⟨_, rfl, rfl, rfl, rfl⟩
      · exact ⟨c, rfl, rfl, rfl, rfl⟩

end Machine

end ObjectMachine

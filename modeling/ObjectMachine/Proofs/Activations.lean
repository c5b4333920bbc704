import ObjectMachine.Proofs.Runs

/-!
# Activations

The running contexts form one chain of senders that starts at the active one and
has as many members as the depth says. Every other context has no sender, so
that a context which has ended keeps none of its callers alive. Only calls and
returns touch the chain, each at its top.
-/

namespace ObjectMachine

open ObjectMachine.Action

/-- What a machine knows of its running contexts. -/
structure Activity where
  /-- The sender of every context. -/
  senders : Array (Option ContextId)
  active : Option ContextId
  depth : Nat
  maxDepth : Nat

namespace Activity

/-- The contexts met by following senders from `start` until there is none. -/
inductive Chain (senders : Array (Option ContextId)) : Option ContextId → List ContextId → Prop
  | nil : Chain senders none []
  | cons {id : ContextId} {sender : Option ContextId} {ids : List ContextId} :
      senders[id]? = some sender → Chain senders sender ids → Chain senders (some id) (id :: ids)

/-- The contexts `ids` run: they are the chain of the active one, all different,
as many as the depth and no more than allowed. No other context has a sender. -/
structure Runs (a : Activity) (ids : List ContextId) : Prop where
  chain : Chain a.senders a.active ids
  nodup : ids.Nodup
  length : ids.length = a.depth
  le_maxDepth : a.depth ≤ a.maxDepth
  ended : ∀ (id : ContextId) (sender : Option ContextId), id ∉ ids →
    a.senders[id]? = some sender → sender = none

/-- The running contexts are one chain. -/
def Nested (a : Activity) : Prop := ∃ ids, a.Runs ids

/-- Nothing runs and no context has a sender. -/
structure AtRest (a : Activity) : Prop where
  active : a.active = none
  depth : a.depth = 0
  ended : ∀ (id : ContextId) (sender : Option ContextId), a.senders[id]? = some sender →
    sender = none

def call (a : Activity) : Activity :=
  { a with
    senders := a.senders.push a.active
    active := some a.senders.size
    depth := a.depth + 1 }

/-- A call has been made, which the limit allows. -/
def Enters (a a' : Activity) : Prop := a.depth < a.maxDepth ∧ a' = a.call

def leave (a : Activity) : Activity :=
  match a.active with
  | none => a
  | some id =>
    { a with
      senders := a.senders.modify id fun _ => none
      active := (a.senders[id]?).join
      depth := a.depth - 1 }

variable {senders senders' : Array (Option ContextId)} {start : Option ContextId}
  {ids : List ContextId} {a : Activity}

theorem Chain.lt_size (h : Chain senders start ids) : ∀ id ∈ ids, id < senders.size := by
  induction h with
  | nil => simp
  | cons hid _ ih =>
    intro id' hmem
    rcases List.mem_cons.mp hmem with rfl | hmem
    · exact (Array.getElem?_eq_some_iff.mp hid).1
    · exact ih id' hmem

/-- A chain depends only on the senders of its members. -/
theorem Chain.congr (h : Chain senders start ids)
    (hsame : ∀ id ∈ ids, senders'[id]? = senders[id]?) : Chain senders' start ids := by
  induction h with
  | nil => exact .nil
  | cons hid _ ih =>
    apply Chain.cons
    · rw [hsame _ (List.mem_cons_self ..), hid]
    · exact ih fun id' hmem => hsame id' (List.mem_cons_of_mem _ hmem)

theorem Runs.call (h : a.Runs ids) (hdepth : a.depth < a.maxDepth) :
    a.call.Runs (a.senders.size :: ids) := by
  have hold : ∀ id, id < a.senders.size → a.call.senders[id]? = a.senders[id]? := by
    intro id hlt
    simp [Activity.call, Array.getElem?_push, Nat.ne_of_lt hlt]
  have hnew : a.call.senders[a.senders.size]? = some a.active := by
    simp [Activity.call]
  constructor
  · exact .cons hnew (h.chain.congr fun id hmem => hold id (h.chain.lt_size id hmem))
  · apply List.nodup_cons.mpr
    exact ⟨fun hmem => Nat.lt_irrefl _ (h.chain.lt_size _ hmem), h.nodup⟩
  · simp [Activity.call, h.length]
  · exact hdepth
  · intro id sender hout hsender
    have hne : id ≠ a.senders.size := fun heq => hout (heq ▸ List.mem_cons_self ..)
    have hlt : id < a.senders.size := by
      have hbound := (Array.getElem?_eq_some_iff.mp hsender).1
      rw [Activity.call, Array.size_push] at hbound
      exact Nat.lt_of_le_of_ne (Nat.le_of_lt_succ hbound) hne
    rw [hold id hlt] at hsender
    exact h.ended id sender (fun hmem => hout (List.mem_cons_of_mem _ hmem)) hsender

theorem Runs.leave {id : ContextId} (h : a.Runs (id :: ids)) : a.leave.Runs ids := by
  obtain ⟨hchain, hnodup, hlength, hmax, hended⟩ := h
  obtain ⟨hid, hrest⟩ := List.nodup_cons.mp hnodup
  generalize hactive : a.active = active at hchain
  cases hchain with
  | @cons _ sender _ hsender hchain =>
    have hleave : a.leave =
        ⟨a.senders.modify id fun _ => none, sender, a.depth - 1, a.maxDepth⟩ := by
      rw [Activity.leave, hactive]
      simp [hsender]
    rw [hleave]
    rw [List.length_cons] at hlength
    constructor
    · apply hchain.congr
      intro id' hmem
      have hne : id ≠ id' := fun heq => hid (heq ▸ hmem)
      simp [Array.getElem?_modify, hne]
    · exact hrest
    · show ids.length = a.depth - 1
      omega
    · show a.depth - 1 ≤ a.maxDepth
      omega
    · intro id' sender' hout hsender'
      dsimp only at hsender'
      rw [Array.getElem?_modify] at hsender'
      split_ifs at hsender' with heq
      · subst heq
        simpa [hsender] using hsender'.symm
      · apply hended id' sender' _ hsender'
        simp [Ne.symm heq, hout]

theorem Nested.call (h : a.Nested) (hdepth : a.depth < a.maxDepth) : a.call.Nested := by
  obtain ⟨ids, h⟩ := h
  exact ⟨_, h.call hdepth⟩

theorem leave_maxDepth (a : Activity) : a.leave.maxDepth = a.maxDepth := by
  rw [leave]
  cases a.active <;> rfl

theorem leave_depth (h : a.Nested) : a.leave.depth = a.depth - 1 := by
  obtain ⟨ids, h⟩ := h
  rw [leave]
  cases hactive : a.active with
  | none =>
    have hchain := h.chain
    rw [hactive] at hchain
    cases hchain with
    | nil =>
      have hdepth : 0 = a.depth := h.length
      dsimp only
      omega
  | some id => rfl

theorem Nested.leave (h : a.Nested) : a.leave.Nested := by
  obtain ⟨ids, h⟩ := h
  cases ids with
  | cons id ids => exact ⟨ids, h.leave⟩
  | nil =>
    have hactive : a.active = none := by
      have hchain := h.chain
      generalize a.active = active at hchain
      cases hchain
      rfl
    have hleave : a.leave = a := by rw [Activity.leave, hactive]
    rw [hleave]
    exact ⟨[], h⟩

theorem Nested.atRest (h : a.Nested) (hdepth : a.depth = 0) : a.AtRest := by
  obtain ⟨ids, h⟩ := h
  obtain rfl : ids = [] := List.length_eq_zero_iff.mp (h.length.trans hdepth)
  constructor
  · have hchain := h.chain
    generalize a.active = active at hchain
    cases hchain
    rfl
  · exact hdepth
  · intro id sender hsender
    exact h.ended id sender List.not_mem_nil hsender

theorem Nested.exists_active (h : a.Nested) (hdepth : 0 < a.depth) :
    ∃ id sender, a.active = some id ∧ a.senders[id]? = some sender := by
  obtain ⟨ids, h⟩ := h
  have hchain := h.chain
  have hlength := h.length
  generalize a.active = active at hchain
  cases hchain with
  | nil => exact absurd hlength (by simp; omega)
  | cons hsender _ => exact ⟨_, _, rfl, hsender⟩

end Activity

/-- Changing one element shows only through a function that tells it apart. -/
theorem map_modify_of_eq {α β : Type} {xs : Array α} {i : Nat} {f : α → β} {g : α → α}
    (h : ∀ x, xs[i]? = some x → f (g x) = f x) : (xs.modify i g).map f = xs.map f := by
  apply Array.ext_getElem?
  intro j
  rw [Array.getElem?_map, Array.getElem?_map, Array.getElem?_modify]
  split_ifs with hj
  · subst hj
    cases hx : xs[i]? with
    | none => rfl
    | some x => simp [h x hx]
  · rfl

namespace Machine

def activity (m : Machine) : Activity :=
  ⟨m.memory.contexts.map Context.sender, m.active, m.depth, m.maxDepth⟩

variable {m m' : Machine}

/-- Nothing but contexts, the active one and the depths matters. -/
theorem activity_congr (hcontexts : m'.memory.contexts = m.memory.contexts)
    (hactive : m'.active = m.active) (hdepth : m'.depth = m.depth)
    (hmax : m'.maxDepth = m.maxDepth) : m'.activity = m.activity := by
  simp only [activity, hcontexts, hactive, hdepth, hmax]

theorem Rerooted.activity_eq (h : m.Rerooted m') : m'.activity = m.activity :=
  activity_congr (congrArg Memory.contexts h.memory) h.active h.depth h.maxDepth

theorem activity_modifyContext (m : Machine) (id : ContextId) {g : Context → Context}
    (h : ∀ c, m.memory.contexts[id]? = some c → (g c).sender = c.sender) :
    activity { m with memory := m.memory.modifyContext id g } = m.activity := by
  simp only [activity, Memory.modifyContext, map_modify_of_eq h]

theorem activity_setContext {id : ContextId} {c c' : Context}
    (h : m.memory.contexts[id]? = some c) (hsender : c'.sender = c.sender) :
    (m.setContext id c').activity = m.activity := by
  apply activity_modifyContext
  intro c₁ hc₁
  rw [h] at hc₁
  obtain rfl := Option.some.inj hc₁
  exact hsender

theorem activity_pushed (m : Machine) (v : Value) : (m.pushed v).activity = m.activity := by
  rw [pushed]
  cases hactive : m.active with
  | none => rfl
  | some id =>
    dsimp only
    rw [← hactive]
    exact m.activity_modifyContext id fun _ _ => rfl

theorem activity_leave (m : Machine) : m.leave.activity = m.activity.leave := by
  rw [leave, Activity.leave]
  cases hactive : m.active with
  | none => simp only [activity, hactive]
  | some id =>
    have hsenders : (m.memory.contexts.modify id fun c => { c with sender := none }).map
        Context.sender = (m.memory.contexts.map Context.sender).modify id fun _ => none := by
      apply Array.ext_getElem?
      intro j
      rw [Array.getElem?_map, Array.getElem?_modify, Array.getElem?_modify, Array.getElem?_map]
      split_ifs
      · cases m.memory.contexts[j]? <;> rfl
      · rfl
    have hsender : ((m.memory.contexts.map Context.sender)[id]?).join =
        (m.memory.contexts[id]?).bind Context.sender := by
      rw [Array.getElem?_map]
      cases m.memory.contexts[id]? <;> rfl
    simp only [activity, hactive, Memory.modifyContext, hsenders, hsender]

theorem activity_activate (m : Machine) (c : Call) : (m.activate c).activity = m.activity.call := by
  simp [activity, activate, Activity.call, Context.new]

theorem activity_write (m : Machine) (v : Value) (g : Body → Body) :
    (m.write v g).activity = m.activity :=
  activity_congr (Memory.modifyObject_contexts ..) rfl rfl rfl

end Machine

/-- What no collection changes in a context. -/
structure Frame where
  sender : Option ContextId
  outer : Option ContextId
  pc : Nat
  temporaryCount : Nat

def Context.frame (c : Context) : Frame := ⟨c.sender, c.outer, c.pc, c.temporaries.size⟩

theorem Context.frame_mapEdges (c : Context) (f : Value → Value) :
    (c.mapEdges f).frame = c.frame := by
  simp [mapEdges_eq, frame]

namespace Survey

variable {s t : Survey}

theorem contexts_of_meet {v : Value} (h : s.meet v = .ok t) : t.contexts = s.contexts := by
  unfold meet at h
  split at h
  · split at h
    · cases h
    · cases h
      rfl
    · cases h
      rfl
  · cases h
    rfl

theorem contexts_of_visit {r : Root} (h : s.visit r = .ok t) : t.contexts = s.contexts := by
  cases r with
  | value v => exact contexts_of_meet h
  | context id =>
    cases h
    rfl

theorem contexts_of_visitAll {roots : List Root} (h : s.visitAll roots = .ok t) :
    t.contexts = s.contexts := by
  induction roots generalizing s with
  | nil =>
    cases h
    rfl
  | cons r rest ih =>
    rw [visitAll, List.foldlM_cons] at h
    cases hr : s.visit r with
    | error f =>
      rw [hr] at h
      cases h
    | ok s' =>
      rw [hr] at h
      rw [ih h, contexts_of_visit hr]

theorem frames_of_trace {id : ContextId} (h : s.trace id = .ok t) :
    t.contexts.map Context.frame = s.contexts.map Context.frame := by
  unfold trace at h
  split at h
  · cases h
    rfl
  · dsimp only at h
    split_ifs at h
    · cases h
      rfl
    · rw [contexts_of_visitAll h]
      dsimp only
      apply map_modify_of_eq
      exact fun _ _ => rfl

theorem frames_of_scan {fuel scanned : Nat} (h : s.scan fuel scanned = .ok t) :
    t.contexts.map Context.frame = s.contexts.map Context.frame := by
  induction fuel generalizing s scanned with
  | zero =>
    cases h
    rfl
  | succ fuel ih =>
    rw [scan] at h
    split at h
    · next i _ =>
      cases hv : s.visitAll ((s.space[i]?.map HeapObject.roots).getD []) with
      | error f =>
        rw [hv] at h
        cases h
      | ok s' =>
        rw [hv] at h
        rw [ih h, contexts_of_visitAll hv]
    · split at h
      · cases h
        rfl
      · next id rest _ =>
        cases ht : trace { s with waiting := rest } id with
        | error f =>
          rw [ht] at h
          cases h
        | ok s' =>
          rw [ht] at h
          rw [ih h, frames_of_trace ht]

theorem frames_relocatedContexts (s : Survey) :
    s.relocatedContexts.map Context.frame = s.contexts.map Context.frame := by
  rw [relocatedContexts, ← Array.foldl_toList]
  generalize s.contexts = contexts
  induction s.traced.toList generalizing contexts with
  | nil => rfl
  | cons id rest ih =>
    rw [List.foldl_cons, ih]
    exact map_modify_of_eq fun c _ => c.frame_mapEdges s.relocate

end Survey

theorem Survey.frames_of_complete {s t : Survey} {roots : List Root}
    (h : s.complete roots = .ok t) :
    t.contexts.map Context.frame = s.contexts.map Context.frame := by
  unfold complete at h
  cases hv : s.visitAll roots with
  | error f =>
    rw [hv] at h
    cases h
  | ok s' =>
    rw [hv] at h
    rw [frames_of_scan h, contexts_of_visitAll hv]

theorem Memory.frames_of_collect {mem : Memory} {roots : List Root} {c : Collection}
    (h : mem.collect roots = .ok c) :
    c.memory.contexts.map Context.frame = mem.contexts.map Context.frame := by
  cases hs : (Survey.start (mem.collections + 1) mem).complete roots with
  | error f =>
    rw [collect_of_fault hs] at h
    cases h
  | ok s =>
    have hframes : s.relocatedContexts.map Context.frame = mem.contexts.map Context.frame := by
      rw [s.frames_relocatedContexts, Survey.frames_of_complete hs]
      rfl
    rw [collect_of_complete hs] at h
    split_ifs at h
    · cases h
      exact hframes
    · cases h
      exact hframes

def Activity.Holds (a : Activity) (m : Machine) : Prop := m.activity = a

section

variable {a : Activity}

theorem Activity.Holds.congr {m m' : Machine} (h : a.Holds m)
    (hcontexts : m'.memory.contexts = m.memory.contexts) (hactive : m'.active = m.active)
    (hdepth : m'.depth = m.depth) (hmax : m'.maxDepth = m.maxDepth) : a.Holds m' :=
  (Machine.activity_congr hcontexts hactive hdepth hmax).trans h

theorem Activity.Holds.settle {m : Machine} (h : a.Holds m) {roots : List Root} {c : Collection}
    (hc : m.memory.collect roots = .ok c) : a.Holds (m.settle c) := by
  have hsenders : c.memory.contexts.map Context.sender = m.memory.contexts.map Context.sender := by
    have hframes := congrArg (Array.map Frame.sender) (Memory.frames_of_collect hc)
    rw [Array.map_map, Array.map_map] at hframes
    exact hframes
  rw [Holds, ← h]
  simp only [Machine.activity, Machine.settle_memory, hsenders]
  rfl

theorem allocate_steady (o : HeapObject) : Upholds a.Holds (allocate o) := by
  intro m hm
  unfold allocate
  split_ifs
  · cases hc : m.memory.collect (m.roots ++ o.roots) with
    | error f => exact .fault (hm.congr rfl rfl rfl rfl)
    | ok c => exact .ok ((hm.settle hc).congr rfl rfl rfl rfl)
  · exact .ok (hm.congr rfl rfl rfl rfl)

theorem collectGarbage_steady : Upholds a.Holds collectGarbage := by
  intro m hm
  unfold collectGarbage
  cases hc : m.memory.collect m.roots with
  | error f => exact .fault (hm.congr rfl rfl rfl rfl)
  | ok c => exact .ok (hm.settle hc)

theorem made_steady (o : Machine → HeapObject) :
    Upholds a.Holds (get >>= fun m => allocate (o m)) :=
  .get_bind fun m => allocate_steady (o m)

theorem intern_steady (name : String) : Upholds a.Holds (intern name) := by
  apply Upholds.get_bind
  intro m
  cases m.symbols.get? name with
  | some v => exact .pure v
  | none =>
    apply Upholds.get_bind
    intro m
    apply (allocate_steady _).bind
    intro v
    apply Upholds.bind
    · exact .modify fun _ hm => hm.congr rfl rfl rfl rfl
    · exact fun _ => .pure v

/-- No construction touches the chain. -/
theorem Activity.stable (a : Activity) : Stable a.Holds where
  rerooted hm hm' := hm'.activity_eq.trans hm
  allocate o _ := allocate_steady o
  intern := intern_steady
  define hm _ _ := hm.congr (Memory.modifyObject_contexts ..) rfl rfl rfl
  adopt := .modify fun _ hm => hm.congr rfl rfl rfl rfl

theorem Draft.build_steady (d : Draft) : Upholds a.Holds d.build :=
  a.stable.build fun _ _ => made_steady _

theorem Draft.install_steady (d : Draft) : Upholds a.Holds d.install :=
  fun m hm => a.stable.install (d.build_steady m hm)

theorem setUp_steady : Upholds a.Holds setUp := by
  apply a.stable.setUp
  · intro className selector primitive
    apply Upholds.get_bind
    intro m
    apply (Draft.install_steady _).bind
    exact fun _ => .pure ()
  · intro className selector v
    apply Upholds.get_bind
    intro m
    apply (Draft.install_steady _).bind
    exact fun _ => .pure ()

end

end ObjectMachine

import ObjectMachine.Proofs.IndexedRuns
import ObjectMachine.Proofs.Trails
import Mathlib.Data.List.Find
import Mathlib.Logic.Relation

/-!
# Lexical scope

A block finds the temporaries of the contexts around it by following outer links.
Every such link leads to an older context, in all machines that a host can get to,
so a search for a temporary looks at each context around once and comes to an end.
It finds the temporary of the nearest context that has it, whoever has called whom.
-/

namespace ObjectMachine

open ObjectMachine.Action

/-- What keeps outer links from going around: they lead to older contexts, also
those of blocks that may be called yet. -/
structure Machine.Lexical (m : Machine) : Prop where
  outer : ∀ (id : ContextId) c o, m.memory.contexts[id]? = some c → c.outer = some o → o < id
  block : ∀ v b id, m.memory.body? v = some b → b.outer? = some id → id < m.memory.contexts.size
  sender : ∀ (id : ContextId) c s, m.memory.contexts[id]? = some c → c.sender = some s →
    s < m.memory.contexts.size
  active : ∀ id, m.active = some id → id < m.memory.contexts.size

namespace Machine.Lexical

variable {m m' : Machine}

/-- Contexts stay linked as they are, or lose a sender. -/
theorem carry (h : m.Lexical) (hsize : m'.memory.contexts.size = m.memory.contexts.size)
    (hcontexts : ∀ (id : ContextId) c', m'.memory.contexts[id]? = some c' →
      ∃ c, m.memory.contexts[id]? = some c ∧ c'.outer = c.outer ∧
        ∀ s, c'.sender = some s → c.sender = some s)
    (hblocks : ∀ v' b' id, m'.memory.body? v' = some b' → b'.outer? = some id →
      (∃ v b, m.memory.body? v = some b ∧ b.outer? = some id) ∨ id < m.memory.contexts.size)
    (hactive : ∀ id, m'.active = some id → id < m.memory.contexts.size) : m'.Lexical := by
  constructor
  · intro id c' o hc' ho
    obtain ⟨c, hc, houter, -⟩ := hcontexts id c' hc'
    exact h.outer id c o hc (houter ▸ ho)
  · intro v' b' id hb' hid
    rw [hsize]
    rcases hblocks v' b' id hb' hid with ⟨v, b, hb, hid⟩ | hid
    · exact h.block v b id hb hid
    · exact hid
  · intro id c' s hc' hs
    obtain ⟨c, hc, -, hsender⟩ := hcontexts id c' hc'
    rw [hsize]
    exact h.sender id c s hc (hsender s hs)
  · rw [hsize]
    exact hactive

/-- Objects may change as long as no block gets another outer context. -/
theorem withObjects (h : m.Lexical) (hcontexts : m'.memory.contexts = m.memory.contexts)
    (hactive : m'.active = m.active)
    (hblocks : ∀ v' b' id, m'.memory.body? v' = some b' → b'.outer? = some id →
      (∃ v b, m.memory.body? v = some b ∧ b.outer? = some id) ∨ id < m.memory.contexts.size) :
    m'.Lexical := by
  apply h.carry (congrArg Array.size hcontexts) _ hblocks
  · rw [hactive]
    exact h.active
  · intro id c hc
    rw [hcontexts] at hc
    exact ⟨c, hc, rfl, fun _ hs => hs⟩

theorem withContext (h : m.Lexical) (id : ContextId) {g : Context → Context}
    (hg : ∀ c, m.memory.contexts[id]? = some c →
      (g c).outer = c.outer ∧ ∀ s, (g c).sender = some s → c.sender = some s)
    {active : Option ContextId} {depth : Nat}
    (hactive : ∀ id, active = some id → id < m.memory.contexts.size) :
    Lexical { m with memory := m.memory.modifyContext id g, active, depth } := by
  apply h.carry
  · exact Array.size_modify
  · intro id' c' hc'
    change (m.memory.contexts.modify id g)[id']? = some c' at hc'
    rw [Array.getElem?_modify] at hc'
    split_ifs at hc' with hid
    · subst hid
      obtain ⟨c, hc, rfl⟩ := Option.map_eq_some_iff.mp hc'
      exact ⟨c, hc, hg c hc⟩
    · exact ⟨c', hc', rfl, fun _ hs => hs⟩
  · exact fun v b id hb hid => .inl ⟨v, b, hb, hid⟩
  · exact hactive

theorem write (h : m.Lexical) (v : Value) {g : Body → Body}
    (hg : ∀ b id, (g b).outer? = some id → b.outer? = some id) : (m.write v g).Lexical := by
  have hcontexts : (m.write v g).memory.contexts = m.memory.contexts :=
    Memory.modifyObject_contexts ..
  apply h.withObjects hcontexts rfl
  intro v' b' id hb' hid
  left
  have hbody : (m.write v g).memory.body? v' = _ := m.memory.body?_modifyBody v v' g
  rw [hbody] at hb'
  split_ifs at hb' with hv
  · obtain ⟨b, hb, rfl⟩ := Option.map_eq_some_iff.mp hb'
    exact ⟨v', b, hb, hg b id hid⟩
  · exact ⟨v', b', hb', hid⟩

theorem leave (h : m.Lexical) : m.leave.Lexical := by
  rw [Machine.leave]
  cases hactive : m.active with
  | none => exact h
  | some id =>
    apply h.withContext
    · exact fun c _ => ⟨rfl, fun s hs => absurd hs (by simp)⟩
    · intro s hs
      obtain ⟨c, hc, hs⟩ := Option.bind_eq_some_iff.mp hs
      exact h.sender id c s hc hs

/-- The new context is younger than the one around it. -/
theorem activate (h : m.Lexical) {call : Call}
    (houter : ∀ id, call.outer = some id → id < m.memory.contexts.size) :
    (m.activate call).Lexical := by
  have hsize : (m.activate call).memory.contexts.size = m.memory.contexts.size + 1 :=
    Array.size_push _
  have hcontexts : ∀ (id : ContextId) c, (m.activate call).memory.contexts[id]? = some c →
      m.memory.contexts[id]? = some c ∨
        id = m.memory.contexts.size ∧ c.outer = call.outer ∧ c.sender = m.active := by
    intro id c hc
    change (m.memory.contexts.push _)[id]? = some c at hc
    rw [Array.getElem?_push] at hc
    split_ifs at hc with hid
    · cases hc
      exact .inr ⟨hid, rfl, rfl⟩
    · exact .inl hc
  constructor
  · intro id c o hc ho
    rcases hcontexts id c hc with hc | ⟨rfl, hc, -⟩
    · exact h.outer id c o hc ho
    · exact houter o (hc ▸ ho)
  · intro v b id hb hid
    rw [hsize]
    exact Nat.lt_succ_of_lt (h.block v b id hb hid)
  · intro id c s hc hs
    rw [hsize]
    apply Nat.lt_succ_of_lt
    rcases hcontexts id c hc with hc | ⟨-, -, hc⟩
    · exact h.sender id c s hc hs
    · exact h.active s (hc ▸ hs)
  · intro id hid
    cases hid
    rw [hsize]
    exact Nat.lt_succ_self _

theorem relocated {kept : Root → Prop} {f : Nat → Nat} (h : m.Lexical)
    (hm' : Relocated kept f m m') : m'.Lexical := by
  apply h.carry hm'.contextCount
  · intro id c' hc'
    have hframe := hm'.frame_eq id
    rw [hc'] at hframe
    obtain ⟨c, hc, heq⟩ := Option.map_eq_some_iff.mp hframe.symm
    have hsender := congrArg Frame.sender heq
    exact ⟨c, hc, (congrArg Frame.outer heq).symm, fun s hs => hsender.trans hs⟩
  · intro v' b' id hb' hid
    left
    obtain ⟨v, b, -, hb, -, rfl⟩ := hm'.exists_body? hb'
    rw [Body.outer?_map] at hid
    exact ⟨v, b, hb, hid⟩
  · rw [hm'.active]
    exact h.active

theorem places (h : m.Lexical) (hepochs : m.memory.EpochsPast) {o : HeapObject} {d : Displacement}
    {v : Value} (hp : Places m o d v m')
    (ho : ∀ id, o.body.outer? = some id → id < m.memory.contexts.size) : m'.Lexical := by
  obtain ⟨kept, m₁, hshifted, -, -, rfl⟩ := hp.shifted hepochs
  refine (h.relocated hshifted.toRelocated).withObjects rfl rfl ?_
  intro v' b' id hb' hid
  rcases Memory.body?_of_append hb' with hold | ⟨-, rfl⟩
  · exact .inl ⟨v', b', hold, hid⟩
  · rw [HeapObject.mapEdges_body, Body.outer?_map] at hid
    rw [hshifted.contextCount]
    exact .inr (ho id hid)

end Machine.Lexical

theorem Body.lasts_of_outer? {b : Body} {id : ContextId} (h : b.outer? = some id) :
    b.lasts = true := by
  cases b with
  | block => rfl
  | _ => cases h

section

variable {m m' : Machine} {d : Displacement}

theorem Places.size_contexts {o : HeapObject} {v : Value} (hp : Places m o d v m')
    (hepochs : m.memory.EpochsPast) : m'.memory.contexts.size = m.memory.contexts.size := by
  obtain ⟨kept, m₁, hshifted, -, -, rfl⟩ := hp.shifted hepochs
  exact hshifted.contextCount

/-- Blocks are made inside the active context. -/
theorem Creates.outer_active {o : HeapObject} (h : Creates m o) {id : ContextId}
    (hid : o.body.outer? = some id) : m.active = some id := by
  cases h with
  | block hruns =>
    cases hid
    exact hruns.active
  | primitive hmakes =>
    cases hmakes with
    | emptyBlock => exact hid
    | other hlasts => exact absurd (Body.lasts_of_outer? hid) (Bool.eq_false_iff.mp hlasts)

theorem Act.lexical (h : Act m d m') (hepochs : m.memory.EpochsPast) (hm : m.Lexical) :
    m'.Lexical := by
  have hsame : ∀ v b id, m.memory.body? v = some b → b.outer? = some id →
      (∃ v b, m.memory.body? v = some b ∧ b.outer? = some id) ∨ id < m.memory.contexts.size :=
    fun v b id hb hid => .inl ⟨v, b, hb, hid⟩
  cases h with
  | note => exact hm.withObjects rfl rfl hsame
  | @operate id c stack pc hruns =>
    apply hm.withContext id _ hm.active
    intro c' hc'
    rw [hruns.context] at hc'
    cases hc'
    exact ⟨rfl, fun _ hs => hs⟩
  | setTemporary home index v =>
    apply hm.withContext home _ hm.active
    exact fun c _ => ⟨rfl, fun _ hs => hs⟩
  | write v hg =>
    apply hm.write v
    intro b id hid
    rwa [hg.eq_self (.inr (Body.isFixed_of_lasts (Body.lasts_of_outer? hid)))] at hid
  | create hcreates hplaces =>
    exact hm.places hepochs hplaces fun id hid => hm.active id (hcreates.outer_active hid)
  | attempt => exact hm.withObjects rfl rfl hsame
  | callMethod =>
    apply hm.activate
    intro id hid
    cases hid
  | callBlock _ hb => exact hm.activate fun id hid => hm.block _ _ id hb hid
  | leave => exact hm.leave

/-- No context goes away. -/
theorem Act.size_contexts_le (h : Act m d m') (hepochs : m.memory.EpochsPast) :
    m.memory.contexts.size ≤ m'.memory.contexts.size := by
  have hmodify : ∀ id (g : Context → Context),
      m.memory.contexts.size ≤ (m.memory.modifyContext id g).contexts.size :=
    fun id g => Array.size_modify.ge
  cases h with
  | note | attempt => exact le_rfl
  | operate | setTemporary => exact hmodify _ _
  | write => exact (congrArg Array.size (Memory.modifyObject_contexts ..)).ge
  | create _ hplaces => exact (hplaces.size_contexts hepochs).ge
  | callMethod | callBlock =>
    change _ ≤ (m.memory.contexts.push _).size
    rw [Array.size_push]
    exact Nat.le_succ _
  | leave =>
    rw [Machine.leave]
    cases m.active with
    | none => exact le_rfl
    | some id => exact hmodify _ _

variable {brings : Body → Prop} {n : Nat}

/-- Changes keep the order of contexts if the code that comes in keeps to the `n`
oldest. -/
theorem Change.lexical (h : Change brings m d m') (hepochs : m.memory.EpochsPast)
    (hbrings : ∀ b, brings b → ∀ id, b.outer? = some id → id < n)
    (hm : n ≤ m.memory.contexts.size ∧ m.Lexical) :
    n ≤ m'.memory.contexts.size ∧ m'.Lexical := by
  obtain ⟨hn, hm⟩ := hm
  cases h with
  | act hact => exact ⟨hn.trans (hact.size_contexts_le hepochs), hact.lexical hepochs hm⟩
  | reroot hm' =>
    rw [hm'.memory]
    refine ⟨hn, hm.withObjects (congrArg Memory.contexts hm'.memory) hm'.active ?_⟩
    rw [hm'.memory]
    exact fun v b id hb hid => .inl ⟨v, b, hb, hid⟩
  | make ho hplaces =>
    refine ⟨hn.trans (hplaces.size_contexts hepochs).ge, hm.places hepochs hplaces ?_⟩
    intro id hid
    exact Nat.lt_of_lt_of_le (hbrings _ (ho (Body.lasts_of_outer? hid)) id hid) hn
  | intern _ hplaces =>
    have hm' := hm.places hepochs hplaces fun id hid => (by cases hid)
    refine ⟨hn.trans (hplaces.size_contexts hepochs).ge, hm'.withObjects rfl rfl ?_⟩
    exact fun v b id hb hid => .inl ⟨v, b, hb, hid⟩
  | define t' =>
    constructor
    · exact hn.trans (congrArg Array.size (Memory.modifyObject_contexts ..)).ge
    · apply hm.write
      intro b id hid
      cases hid
  | adopt =>
    refine ⟨hn, hm.withObjects rfl rfl ?_⟩
    intro v b id hb hid
    rw [m.body?_adopt] at hb
    exact .inl ⟨v, b, hb, hid⟩
  | collect hc =>
    rw [← List.append_nil m.roots] at hc
    have hshifted := Shifted.collected hepochs hc
    exact ⟨hn.trans hshifted.contextCount.ge, hm.relocated hshifted.toRelocated⟩

theorem Linked.lexical (h : Linked (Change brings) m m') (hepochs : m.memory.EpochsPast)
    (hbrings : ∀ b, brings b → ∀ id, b.outer? = some id → id < m.memory.contexts.size)
    (hm : m.Lexical) : m'.Lexical :=
  (h.keeps hepochs (fun hepochs hchange hm => hchange.lexical hepochs hbrings hm)
    ⟨le_rfl, hm⟩).2.2

/-- The contexts that the host passes exist. -/
def Operation.PassesContexts (m : Machine) (op : Operation) : Prop :=
  ∀ id, op.outer? = some id → id < m.memory.contexts.size

/-- Outer links lead to older contexts in every machine that occurs. -/
theorem Occurs.lexical (h : Occurs Operation.PassesContexts m) : m.Lexical := by
  apply h.keeps
  · intro settings maxDepth
    constructor
    · intro id c o hc
      simp [Machine.bare] at hc
    · intro v b id hb
      rw [Machine.body?_bare] at hb
      cases hb
    · intro id c s hc
      simp [Machine.bare] at hc
    · intro id hid
      cases hid
  · intro m m' hepochs hlinked hm
    apply hlinked.lexical hepochs _ hm
    rintro _ (_ | _) id hid
    · cases hid
    · cases hid
  · intro m m' op hop hepochs hlinked hm
    apply hlinked.lexical hepochs _ hm
    intro b hb id hid
    cases hb with
    | newBlock b => exact hop id hid
    | _ => cases hid

end

namespace Memory

/-- The context at `id` runs a block that the one at `outer` has made. -/
def OuterLink (mem : Memory) (id outer : ContextId) : Prop :=
  ∃ c, mem.contexts[id]? = some c ∧ c.outer = some outer

/-- The context at `id` and those around it, from the inside out. -/
inductive Scopes (mem : Memory) : ContextId → List ContextId → Prop
  | outermost {id : ContextId} {c : Context} : mem.contexts[id]? = some c → c.outer = none →
      Scopes mem id [id]
  | inside {id outer : ContextId} {c : Context} {ids : List ContextId} :
      mem.contexts[id]? = some c → c.outer = some outer → Scopes mem outer ids →
      Scopes mem id (id :: ids)

def slot? (mem : Memory) (index : Nat) (id : ContextId) : Option Value :=
  (mem.contexts[id]?).bind fun c => c.temporaries[index]?

def nearest? (mem : Memory) (ids : List ContextId) (index : Nat) : Option ContextId :=
  ids.find? fun id => (mem.slot? index id).isSome

variable {mem mem' : Memory} {id : ContextId} {ids : List ContextId} {index : Nat}

theorem slot?_eq {c : Context} (h : mem.contexts[id]? = some c) (index : Nat) :
    mem.slot? index id = c.temporaries[index]? := by
  rw [slot?, h]
  rfl

theorem nearest?_cons {c : Context} (h : mem.contexts[id]? = some c) (ids : List ContextId)
    (index : Nat) : mem.nearest? (id :: ids) index =
      if index < c.temporaries.size then some id else mem.nearest? ids index := by
  rw [nearest?, List.find?_cons, slot?_eq h]
  by_cases hindex : index < c.temporaries.size
  · simp [hindex]
  · rw [if_neg hindex, Array.getElem?_eq_none (Nat.le_of_not_lt hindex)]
    rfl

namespace Scopes

/-- The search for a temporary goes through the scopes. -/
theorem homeFrom_eq (h : mem.Scopes id ids) {fuel : Nat} (hfuel : ids.length ≤ fuel) :
    mem.homeFrom index fuel id = mem.nearest? ids index := by
  induction h generalizing fuel with
  | outermost hc houter =>
    cases fuel with
    | zero => cases hfuel
    | succ fuel =>
      rw [homeFrom, hc, nearest?_cons hc]
      dsimp only
      rw [houter]
      rfl
  | inside hc houter _ ih =>
    cases fuel with
    | zero => cases hfuel
    | succ fuel =>
      rw [homeFrom, hc, nearest?_cons hc, ← ih (Nat.le_of_succ_le_succ hfuel)]
      dsimp only
      rw [houter]

theorem lt_size (h : mem.Scopes id ids) : id < mem.contexts.size := by
  cases h with
  | outermost hc => exact (Array.getElem?_eq_some_iff.mp hc).1
  | inside hc => exact (Array.getElem?_eq_some_iff.mp hc).1

/-- The same scopes in a memory with the same links between them. -/
theorem congr (h : mem.Scopes id ids)
    (hmem : ∀ k ∈ ids,
      (mem'.contexts[k]?).map Context.outer = (mem.contexts[k]?).map Context.outer) :
    mem'.Scopes id ids := by
  induction h with
  | @outermost id c hc houter =>
    have hlink := hmem id (List.mem_singleton_self id)
    rw [hc] at hlink
    obtain ⟨c', hc', heq⟩ := Option.map_eq_some_iff.mp hlink
    exact .outermost hc' (heq.trans houter)
  | @inside id outer c ids hc houter _ ih =>
    have hlink := hmem id List.mem_cons_self
    rw [hc] at hlink
    obtain ⟨c', hc', heq⟩ := Option.map_eq_some_iff.mp hlink
    exact .inside hc' (heq.trans houter) (ih fun k hk => hmem k (List.mem_cons_of_mem _ hk))

end Scopes

theorem temporary?_eq (mem : Memory) (id : ContextId) (index : Nat) :
    mem.temporary? id index = (mem.home? id index).bind (mem.slot? index) := by
  rw [temporary?]
  cases mem.home? id index <;> rfl

theorem nearest?_bind (mem : Memory) (ids : List ContextId) (index : Nat) :
    (mem.nearest? ids index).bind (mem.slot? index) = ids.findSome? (mem.slot? index) := by
  induction ids with
  | nil => rfl
  | cons id ids ih =>
    cases hslot : mem.slot? index id with
    | none =>
      rw [nearest?, List.find?_cons_of_neg (by simp [hslot]), List.findSome?_cons, hslot]
      exact ih
    | some v =>
      rw [nearest?, List.find?_cons_of_pos (by simp [hslot]), List.findSome?_cons, hslot]
      exact hslot

end Memory

namespace Machine.Lexical

variable {m : Machine} (h : m.Lexical)

include h

/-- Outer links do not go around. -/
theorem acyclic (id : ContextId) : ¬Relation.TransGen m.memory.OuterLink id id := by
  have hlt : ∀ {outer}, Relation.TransGen m.memory.OuterLink id outer → outer < id := by
    intro outer hpath
    induction hpath with
    | single hlink =>
      obtain ⟨c, hc, houter⟩ := hlink
      exact h.outer id c _ hc houter
    | tail _ hlink ih =>
      obtain ⟨c, hc, houter⟩ := hlink
      exact (h.outer _ c _ hc houter).trans ih
  exact fun hpath => Nat.lt_irrefl id (hlt hpath)

theorem exists_scopes (id : ContextId) (hid : id < m.memory.contexts.size) :
    ∃ ids, m.memory.Scopes id ids := by
  induction id using Nat.strong_induction_on with
  | _ id ih =>
    have hc := Array.getElem?_eq_getElem hid
    cases houter : m.memory.contexts[id].outer with
    | none => exact ⟨_, .outermost hc houter⟩
    | some outer =>
      have hlt := h.outer id _ outer hc houter
      obtain ⟨ids, hids⟩ := ih outer hlt (hlt.trans hid)
      exact ⟨_, .inside hc houter hids⟩

theorem length_scopes_le {id : ContextId} {ids : List ContextId} (hids : m.memory.Scopes id ids) :
    ids.length ≤ id + 1 := by
  induction hids with
  | outermost => exact Nat.le_add_left _ _
  | inside hc houter _ ih =>
    have hlt := h.outer _ _ _ hc houter
    exact Nat.succ_le_succ (ih.trans hlt)

end Machine.Lexical

namespace Memory

/-- One temporary has got the value `v`, and nothing else has changed. -/
structure Overwrites (mem : Memory) (home : ContextId) (index : Nat) (v : Value) (mem' : Memory) :
    Prop where
  slots : ∀ j id, mem'.slot? j id = if id = home ∧ j = index then some v else mem.slot? j id
  contexts : ∀ id : ContextId,
    (mem'.contexts[id]?).map (fun c => { c with temporaries := #[] }) =
      (mem.contexts[id]?).map fun c => { c with temporaries := #[] }
  rest : { mem' with contexts := #[] } = { mem with contexts := #[] }
  /-- A load that comes to this temporary answers `v`, any other what it did. -/
  loads : ∀ id j, mem'.temporary? id j =
    if mem.home? id j = some home ∧ j = index then some v else mem.temporary? id j

variable {mem mem' : Memory} {home : ContextId} {index : Nat}

theorem getElem?_setTemporary (mem : Memory) (home : ContextId) (index : Nat) (v : Value)
    (id : ContextId) :
    (mem.setTemporary home index v).contexts[id]? =
      if home = id then (mem.contexts[id]?).map fun c =>
        { c with temporaries := c.temporaries.set! index v }
      else mem.contexts[id]? :=
  Array.getElem?_modify

theorem slot?_setTemporary (v : Value) {c : Context} (hc : mem.contexts[home]? = some c)
    (hindex : index < c.temporaries.size) (j : Nat) (id : ContextId) :
    (mem.setTemporary home index v).slot? j id =
      if id = home ∧ j = index then some v else mem.slot? j id := by
  rw [slot?, getElem?_setTemporary]
  by_cases hid : home = id
  · subst hid
    rw [if_pos rfl, hc, slot?_eq hc]
    change (c.temporaries.set! index v)[j]? = _
    rw [Array.set!_eq_setIfInBounds, Array.getElem?_setIfInBounds]
    by_cases hj : index = j
    · subst hj
      simp [hindex]
    · rw [if_neg hj, if_neg fun h => hj h.2.symm]
  · rw [if_neg hid, if_neg fun h => hid h.1.symm]
    rfl

/-- The search looks at outer links and at how many temporaries there are. -/
theorem homeFrom_congr (h : ∀ id : ContextId,
      (mem'.contexts[id]?).map (fun c => (c.outer, c.temporaries.size)) =
        (mem.contexts[id]?).map fun c => (c.outer, c.temporaries.size)) (fuel : Nat)
    (id : ContextId) : mem'.homeFrom index fuel id = mem.homeFrom index fuel id := by
  induction fuel generalizing id with
  | zero => rfl
  | succ fuel ih =>
    have hid := h id
    rw [homeFrom, homeFrom]
    cases hc : mem.contexts[id]? with
    | none =>
      rw [hc] at hid
      rw [Option.map_eq_none_iff.mp hid]
    | some c =>
      rw [hc] at hid
      obtain ⟨c', hc', heq⟩ := Option.map_eq_some_iff.mp hid
      obtain ⟨houter, hsize⟩ := Prod.mk.inj heq
      rw [hc']
      dsimp only
      rw [houter, hsize]
      split_ifs
      · rfl
      · cases c.outer with
        | none => rfl
        | some outer => exact ih outer

theorem home?_setTemporary (mem : Memory) (home : ContextId) (index : Nat) (v : Value)
    (id : ContextId) (j : Nat) :
    (mem.setTemporary home index v).home? id j = mem.home? id j := by
  rw [home?, home?, show (mem.setTemporary home index v).contexts.size = _ from Array.size_modify]
  apply homeFrom_congr
  intro id
  rw [getElem?_setTemporary]
  split_ifs
  · rw [Option.map_map]
    congr 1
    funext c
    simp
  · rfl

/-- A store changes the one temporary that it finds. -/
theorem overwrites_setTemporary (v : Value) {c : Context} (hc : mem.contexts[home]? = some c)
    (hindex : index < c.temporaries.size) :
    mem.Overwrites home index v (mem.setTemporary home index v) := by
  constructor
  · exact slot?_setTemporary v hc hindex
  · intro id
    rw [getElem?_setTemporary]
    split_ifs
    · rw [Option.map_map]
      rfl
    · rfl
  · rfl
  · intro id j
    rw [temporary?_eq, temporary?_eq, home?_setTemporary]
    cases hhome : mem.home? id j with
    | none => simp
    | some k =>
      rw [Option.bind_some, Option.bind_some, slot?_setTemporary v hc hindex]
      simp only [Option.some.injEq]

end Memory

section

variable {m : Machine} {id : ContextId} {c : Context} {code : Code} {literals : Array Value}

theorem pushTemporary_eq (h : m.Runs id c) (next : Nat) (index : UInt32) :
    execute code literals next (.pushTemporary index) m =
      (m.memory.temporary? id index.toNat).elim
        (.error (.raised (.temporaryOutOfBounds index.toNat)) m) fun v => .ok () (m.pushed v) := by
  rw [execute, bind_get, bind_ok (activeId_eq h)]
  cases m.memory.temporary? id index.toNat with
  | none => rfl
  | some v => exact push_eq m v

theorem storeTemporary_eq (h : m.Runs id c) (next : Nat) (index : UInt32) {v : Value}
    (hv : c.stack.back? = some v) :
    execute code literals next (.storeTemporary index) m =
      (m.memory.home? id index.toNat).elim
        (.error (.raised (.temporaryOutOfBounds index.toNat)) m)
        fun home => .ok () { m with memory := m.memory.setTemporary home index.toNat v } := by
  rw [execute, bind_ok (top_eq h hv), bind_get, bind_ok (activeId_eq h)]
  cases m.memory.home? id index.toNat <;> rfl

end

/-- The context at `id` sees the temporaries of the scopes `ids`. -/
structure Machine.LooksUp (m : Machine) (id : ContextId) (ids : List ContextId) : Prop where
  home : ∀ index, m.memory.home? id index = m.memory.nearest? ids index
  load : ∀ index, m.memory.temporary? id index = ids.findSome? (m.memory.slot? index)
  /-- There is a place for a store exactly if there is something to load. -/
  missing : ∀ index, m.memory.home? id index = none ↔ m.memory.temporary? id index = none
  store : ∀ index home v, m.memory.home? id index = some home →
    m.memory.Overwrites home index v (m.memory.setTemporary home index v)
  /-- A push loads, and is refused if there is nothing to load. -/
  pushTemporary : ∀ c, m.Runs id c → ∀ code literals next index,
    execute code literals next (.pushTemporary index) m =
      (ids.findSome? (m.memory.slot? index.toNat)).elim
        (.error (.raised (.temporaryOutOfBounds index.toNat)) m) fun v => .ok () (m.pushed v)
  /-- A store sets the temporary that a push loads, and is refused in the same cases. -/
  storeTemporary : ∀ c v, m.Runs id c → c.stack.back? = some v → ∀ code literals next index,
    execute code literals next (.storeTemporary index) m =
      (m.memory.nearest? ids index.toNat).elim
        (.error (.raised (.temporaryOutOfBounds index.toNat)) m)
        fun home => .ok () { m with memory := m.memory.setTemporary home index.toNat v }
  /-- Nothing but the scopes, with their links and temporaries, is looked at. -/
  within : ∀ mem' : Memory, (∀ k ∈ ids,
      (mem'.contexts[k]?).map (fun c => (c.outer, c.temporaries)) =
        (m.memory.contexts[k]?).map fun c => (c.outer, c.temporaries)) →
    ∀ index, mem'.home? id index = m.memory.home? id index ∧
      mem'.temporary? id index = m.memory.temporary? id index

section

variable {m : Machine} {id : ContextId} {ids : List ContextId}

/-- A memory in which the scopes are the same finds the same temporaries. -/
theorem Machine.Lexical.within (h : m.Lexical) (hids : m.memory.Scopes id ids) {mem' : Memory}
    (hmem : ∀ k ∈ ids, (mem'.contexts[k]?).map (fun c => (c.outer, c.temporaries)) =
      (m.memory.contexts[k]?).map fun c => (c.outer, c.temporaries)) (index : Nat) :
    mem'.home? id index = m.memory.home? id index ∧
      mem'.temporary? id index = m.memory.temporary? id index := by
  have houter : ∀ k ∈ ids,
      (mem'.contexts[k]?).map Context.outer = (m.memory.contexts[k]?).map Context.outer := by
    intro k hk
    have heq := congrArg (Option.map Prod.fst) (hmem k hk)
    rwa [Option.map_map, Option.map_map] at heq
  have hslot : ∀ k ∈ ids, mem'.slot? index k = m.memory.slot? index k := by
    intro k hk
    have heq := congrArg (Option.bind · fun p => p.2[index]?) (hmem k hk)
    rwa [Option.bind_map, Option.bind_map] at heq
  have hids' := hids.congr houter
  have hhome : mem'.home? id index = m.memory.home? id index := by
    have hlength := h.length_scopes_le hids
    rw [Memory.home?, Memory.home?, hids'.homeFrom_eq (hlength.trans hids'.lt_size),
      hids.homeFrom_eq (hlength.trans hids.lt_size)]
    exact List.find?_congr fun k hk => congrArg Option.isSome (hslot k hk)
  refine ⟨hhome, ?_⟩
  rw [Memory.temporary?_eq, Memory.temporary?_eq, hhome]
  cases hk : m.memory.home? id index with
  | none => rfl
  | some k =>
    rw [Memory.home?, hids.homeFrom_eq ((h.length_scopes_le hids).trans hids.lt_size)] at hk
    exact hslot k (List.mem_of_find?_eq_some hk)

theorem Machine.Lexical.looksUp (h : m.Lexical) (hids : m.memory.Scopes id ids) :
    m.LooksUp id ids := by
  have hhome : ∀ index, m.memory.home? id index = m.memory.nearest? ids index :=
    fun index => hids.homeFrom_eq ((h.length_scopes_le hids).trans hids.lt_size)
  have hload : ∀ index, m.memory.temporary? id index = ids.findSome? (m.memory.slot? index) := by
    intro index
    rw [Memory.temporary?_eq, hhome, Memory.nearest?_bind]
  constructor
  · exact hhome
  · exact hload
  · intro index
    constructor
    · intro hnone
      rw [Memory.temporary?_eq, hnone]
      rfl
    · intro hnone
      cases hfound : m.memory.home? id index with
      | none => rfl
      | some home => exact absurd hnone (Memory.temporary?_ne_none hfound)
  · intro index home v hfound
    obtain ⟨c, hc, hindex⟩ := Memory.exists_temporary_of_homeFrom hfound
    exact Memory.overwrites_setTemporary v hc hindex
  · intro c hruns code literals next index
    rw [← hload]
    exact pushTemporary_eq hruns next index
  · intro c v hruns hv code literals next index
    rw [← hhome]
    exact storeTemporary_eq hruns next index hv
  · exact fun mem' hmem index => h.within hids hmem index

/-- In every machine that a host can get to, outer links do not go around, so every
context has its scopes, and it loads and stores temporaries through them. -/
theorem temporaries_are_lexical (h : Occurs Operation.PassesContexts m) :
    (∀ id, ¬Relation.TransGen m.memory.OuterLink id id) ∧
      (∀ id < m.memory.contexts.size, ∃ ids, m.memory.Scopes id ids) ∧
      ∀ id ids, m.memory.Scopes id ids → m.LooksUp id ids := by
  have hlexical := h.lexical
  exact ⟨hlexical.acyclic, hlexical.exists_scopes, fun id ids hids => hlexical.looksUp hids⟩

end

/-- The blocks that the countdown runs see the temporary of its method. -/
theorem countdown_temporary_is_lexical : ∃ m, Occurs Operation.PassesContexts m ∧
    m.memory.Scopes 1 [1, 0] ∧ m.memory.slot? 0 1 = none ∧
    m.memory.temporary? 1 0 = some (.integer (.ofByte 0)) ∧ m.memory.temporary? 1 1 = none := by
  have hboots : boots .tight 5 (fun m =>
      let m := after Operation.countdown.run (after (Operation.installCountdown m).run m)
      decide ((m.memory.contexts[0]?).map (fun c => (c.outer, c.temporaries)) =
        some (none, #[.integer (.ofByte 0)])) &&
      decide ((m.memory.contexts[1]?).map (fun c => (c.outer, c.temporaries)) =
        some (some 0, #[]))) = true := by decide +kernel
  obtain ⟨m, hboot, htest⟩ := exists_of_boots hboots
  obtain ⟨hmethod, hblock⟩ := Bool.and_eq_true_iff.mp htest
  obtain ⟨c, hc, heq⟩ := Option.map_eq_some_iff.mp (of_decide_eq_true hmethod)
  obtain ⟨b, hb, heq'⟩ := Option.map_eq_some_iff.mp (of_decide_eq_true hblock)
  obtain ⟨houter, htemporaries⟩ := Prod.mk.inj heq
  obtain ⟨houter', htemporaries'⟩ := Prod.mk.inj heq'
  have hm : Occurs Operation.PassesContexts
      (after Operation.countdown.run (after (Operation.installCountdown m).run m)) := by
    apply Occurs.attained
    apply Attained.operated
    · apply Attained.operated (.boot hboot)
      intro id hid
      cases hid
    · intro id hid
      cases hid
  have hscopes := Memory.Scopes.inside hb houter' (.outermost hc houter)
  have hlooks := (temporaries_are_lexical hm).2.2 1 [1, 0] hscopes
  refine ⟨_, hm, hscopes, ?_, ?_, ?_⟩
  · rw [Memory.slot?_eq hb, htemporaries']
    rfl
  · rw [hlooks.load]
    simp [Memory.slot?_eq hb, Memory.slot?_eq hc, htemporaries, htemporaries']
  · rw [hlooks.load]
    simp [Memory.slot?_eq hb, Memory.slot?_eq hc, htemporaries, htemporaries']

end ObjectMachine

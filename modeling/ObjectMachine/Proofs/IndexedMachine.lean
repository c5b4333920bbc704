import ObjectMachine.Proofs.Activations
import ObjectMachine.Proofs.WellIndexed

/-!
# Well-indexed machines

In a well-indexed machine all code is well indexed and every running context stands
at an instruction of its code or at its end. A block counts on temporaries of the
contexts around it, which outlive their calls. What keeps code, contexts and the
symbol table in place keeps a machine well indexed, even under a renaming.
-/

namespace ObjectMachine

namespace Memory

variable (mem : Memory)

def IsSymbol (v : Value) : Prop := ∃ name, mem.body? v = some (.symbol name)

/-- Code with this outer context finds the first `limit` temporaries there. -/
def Lends (outer : Option ContextId) (limit : Nat) : Prop :=
  ∀ index < limit, ∃ id home, outer = some id ∧ mem.home? id index = some home

end Memory

/-- The code of a method or block is well indexed. A block also counts on the
temporaries of the contexts around it. -/
def Body.Indexed (mem : Memory) : Body → Prop
  | .method c => c.code.WellIndexed mem.IsSymbol c.literals c.temporaries.length
  | .block b => ∃ limit, b.code.WellIndexed mem.IsSymbol b.literals (max limit b.temporaryCount) ∧
      mem.Lends b.outer limit
  | _ => True

def Body.program? : Body → Option (Code × Array Value)
  | .method c => some (c.code, c.literals)
  | .block b => some (b.code, b.literals)
  | _ => none

/-- The context at `id` stands at an instruction of well-indexed code, or at its end. -/
structure Context.Stands (mem : Memory) (id : ContextId) (c : Context) (code : Code)
    (literals : Array Value) (limit : Nat) : Prop where
  program : ∃ b, mem.body? c.method = some b ∧ b.program? = some (code, literals)
  indexed : code.WellIndexed mem.IsSymbol literals limit
  lends : mem.Lends (some id) limit
  boundary : code.Boundary c.pc

def Context.Indexed (mem : Memory) (id : ContextId) (c : Context) : Prop :=
  ∃ code literals limit, c.Stands mem id code literals limit

inductive Activity.Running (a : Activity) : ContextId → Prop
  | active {id : ContextId} : a.active = some id → Running a id
  | sender {id id' : ContextId} : Running a id → a.senders[id]? = some (some id') → Running a id'

/-- All code in memory is well indexed, and every running context stands in such
code. The symbol table holds symbols. -/
structure Machine.Indexed (m : Machine) : Prop where
  epochs : m.memory.EpochsPast
  bodies : ∀ v b, m.memory.body? v = some b → b.Indexed m.memory
  symbols : ∀ v ∈ m.symbols.values, m.memory.IsSymbol v
  running : ∀ id, m.activity.Running id →
    ∃ c, m.memory.contexts[id]? = some c ∧ c.Indexed m.memory id

/-- What is kept of `mem` is found in `mem'` under the renaming `f`: the lasting
bodies, and of every context its temporaries and its outer context. -/
structure Memory.Carries (f : Nat → Nat) (kept : Value → Prop) (mem mem' : Memory) : Prop where
  bodies : ∀ v b, kept v → b.lasts = true → mem.body? v = some b →
    mem'.body? (v.rename f) = some (b.map (Value.rename f))
  closed : ∀ v b, kept v → mem.body? v = some b → ∀ u ∈ b.edges, kept u
  contexts : ∀ (id : ContextId) c, mem.contexts[id]? = some c →
    ∃ c', mem'.contexts[id]? = some c' ∧ c'.temporaries.size = c.temporaries.size ∧
      c'.outer = c.outer

namespace Body

variable {b : Body} {code : Code} {literals : Array Value}

theorem lasts_of_program? (h : b.program? = some (code, literals)) : b.lasts = true := by
  cases b with
  | method | block => rfl
  | _ => cases h

theorem mem_edges_of_program? (h : b.program? = some (code, literals)) {v : Value}
    (hv : v ∈ literals) : v ∈ b.edges := by
  cases b with
  | method c =>
    cases h
    simp [edges, hv]
  | block b =>
    cases h
    simp [edges, hv]
  | _ => cases h

theorem program?_map (h : b.program? = some (code, literals)) (g : Value → Value) :
    (b.map g).program? = some (code, literals.map g) := by
  cases b with
  | method | block =>
    cases h
    rfl
  | _ => cases h

end Body

namespace Memory.Carries

variable {f : Nat → Nat} {kept : Value → Prop} {mem mem' : Memory}

theorem isSymbol (h : mem.Carries f kept mem') {v : Value} (hv : kept v) (hs : mem.IsSymbol v) :
    mem'.IsSymbol (v.rename f) := by
  obtain ⟨name, hbody⟩ := hs
  exact ⟨name, h.bodies v _ hv rfl hbody⟩

theorem size_le (h : mem.Carries f kept mem') : mem.contexts.size ≤ mem'.contexts.size := by
  cases hsize : mem.contexts.size with
  | zero => exact Nat.zero_le _
  | succ n =>
    have hlt : n < mem.contexts.size := by omega
    obtain ⟨c', hc', -⟩ := h.contexts n _ (Array.getElem?_eq_getElem hlt)
    exact (Array.getElem?_eq_some_iff.mp hc').1

theorem homeFrom (h : mem.Carries f kept mem') {index fuel fuel' : Nat} {id home : ContextId}
    (hfuel : fuel ≤ fuel') (hhome : mem.homeFrom index fuel id = some home) :
    mem'.homeFrom index fuel' id = some home := by
  induction fuel generalizing fuel' id with
  | zero => cases hhome
  | succ fuel ih =>
    obtain ⟨fuel', rfl⟩ : ∃ n, fuel' = n + 1 := ⟨fuel' - 1, by omega⟩
    rw [Memory.homeFrom] at hhome ⊢
    cases hc : mem.contexts[id]? with
    | none =>
      rw [hc] at hhome
      cases hhome
    | some c =>
      obtain ⟨c', hc', hsize, houter⟩ := h.contexts id c hc
      rw [hc] at hhome
      rw [hc']
      dsimp only at hhome ⊢
      rw [hsize, houter]
      split_ifs at hhome ⊢ with hindex
      · exact hhome
      · cases ho : c.outer with
        | none =>
          rw [ho] at hhome
          cases hhome
        | some outer =>
          rw [ho] at hhome
          exact ih (by omega) hhome

theorem home? (h : mem.Carries f kept mem') {index : Nat} {id home : ContextId}
    (hhome : mem.home? id index = some home) : mem'.home? id index = some home :=
  h.homeFrom h.size_le hhome

theorem lends (h : mem.Carries f kept mem') {outer : Option ContextId} {limit : Nat}
    (hlends : mem.Lends outer limit) : mem'.Lends outer limit := by
  intro index hindex
  obtain ⟨id, home, houter, hhome⟩ := hlends index hindex
  exact ⟨id, home, houter, h.home? hhome⟩

theorem wellIndexed (h : mem.Carries f kept mem') {code : Code} {literals : Array Value}
    {limit : Nat} (hcode : code.WellIndexed mem.IsSymbol literals limit)
    (hkept : ∀ v ∈ literals, kept v) :
    code.WellIndexed mem'.IsSymbol (literals.map (Value.rename f)) limit :=
  hcode.map _ fun v hv hs => h.isSymbol (hkept v hv) hs

theorem body (h : mem.Carries f kept mem') {b : Body} (hb : b.Indexed mem)
    (hkept : ∀ v ∈ b.edges, kept v) : (b.map (Value.rename f)).Indexed mem' := by
  cases b with
  | method c =>
    apply h.wellIndexed hb
    intro v hv
    exact hkept v (by simp [Body.edges, hv])
  | block b =>
    obtain ⟨limit, hcode, hlends⟩ := hb
    refine ⟨limit, h.wellIndexed hcode ?_, h.lends hlends⟩
    intro v hv
    exact hkept v (by simp [Body.edges, hv])
  | _ => trivial

theorem context (h : mem.Carries f kept mem') {id : ContextId} {c c' : Context}
    (hc : c.Indexed mem id) (hkept : kept c.method) (hmethod : c'.method = c.method.rename f)
    (hpc : c'.pc = c.pc) : c'.Indexed mem' id := by
  obtain ⟨code, literals, limit, ⟨b, hb, hprogram⟩, hcode, hlends, hboundary⟩ := hc
  have hcarried := h.bodies c.method b hkept (Body.lasts_of_program? hprogram) hb
  rw [← hmethod] at hcarried
  refine ⟨code, literals.map (Value.rename f), limit, ?_, h.wellIndexed hcode ?_,
    h.lends hlends, ?_⟩
  · exact ⟨_, hcarried, Body.program?_map hprogram _⟩
  · intro v hv
    exact h.closed c.method b hkept hb v (Body.mem_edges_of_program? hprogram hv)
  · rw [hpc]
    exact hboundary

end Memory.Carries

/-- Only what is new needs to be looked at. -/
theorem Machine.Indexed.carry {m m' : Machine} {f : Nat → Nat} {kept : Value → Prop}
    (h : m.Indexed) (hcarries : m.memory.Carries f kept m'.memory)
    (hepochs : m'.memory.EpochsPast)
    (hbodies : ∀ v' b', b'.lasts = true → m'.memory.body? v' = some b' →
      b'.Indexed m'.memory ∨
        ∃ v b, kept v ∧ m.memory.body? v = some b ∧ b.map (Value.rename f) = b')
    (hsymbols : ∀ v' ∈ m'.symbols.values,
      m'.memory.IsSymbol v' ∨ ∃ v ∈ m.symbols.values, kept v ∧ v.rename f = v')
    (hrunning : ∀ id, m'.activity.Running id → ∃ c', m'.memory.contexts[id]? = some c' ∧
      (c'.Indexed m'.memory id ∨ m.activity.Running id ∧ ∃ c, m.memory.contexts[id]? = some c ∧
        kept c.method ∧ c'.method = c.method.rename f ∧ c'.pc = c.pc)) : m'.Indexed := by
  constructor
  · exact hepochs
  · intro v' b' hb'
    by_cases hlasts : b'.lasts = true
    · rcases hbodies v' b' hlasts hb' with hnew | ⟨v, b, hkept, hb, rfl⟩
      · exact hnew
      · exact hcarries.body (h.bodies v b hb) (hcarries.closed v b hkept hb)
    · cases b' with
      | method | block => exact absurd rfl hlasts
      | _ => trivial
  · intro v' hv'
    rcases hsymbols v' hv' with hnew | ⟨v, hv, hkept, rfl⟩
    · exact hnew
    · exact hcarries.isSymbol hkept (h.symbols v hv)
  · intro id hid
    obtain ⟨c', hc', hnew | ⟨hrunning, c, hc, hkept, hmethod, hpc⟩⟩ := hrunning id hid
    · exact ⟨c', hc', hnew⟩
    · obtain ⟨c₁, hc₁, hindexed⟩ := h.running id hrunning
      rw [hc] at hc₁
      obtain rfl := Option.some.inj hc₁
      exact ⟨c', hc', hcarries.context hindexed hkept hmethod hpc⟩

/-- The lasting bodies stay where they are, and so do the temporaries and the outer
context of every context. -/
structure Memory.Keeps (mem mem' : Memory) : Prop where
  bodies : ∀ v b, b.lasts = true → mem.body? v = some b → mem'.body? v = some b
  contexts : ∀ (id : ContextId) c, mem.contexts[id]? = some c →
    ∃ c', mem'.contexts[id]? = some c' ∧ c'.temporaries.size = c.temporaries.size ∧
      c'.outer = c.outer

theorem Memory.Keeps.carries {mem mem' : Memory} (h : mem.Keeps mem') :
    mem.Carries id (fun _ => True) mem' := by
  constructor
  · intro v b _ hlasts hb
    rw [Value.rename_id, Body.map_id]
    exact h.bodies v b hlasts hb
  · exact fun _ _ _ _ _ _ => trivial
  · exact h.contexts

theorem Memory.Keeps.isSymbol {mem mem' : Memory} (h : mem.Keeps mem') {v : Value}
    (hv : mem.IsSymbol v) : mem'.IsSymbol v := by
  obtain ⟨name, hbody⟩ := hv
  exact ⟨name, h.bodies v _ rfl hbody⟩

theorem Memory.Keeps.wellIndexed {mem mem' : Memory} (h : mem.Keeps mem') {code : Code}
    {literals : Array Value} {limit : Nat} (hcode : code.WellIndexed mem.IsSymbol literals limit) :
    code.WellIndexed mem'.IsSymbol literals limit := by
  have hcarried := h.carries.wellIndexed hcode fun _ _ => trivial
  rwa [Value.rename_id, Array.map_id] at hcarried

theorem Memory.Keeps.body {mem mem' : Memory} (h : mem.Keeps mem') {b : Body}
    (hb : b.Indexed mem) : b.Indexed mem' := by
  have hcarried := h.carries.body hb fun _ _ => trivial
  rwa [Value.rename_id, Body.map_id] at hcarried

theorem Context.Indexed.congr {mem mem' : Memory} {id : ContextId} {c c' : Context}
    (h : c.Indexed mem id) (hkeeps : mem.Keeps mem') (hmethod : c'.method = c.method)
    (hpc : c'.pc = c.pc) : c'.Indexed mem' id := by
  apply hkeeps.carries.context h trivial _ hpc
  rw [hmethod, Value.rename_id]
  rfl

theorem Memory.body?_append {mem : Memory} {v : Value} {b : Body} (h : mem.body? v = some b)
    (o : HeapObject) : (mem.append o).body? v = some b := by
  obtain ⟨o', ho', -⟩ := Option.map_eq_some_iff.mp h
  have hrange : mem.InRange (.value v) := by
    cases v with
    | pointer i => exact (Array.getElem?_eq_some_iff.mp ho').1
    | _ => trivial
  rw [body?_append_old hrange, h]

theorem Memory.keeps_append (mem : Memory) (o : HeapObject) : mem.Keeps (mem.append o) :=
  ⟨fun _ _ _ hb => body?_append hb o, fun _ c hc => ⟨c, hc, rfl, rfl⟩⟩

theorem Memory.body?_of_append {mem : Memory} {o : HeapObject} {v : Value} {b : Body}
    (h : (mem.append o).body? v = some b) :
    mem.body? v = some b ∨ v = .pointer mem.objects.size ∧ b = o.body := by
  obtain ⟨o', ho', rfl⟩ := Option.map_eq_some_iff.mp h
  cases v with
  | pointer i =>
    have ho' : (mem.objects.push o)[i]? = some o' := ho'
    rw [Array.getElem?_push] at ho'
    split_ifs at ho' with hi
    · exact .inr ⟨congrArg Value.pointer hi, congrArg HeapObject.body (Option.some.inj ho'.symm)⟩
    · exact .inl (congrArg (Option.map HeapObject.body) ho')
  | _ => cases ho'

namespace Machine.Indexed

variable {m m' : Machine}

theorem keep (h : m.Indexed) (hkeeps : m.memory.Keeps m'.memory) (hepochs : m'.memory.EpochsPast)
    (hbodies : ∀ v b, b.lasts = true → m'.memory.body? v = some b →
      b.Indexed m'.memory ∨ m.memory.body? v = some b)
    (hsymbols : ∀ v ∈ m'.symbols.values, m'.memory.IsSymbol v ∨ v ∈ m.symbols.values)
    (hrunning : ∀ id, m'.activity.Running id → ∃ c', m'.memory.contexts[id]? = some c' ∧
      (c'.Indexed m'.memory id ∨ m.activity.Running id ∧ ∃ c, m.memory.contexts[id]? = some c ∧
        c'.method = c.method ∧ c'.pc = c.pc)) : m'.Indexed := by
  apply h.carry hkeeps.carries hepochs
  · intro v b hlasts hb
    apply (hbodies v b hlasts hb).imp_right
    exact fun hold => ⟨v, b, trivial, hold, by rw [Value.rename_id, Body.map_id]⟩
  · intro v hv
    apply (hsymbols v hv).imp_right
    exact fun hold => ⟨v, hold, trivial, by rw [Value.rename_id]; rfl⟩
  · intro id hid
    obtain ⟨c', hc', hnew | ⟨hold, c, hc, hmethod, hpc⟩⟩ := hrunning id hid
    · exact ⟨c', hc', .inl hnew⟩
    · refine ⟨c', hc', .inr ⟨hold, c, hc, trivial, ?_, hpc⟩⟩
      rw [hmethod, Value.rename_id]
      rfl

/-- Roots may change as long as the symbol table holds symbols. -/
theorem withRoots (h : m.Indexed) (hmemory : m'.memory = m.memory)
    (hactivity : m'.activity = m.activity)
    (hsymbols : ∀ v ∈ m'.symbols.values, m.memory.IsSymbol v ∨ v ∈ m.symbols.values) :
    m'.Indexed := by
  constructor
  · rw [hmemory]
    exact h.epochs
  · rw [hmemory]
    exact h.bodies
  · intro v hv
    rw [hmemory]
    exact (hsymbols v hv).elim id (h.symbols v)
  · rw [hmemory, hactivity]
    exact h.running

/-- Objects may change as long as their code does not, and new code is well indexed. -/
theorem withObjects (h : m.Indexed) (hcontexts : m'.memory.contexts = m.memory.contexts)
    (hcollections : m.memory.collections ≤ m'.memory.collections)
    (hactivity : m'.activity = m.activity) (hsymbols : m'.symbols = m.symbols)
    (hkept : ∀ v b, b.lasts = true → m.memory.body? v = some b → m'.memory.body? v = some b)
    (hnew : ∀ v b, b.lasts = true → m'.memory.body? v = some b →
      b.Indexed m'.memory ∨ m.memory.body? v = some b) : m'.Indexed := by
  apply h.keep _ _ hnew
  · exact fun v hv => .inr (hsymbols ▸ hv)
  · intro id hid
    rw [hactivity] at hid
    obtain ⟨c, hc, -⟩ := h.running id hid
    exact ⟨c, by rwa [hcontexts], .inr ⟨hid, c, hc, rfl, rfl⟩⟩
  · exact ⟨hkept, fun id c hc => ⟨c, by rwa [hcontexts], rfl, rfl⟩⟩
  · intro id c hc
    rw [hcontexts] at hc
    exact Nat.le_trans (h.epochs id c hc) hcollections

theorem afterFailedCollection (h : m.Indexed) : m.afterFailedCollection.Indexed :=
  h.withObjects rfl (Nat.le_succ _) rfl rfl (fun _ _ _ hb => hb) fun _ _ _ hb => .inr hb

theorem write (h : m.Indexed) (v : Value) {g : Body → Body}
    (hlasts : ∀ b, m.memory.body? v = some b → b.lasts = true → g b = b)
    (hwritten : ∀ b, m.memory.body? v = some b → (g b).lasts = true → g b = b) :
    (m.write v g).Indexed := by
  have hbody : ∀ x, (m.write v g).memory.body? x =
      if v = x then (m.memory.body? x).map g else m.memory.body? x :=
    fun x => m.memory.body?_modifyBody v x g
  apply h.withObjects (Memory.modifyObject_contexts ..)
  · cases v <;> exact Nat.le_refl _
  · exact m.activity_write v g
  · rfl
  · intro x b hb hold
    rw [hbody]
    split_ifs with hx
    · subst hx
      rw [hold, Option.map_some, hlasts b hold hb]
    · exact hold
  · intro x b hb hnew
    right
    rw [hbody] at hnew
    split_ifs at hnew with hx
    · subst hx
      obtain ⟨b', hold, rfl⟩ := Option.map_eq_some_iff.mp hnew
      rw [hold, hwritten b' hold hb]
    · exact hnew

theorem append (h : m.Indexed) {o : HeapObject} (ho : o.body.Indexed m.memory) :
    (m.append o).Indexed := by
  have hkeeps := m.memory.keeps_append o
  refine h.withObjects rfl (Nat.le_refl _) rfl rfl hkeeps.bodies ?_
  intro v b _ hb
  rcases Memory.body?_of_append hb with hold | ⟨-, rfl⟩
  · exact .inr hold
  · exact .inl (hkeeps.body ho)

end Machine.Indexed

/-- A context with the same method, temporaries and neighbours. -/
structure Context.Resembles (c' c : Context) : Prop where
  method : c'.method = c.method
  temporaries : c'.temporaries.size = c.temporaries.size
  sender : c'.sender = c.sender
  outer : c'.outer = c.outer
  epoch : c'.epoch = c.epoch

namespace Activity

variable {a : Activity} {id : ContextId}

theorem Running.of_call (h : a.call.Running id) : id = a.senders.size ∨ a.Running id := by
  induction h with
  | active hid => exact .inl (Option.some.inj hid).symm
  | @sender id id' _ hsender ih =>
    right
    have hsender : (a.senders.push a.active)[id]? = some (some id') := hsender
    rw [Array.getElem?_push] at hsender
    split_ifs at hsender with hid
    · exact .active (Option.some.inj hsender)
    · exact .sender (ih.resolve_left hid) hsender

theorem Running.of_leave (h : a.leave.Running id) : a.Running id := by
  rw [leave] at h
  cases hactive : a.active with
  | none =>
    rw [hactive] at h
    exact h
  | some top =>
    rw [hactive] at h
    dsimp only at h
    induction h with
    | active hid =>
      apply Running.sender (.active hactive)
      cases hsender : a.senders[top]? with
      | none =>
        rw [hsender] at hid
        cases hid
      | some sender =>
        rw [hsender] at hid
        exact congrArg some hid
    | sender _ hsender ih =>
      dsimp only at hsender
      rw [Array.getElem?_modify] at hsender
      split_ifs at hsender
      · obtain ⟨_, -, hnone⟩ := Option.map_eq_some_iff.mp hsender
        cases hnone
      · exact .sender ih hsender

end Activity

namespace Machine.Indexed

variable {m m' : Machine} {id : ContextId}

/-- Contexts may come, and those that run may go on. -/
theorem withContexts (h : m.Indexed) (hobjects : m'.memory.objects = m.memory.objects)
    (hepochs : m'.memory.EpochsPast) (hsymbols : m'.symbols = m.symbols)
    (hcontexts : ∀ (id : ContextId) c, m.memory.contexts[id]? = some c →
      ∃ c', m'.memory.contexts[id]? = some c' ∧ c'.temporaries.size = c.temporaries.size ∧
        c'.outer = c.outer)
    (hrunning : m.memory.Keeps m'.memory → ∀ id, m'.activity.Running id →
      ∃ c', m'.memory.contexts[id]? = some c' ∧
        (c'.Indexed m'.memory id ∨ m.activity.Running id ∧ ∃ c, m.memory.contexts[id]? = some c ∧
          c'.method = c.method ∧ c'.pc = c.pc)) : m'.Indexed := by
  have hbody : ∀ v, m'.memory.body? v = m.memory.body? v := by
    intro v
    cases v with
    | pointer i => simp only [Memory.body?, Memory.object?, hobjects]
    | _ => rfl
  have hkeeps : m.memory.Keeps m'.memory := ⟨fun v b _ hb => by rw [hbody, hb], hcontexts⟩
  apply h.keep hkeeps hepochs
  · exact fun v b _ hb => .inr (by rw [← hbody, hb])
  · exact fun v hv => .inr (hsymbols ▸ hv)
  · exact hrunning hkeeps

/-- A running context stays at its place or goes to another one in its code. -/
theorem modifyContext (h : m.Indexed) {g : Context → Context}
    (hg : ∀ c, m.memory.contexts[id]? = some c → (g c).Resembles c)
    (hpc : ∀ c, m.memory.contexts[id]? = some c → (g c).pc = c.pc ∨ (g c).Indexed m.memory id) :
    Indexed { m with memory := m.memory.modifyContext id g } := by
  have hactivity := m.activity_modifyContext id fun c hc => (hg c hc).sender
  have hget : ∀ (id' : ContextId), (m.memory.modifyContext id g).contexts[id']? =
      if id = id' then (m.memory.contexts[id']?).map g else m.memory.contexts[id']? :=
    fun id' => Array.getElem?_modify
  apply h.withContexts
  · rfl
  · exact h.epochs.modifyContext fun c hc => (hg c hc).epoch
  · rfl
  · intro id' c hc
    dsimp only
    rw [hget, hc]
    split_ifs with hid
    · subst hid
      exact ⟨g c, rfl, (hg c hc).temporaries, (hg c hc).outer⟩
    · exact ⟨c, rfl, rfl, rfl⟩
  · intro hkeeps id' hid'
    rw [hactivity] at hid'
    obtain ⟨c, hc, hindexed⟩ := h.running id' hid'
    dsimp only
    rw [hget, hc]
    split_ifs with hid
    · subst hid
      have hmethod := (hg c hc).method
      refine ⟨g c, rfl, ?_⟩
      rcases hpc c hc with hsame | hnew
      · exact .inr ⟨hid', c, rfl, hmethod, hsame⟩
      · exact .inl (hnew.congr hkeeps rfl rfl)
    · exact ⟨c, rfl, .inr ⟨hid', c, rfl, rfl, rfl⟩⟩

theorem setContext (h : m.Indexed) {c c' : Context} (hc : m.memory.contexts[id]? = some c)
    (hc' : c'.Resembles c) (hpc : c'.pc = c.pc ∨ c'.Indexed m.memory id) :
    (m.setContext id c').Indexed := by
  apply h.modifyContext
  · intro c₁ hc₁
    rw [hc] at hc₁
    obtain rfl := Option.some.inj hc₁
    exact hc'
  · intro c₁ hc₁
    rw [hc] at hc₁
    obtain rfl := Option.some.inj hc₁
    exact hpc

theorem pushed (h : m.Indexed) (v : Value) : (m.pushed v).Indexed := by
  rw [Machine.pushed]
  cases hactive : m.active with
  | none => exact h
  | some id =>
    dsimp only
    rw [← hactive]
    apply h.modifyContext
    · exact fun _ _ => ⟨rfl, rfl, rfl, rfl, rfl⟩
    · exact fun _ _ => .inl rfl

theorem setTemporary (h : m.Indexed) (home : ContextId) (index : Nat) (v : Value) :
    Indexed { m with memory := m.memory.setTemporary home index v } := by
  apply h.modifyContext
  · exact fun c _ => ⟨rfl, by simp, rfl, rfl, rfl⟩
  · exact fun _ _ => .inl rfl

theorem leave (h : m.Indexed) : m.leave.Indexed := by
  have hactivity := m.activity_leave
  rw [Machine.leave] at hactivity ⊢
  cases hactive : m.active with
  | none => exact h
  | some top =>
    rw [hactive] at hactivity
    have hget : ∀ (id : ContextId),
        (m.memory.modifyContext top fun c => { c with sender := none }).contexts[id]? =
          if top = id then (m.memory.contexts[id]?).map fun c => { c with sender := none }
          else m.memory.contexts[id]? :=
      fun id => Array.getElem?_modify
    have hkept : ∀ (id : ContextId) c, m.memory.contexts[id]? = some c →
        ∃ c', (m.memory.modifyContext top fun c => { c with sender := none }).contexts[id]? =
          some c' ∧ c'.temporaries.size = c.temporaries.size ∧ c'.outer = c.outer ∧
          c'.method = c.method ∧ c'.pc = c.pc := by
      intro id c hc
      rw [hget, hc]
      split_ifs
      · exact ⟨{ c with sender := none }, rfl, rfl, rfl, rfl, rfl⟩
      · exact ⟨c, rfl, rfl, rfl, rfl, rfl⟩
    apply h.withContexts
    · rfl
    · exact h.epochs.modifyContext fun _ _ => rfl
    · rfl
    · intro id c hc
      obtain ⟨c', hc', hsize, houter, -⟩ := hkept id c hc
      exact ⟨c', hc', hsize, houter⟩
    · intro _ id hid
      rw [hactivity] at hid
      obtain ⟨c, hc, -⟩ := h.running id hid.of_leave
      obtain ⟨c', hc', -, -, hmethod, hpc⟩ := hkept id c hc
      exact ⟨c', hc', .inr ⟨hid.of_leave, c, hc, hmethod, hpc⟩⟩

end Machine.Indexed

/-- The code that is called is well indexed for the temporaries of the call and for
those it is lent. -/
def Call.Indexed (mem : Memory) (call : Call) : Prop :=
  ∃ b code literals limit, mem.body? call.method = some b ∧ b.program? = some (code, literals) ∧
    code.WellIndexed mem.IsSymbol literals (max limit call.temporaryCount) ∧
    mem.Lends call.outer limit

theorem Memory.lends_new {mem mem' : Memory} (hkeeps : mem.Keeps mem') {c : Context}
    (hsize : mem'.contexts.size = mem.contexts.size + 1)
    (hc : mem'.contexts[mem.contexts.size]? = some c) {limit : Nat}
    (hlends : mem.Lends c.outer limit) :
    mem'.Lends (some mem.contexts.size) (max limit c.temporaries.size) := by
  intro index hindex
  by_cases hown : index < c.temporaries.size
  · refine ⟨_, mem.contexts.size, rfl, ?_⟩
    rw [home?, hsize, homeFrom, hc]
    exact if_pos hown
  · obtain ⟨outer, home, houter, hhome⟩ := hlends index (by omega)
    refine ⟨_, home, rfl, ?_⟩
    rw [home?, hsize, homeFrom, hc]
    dsimp only
    rw [if_neg hown, houter]
    exact hkeeps.carries.homeFrom (Nat.le_refl _) hhome

theorem Memory.Lends.mono {mem : Memory} {outer : Option ContextId} {limit limit' : Nat}
    (h : mem.Lends outer limit) (hle : limit' ≤ limit) : mem.Lends outer limit' :=
  fun index hindex => h index (Nat.lt_of_lt_of_le hindex hle)

namespace Machine.Indexed

variable {m : Machine}

/-- A new context stands at the start of its code. -/
theorem activate (h : m.Indexed) {call : Call} (hcall : call.Indexed m.memory) :
    (m.activate call).Indexed := by
  have hold : ∀ (id : ContextId) c, m.memory.contexts[id]? = some c →
      (m.activate call).memory.contexts[id]? = some c := by
    intro id c hc
    have hlt := (Array.getElem?_eq_some_iff.mp hc).1
    exact (Array.getElem?_push_lt ..).trans ((Array.getElem?_eq_getElem hlt).symm.trans hc)
  apply h.withContexts
  · rfl
  · exact h.epochs.addContext rfl
  · rfl
  · exact fun id c hc => ⟨c, hold id c hc, rfl, rfl⟩
  · intro hkeeps id hid
    rw [m.activity_activate] at hid
    rcases hid.of_call with rfl | hid
    · obtain ⟨b, code, literals, limit, hb, hprogram, hcode, hlends⟩ := hcall
      have hsize : m.activity.senders.size = m.memory.contexts.size := Array.size_map
      have hnew : (m.activate call).memory.contexts[m.memory.contexts.size]? = some _ :=
        Array.getElem?_push_size
      rw [hsize]
      refine ⟨_, hnew, .inl ⟨code, literals, max limit call.temporaryCount, ?_⟩⟩
      constructor
      · exact ⟨b, hkeeps.bodies _ b (Body.lasts_of_program? hprogram) hb, hprogram⟩
      · exact hkeeps.wellIndexed hcode
      · apply (Memory.lends_new hkeeps (Array.size_push _) hnew hlends).mono
        rw [Context.size_temporaries_new]
        omega
      · exact Code.boundary_zero hcode.readable
    · obtain ⟨c, hc, -⟩ := h.running id hid
      exact ⟨c, hold id c hc, .inr ⟨hid, c, hc, rfl, rfl⟩⟩

theorem unwind (h : m.Indexed) (base : Nat) : (m.unwind base).Indexed := by
  rw [Machine.unwind]
  induction m.depth - base with
  | zero => exact h
  | succ n ih => exact ih.leave

end Machine.Indexed

end ObjectMachine

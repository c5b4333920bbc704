import ObjectMachine.Execution
import ObjectMachine.Proofs.Intact
import Mathlib.Logic.Relation

/-!
# The elementary changes of a machine

Whatever a machine does once its first classes exist is a path of moves. Each
move says what it changes and where the values it writes come from, so that an
invariant needs one case for each move and none for the instructions,
primitives and constructors that make them.
-/

namespace ObjectMachine

/-- The contexts that the active chain or some block leads to. -/
inductive Machine.InUse (m : Machine) : ContextId → Prop
  | active {id : ContextId} : m.active = some id → InUse m id
  | block {i : Nat} {o : HeapObject} {id : ContextId} : m.memory.objects[i]? = some o →
      o.body.outer? = some id → InUse m id
  | sender {id id' : ContextId} {c : Context} : InUse m id → m.memory.contexts[id]? = some c →
      c.sender = some id' → InUse m id'
  | outer {id id' : ContextId} {c : Context} : InUse m id → m.memory.contexts[id]? = some c →
      c.outer = some id' → InUse m id'

/-- The slots that instances of a class have, none for what is not a class. -/
def Memory.instanceSize (mem : Memory) (v : Value) : Nat :=
  match mem.body? v with
  | some (.classInfo c) => c.instanceSize
  | _ => 0

/-- The value can have subclasses: it is nil or a class. -/
def Memory.Bears (mem : Memory) (v : Value) : Prop :=
  v.isNil = true ∨ ∃ s, mem.stamp? v = some s ∧ s.IsClass

/-- The forms in which objects are made. Their classes are the core classes,
except for plain instances. -/
inductive Made (d : Discipline) (m : Machine) : HeapObject → Prop
  | string (s : String) : d ≠ .booting → Made d m (.new m.core.string (.string s))
  | array (elements : Array Value) : d ≠ .booting → (∀ v ∈ elements, m.memory.Live v) →
      Made d m (.new m.core.array (.array elements))
  | bytes (bs : Array UInt8) : d ≠ .booting → Made d m (.new m.core.byteArray (.bytes bs))
  | dictionary : Made d m (.new m.core.dictionary (.dictionary .empty))
  | block (b : Block) : d ≠ .booting → (∀ v ∈ b.literals, m.memory.Live v) →
      (∀ id, b.outer = some id → m.InUse id) → Made d m (.new m.core.block (.block b))
  | method (c : Method) : d ≠ .booting →
      m.memory.Live c.selector → m.memory.Live c.owner → (∀ v ∈ c.literals, m.memory.Live v) →
      Made d m (.new m.core.method (.method c))
  | classInfo (c : ClassInfo) : m.memory.Live c.superclass →
      (d.layers → m.memory.Bears c.superclass) →
      c.instanceSize = m.memory.instanceSize c.superclass + c.ownVariables.length →
      (∃ s, m.memory.stamp? c.methods = some s ∧ s.IsDictionary) →
      (∀ v c', m.memory.body? v = some (.classInfo c') → c'.methods ≠ c.methods) →
      Made d m (.new .nil (.classInfo c))
  | blank (classRef : Value) (size : Nat) : d ≠ .booting → m.memory.Live classRef →
      (d = .strict → ∃ s, m.memory.stamp? classRef = some s ∧ s.IsClass) →
      Made d m (m.blank classRef size)

/-- One element replaced, or nothing. -/
inductive Body.Writes (P : Value → Prop) : Body → Body → Prop
  | slot (values : Array Value) (i : Nat) (v : Value) : P v →
      Writes P (.slots values) (.slots (values.set! i v))
  | element (elements : Array Value) (i : Nat) (v : Value) : P v →
      Writes P (.array elements) (.array (elements.set! i v))
  | byte (bs : Array UInt8) (i : Nat) (b : UInt8) : Writes P (.bytes bs) (.bytes (bs.set! i b))
  | keep (b : Body) : Writes P b b

inductive Move (d : Discipline) : Machine → Machine → Prop
  | record (m : Machine) (e : Event) : Move d m { m with journal := m.journal.push e }
  /-- Operands and the place in the code of the active context. -/
  | operate (m : Machine) (id : ContextId) (f : Context → Context) : m.active = some id →
      (∀ c, m.memory.contexts[id]? = some c →
        ∃ stack pc, f c = { c with stack, pc } ∧ ∀ v ∈ stack, m.memory.Live v) →
      Move d m { m with memory := m.memory.modifyContext id f }
  | temporary (m : Machine) (home : ContextId) (index : Nat) (v : Value) : m.memory.Live v →
      Move d m { m with memory := m.memory.setTemporary home index v }
  | write (m : Machine) (target : Value) (f : Body → Body) :
      (∀ b, m.memory.body? target = some b → b.Writes m.memory.Live (f b)) →
      Move d m { m with memory := m.memory.modifyBody target f }
  | enter (m : Machine) (method receiver : Value) (args : Array Value) (count : Nat)
      (outer : Option ContextId) : m.depth < m.maxDepth →
      (∃ s, m.memory.stamp? method = some s ∧ s.IsCode) → m.memory.Live receiver →
      (∀ v ∈ args, m.memory.Live v) → (∀ id, outer = some id → m.InUse id) →
      Move d m
        { m with
          memory := m.memory.addContext (.new method receiver args count m.active outer)
          active := some m.memory.contexts.size
          depth := m.depth + 1 }
  | leave (m : Machine) : Move d m m.leave
  | allocate {m m' : Machine} {o : HeapObject} {v : Value} : Made d m o →
      allocate o m = .ok v m' → Move d m m'
  | intern {m m' : Machine} {name : String} {v : Value} : d ≠ .booting →
      m.symbols.get? name = none →
      ObjectMachine.allocate (.new m.core.symbol (.symbol name)) m = .ok v m' →
      Move d m { m' with symbols := m'.symbols.insert name v }
  | collect {m m' : Machine} : collectGarbage m = .ok () m' → Move d m m'
  /-- A collection that stopped has still been counted. -/
  | attempt (m : Machine) : Move d m m.afterFailedCollection
  | scratch (m : Machine) (values : Array Value) : (∀ v ∈ values, m.memory.Live v) →
      Move d m { m with scratch := values }
  | global (m : Machine) (name : String) (v : Value) : m.memory.Live v →
      Move d m { m with globals := m.globals.insert name v }
  | define (m : Machine) (target : Value) (entries : Dictionary) (selector : String)
      (method : Value) : m.memory.body? target = some (.dictionary entries) →
      m.memory.Live method →
      (d.typed → ∃ s, m.memory.stamp? method = some s ∧ s.IsKnownMethod) →
      Move d m
        { m with memory := m.memory.modifyBody target fun _ =>
          .dictionary (entries.insert selector method) }

def Path (d : Discipline) : Machine → Machine → Prop := Relation.ReflTransGen (Move d)

namespace Machine

/-- The machine's memory is intact with these contexts in use, and everything
that keeps objects alive is held. -/
structure IntactFor (d : Discipline) (inUse : ContextId → Prop) (m : Machine) : Prop where
  memory : m.memory.Intact d inUse
  roots : ∀ r ∈ m.roots, (m.memory.view inUse).Held r
  core : ∀ v ∈ m.core.values, d.AllowsClass (m.memory.view inUse) v

def Intact (d : Discipline) (m : Machine) : Prop := ∃ inUse, m.IntactFor d inUse

variable {d : Discipline} {inUse : ContextId → Prop} {m : Machine}

namespace IntactFor

variable (h : m.IntactFor d inUse)

include h

theorem live_of_core {v : Value} (hv : v ∈ m.core.values) : m.memory.Live v :=
  (m.memory.held_iff_live inUse v).mp (h.roots _ (value_mem_roots.mpr (.inl hv)))

theorem live_of_global {v : Value} (hv : v ∈ m.globals.values) : m.memory.Live v :=
  (m.memory.held_iff_live inUse v).mp (h.roots _ (value_mem_roots.mpr (.inr (.inl hv))))

theorem live_of_symbol {v : Value} (hv : v ∈ m.symbols.values) : m.memory.Live v :=
  (m.memory.held_iff_live inUse v).mp
    (h.roots _ (value_mem_roots.mpr (.inr (.inr (.inl hv)))))

theorem live_of_scratch {v : Value} (hv : v ∈ m.scratch) : m.memory.Live v :=
  (m.memory.held_iff_live inUse v).mp
    (h.roots _ (value_mem_roots.mpr (.inr (.inr (.inr hv)))))

theorem live_of_edge {v u : Value} {b : Body} (hb : m.memory.body? v = some b)
    (hu : u ∈ b.edges) : m.memory.Live u := by
  obtain ⟨o, ho, rfl⟩ := Option.map_eq_some_iff.mp hb
  cases v with
  | pointer i =>
    have hmem : Root.value u ∈ o.roots :=
      (o.value_mem_roots u).mpr (List.mem_cons_of_mem _ hu)
    exact (m.memory.held_iff_live inUse u).mp ((h.memory.objects i o ho).held _ hmem)
  | _ => exact absurd ho (by simp [Memory.object?])

/-- The contexts in use are among the ones assumed to be. -/
theorem inUse_of {id : ContextId} (hid : m.InUse id) : inUse id := by
  induction hid with
  | active hid => exact h.roots _ (context_mem_roots.mpr hid)
  | block ho hid =>
    exact (h.memory.objects _ _ ho).held _ ((HeapObject.context_mem_roots _ _).mpr hid)
  | sender _ hc hid ih =>
    obtain ⟨c, hc', hintact⟩ := h.memory.contexts _ ih
    rw [hc] at hc'
    obtain rfl := Option.some.inj hc'
    exact hintact.held _ ((Context.context_mem_roots _ _).mpr (.inl hid))
  | outer _ hc hid ih =>
    obtain ⟨c, hc', hintact⟩ := h.memory.contexts _ ih
    rw [hc] at hc'
    obtain rfl := Option.some.inj hc'
    exact hintact.held _ ((Context.context_mem_roots _ _).mpr (.inr hid))

/-- The active context exists and all its values are live. -/
theorem active {id : ContextId} (hid : m.active = some id) :
    ∃ c, m.memory.contexts[id]? = some c ∧ c.Intact d (m.memory.view inUse) :=
  h.memory.contexts id (h.roots _ (context_mem_roots.mpr hid))

/-- Only values that are new among the roots need to be looked at. -/
theorem withRoots {m' : Machine} (hmemory : m'.memory = m.memory) (hcore : m'.core = m.core)
    (hactive : m'.active = m.active)
    (hglobals : ∀ v ∈ m'.globals.values, v ∈ m.globals.values ∨ m.memory.Live v)
    (hsymbols : ∀ v ∈ m'.symbols.values, v ∈ m.symbols.values ∨ m.memory.Live v)
    (hscratch : ∀ v ∈ m'.scratch, v ∈ m.scratch ∨ m.memory.Live v) : m'.IntactFor d inUse := by
  refine ⟨hmemory ▸ h.memory, ?_, ?_⟩
  · intro r hr
    rw [hmemory]
    cases r with
    | value v =>
      rw [value_mem_roots, hcore] at hr
      apply (m.memory.held_iff_live inUse v).mpr
      rcases hr with hv | hv | hv | hv
      · exact h.live_of_core hv
      · exact (hglobals v hv).elim h.live_of_global id
      · exact (hsymbols v hv).elim h.live_of_symbol id
      · exact (hscratch v hv).elim h.live_of_scratch id
    | context id =>
      rw [context_mem_roots, hactive] at hr
      exact h.roots _ (context_mem_roots.mpr hr)
  · rw [hmemory, hcore]
    exact h.core

/-- Nothing changes for the roots when the memory keeps its stamps. -/
theorem withMemory {memory : Memory} (hmemory : memory.Intact d inUse)
    (hstamp : memory.stamp? = m.memory.stamp?) : IntactFor d inUse { m with memory } := by
  have hview : memory.view inUse = m.memory.view inUse := by rw [Memory.view, hstamp, Memory.view]
  exact ⟨hmemory, fun r hr => hview ▸ h.roots r hr, fun v hv => hview ▸ h.core v hv⟩

end IntactFor

end Machine

/-- A fresh instance holds no reference but its class. -/
theorem Machine.blank_eq (m : Machine) (classRef : Value) (size : Nat) (w : View) :
    ∃ body, m.blank classRef size = .new classRef body ∧ (∀ v ∈ body.edges, v = .nil) ∧
      body.outer? = none ∧ body ≠ .husk ∧ body.kind ≠ .classInfo ∧ body.WellTyped w := by
  unfold blank
  refine ⟨_, rfl, ?_⟩
  split_ifs
  · simp [Body.edges, Body.outer?, Body.kind, Body.WellTyped]
  · simp [Body.edges, Body.outer?, Body.kind, Body.WellTyped]
  · simp [Body.edges, Body.outer?, Body.kind, Body.WellTyped]
  · simp [Body.edges, Body.outer?, Body.kind, Body.WellTyped, Dictionary.values, Dictionary.empty]
  · split <;> simp [Body.edges, Body.outer?, Body.kind, Body.WellTyped]

section

variable {d : Discipline} {inUse : ContextId → Prop} {m : Machine} {w : View}

theorem HeapObject.Intact.new {classRef : Value} {body : Body} (hwhole : body ≠ .husk)
    (hclass : w.Held (.value classRef)) (hedges : ∀ v ∈ body.edges, w.Held (.value v))
    (houter : ∀ id, body.outer? = some id → w.inUse id) (hbody : d.typed → body.WellTyped w)
    (hheader : body.kind ≠ .classInfo → d.AllowsClass w classRef)
    (hearly : d = .booting → body.kind = .classInfo ∨ body.kind = .dictionary) :
    (HeapObject.new classRef body).Intact d w := by
  refine ⟨hwhole, ?_, hbody, hheader, hearly⟩
  intro r hr
  cases r with
  | value v =>
    rcases List.mem_cons.mp ((HeapObject.value_mem_roots _ v).mp hr) with rfl | hv
    · exact hclass
    · exact hedges v hv
  | context id => exact houter id ((HeapObject.context_mem_roots _ id).mp hr)

theorem Machine.IntactFor.new (h : m.IntactFor d inUse) {classRef : Value} {body : Body}
    (hclass : classRef ∈ m.core.values) (hwhole : body ≠ .husk)
    (hedges : ∀ v ∈ body.edges, m.memory.Live v) (houter : ∀ id, body.outer? = some id → inUse id)
    (hbody : body.WellTyped (m.memory.view inUse))
    (hearly : d ≠ .booting ∨ body.kind = .dictionary) :
    (HeapObject.new classRef body).Intact d (m.memory.view inUse) := by
  have hlive : ∀ v, m.memory.Live v → (m.memory.view inUse).Held (.value v) :=
    fun v => (m.memory.held_iff_live inUse v).mpr
  apply HeapObject.Intact.new hwhole
  · exact hlive _ (h.live_of_core hclass)
  · exact fun v hv => hlive v (hedges v hv)
  · exact houter
  · exact fun _ => hbody
  · exact fun _ => h.core _ hclass
  · exact fun hd => hearly.elim (absurd hd) .inr

theorem Machine.IntactFor.symbol (h : m.IntactFor d inUse) (hd : d ≠ .booting) (name : String) :
    (HeapObject.new m.core.symbol (.symbol name)).Intact d (m.memory.view inUse) :=
  h.new (by simp [CoreClasses.values]) (by simp) (by simp [Body.edges]) (by simp [Body.outer?])
    trivial (.inl hd)

theorem Made.intact (h : m.IntactFor d inUse) {o : HeapObject} (ho : Made d m o) :
    o.Intact d (m.memory.view inUse) := by
  have hlive : ∀ v, m.memory.Live v → (m.memory.view inUse).Held (.value v) :=
    fun v => (m.memory.held_iff_live inUse v).mpr
  cases ho with
  | string s hd =>
    exact h.new (by simp [CoreClasses.values]) (by simp) (by simp [Body.edges])
      (by simp [Body.outer?]) trivial (.inl hd)
  | array elements hd hv =>
    exact h.new (by simp [CoreClasses.values]) (by simp)
      (fun v hmem => hv v (by simpa [Body.edges] using hmem)) (by simp [Body.outer?]) trivial
      (.inl hd)
  | bytes bs hd =>
    exact h.new (by simp [CoreClasses.values]) (by simp) (by simp [Body.edges])
      (by simp [Body.outer?]) trivial (.inl hd)
  | dictionary =>
    exact h.new (by simp [CoreClasses.values]) (by simp)
      (by simp [Body.edges, Dictionary.values, Dictionary.empty]) (by simp [Body.outer?])
      (by simp [Body.WellTyped, Dictionary.values, Dictionary.empty]) (.inr rfl)
  | block b hd hl houter =>
    exact h.new (by simp [CoreClasses.values]) (by simp)
      (fun v hmem => hl v (by simpa [Body.edges] using hmem))
      (fun id hid => h.inUse_of (houter id hid)) trivial (.inl hd)
  | method c hd hselector howner hl =>
    refine h.new (by simp [CoreClasses.values]) (by simp) ?_ (by simp [Body.outer?]) trivial
      (.inl hd)
    intro v hmem
    simp only [Body.edges, List.mem_cons, Array.mem_toList_iff] at hmem
    rcases hmem with rfl | rfl | hmem
    · exact hselector
    · exact howner
    · exact hl v hmem
  | classInfo c hsuper _ _ hmethods =>
    refine .new (by simp) (hlive _ trivial) ?_ (by simp [Body.outer?]) (fun _ => hmethods)
      (fun hk => absurd rfl hk) (fun _ => .inl rfl)
    intro v hmem
    simp only [Body.edges, List.mem_cons, List.not_mem_nil, or_false] at hmem
    rcases hmem with rfl | rfl
    · exact hlive _ hsuper
    · obtain ⟨s, hs, -⟩ := hmethods
      exact fun _ => by simp [Memory.view, hs]
  | blank classRef size hd hclass htyped =>
    obtain ⟨body, heq, hedges, houter, hwhole, hkind, hbody⟩ :=
      m.blank_eq classRef size (m.memory.view inUse)
    rw [heq]
    refine .new hwhole (hlive _ hclass) ?_ (by simp [houter]) (fun _ => hbody) (fun _ => ?_)
      (fun hb => absurd hb hd)
    · intro v hv
      rw [hedges v hv]
      exact hlive _ trivial
    · cases d with
      | free | layered => trivial
      | booting => exact absurd rfl hd
      | strict => exact htyped rfl

theorem Machine.value_mem_roots_mapRoots {g : Value → Value} {u : Value} :
    .value u ∈ (m.mapRoots g).roots ↔ ∃ v, .value v ∈ m.roots ∧ g v = u := by
  simp only [value_mem_roots, mapRoots, CoreClasses.values_map, Dictionary.values_map,
    List.mem_map, Array.mem_map, or_and_right, exists_or]

/-- What a collection with further roots `pending` makes of a machine. -/
theorem Machine.IntactFor.settle (h : m.IntactFor d inUse) (pending : List Root)
    (hpending : ∀ r ∈ pending, (m.memory.view inUse).Held r) :
    m.memory.collect (m.roots ++ pending) = .error .multiplicationOverflow ∨
      ∃ f c inUse', m.memory.collect (m.roots ++ pending) = .ok c ∧
        m.memory.GraphCopy (m.roots ++ pending) f c ∧ (m.settle c).IntactFor d inUse' ∧
        ∀ r, m.memory.Reaches (m.roots ++ pending) r →
          (m.memory.view inUse).Carries (c.memory.view inUse') f r := by
  have hheld : ∀ r ∈ m.roots ++ pending, (m.memory.view inUse).Held r := by
    intro r hr
    rcases List.mem_append.mp hr with hr | hr
    · exact h.roots r hr
    · exact hpending r hr
  rcases h.memory.collect hheld with ⟨hover, -⟩ | ⟨f, c, inUse', hc, hcopy, hmemory, hcarry⟩
  · exact .inl hover
  · have hreach : ∀ r ∈ m.roots, m.memory.Reaches (m.roots ++ pending) r :=
      fun r hr => .root (List.mem_append_left _ hr)
    refine .inr ⟨f, c, inUse', hc, hcopy, ⟨hmemory, ?_, ?_⟩, hcarry⟩
    · intro r hr
      cases r with
      | value u =>
        obtain ⟨v, hv, rfl⟩ := Machine.value_mem_roots_mapRoots.mp hr
        rw [hcopy.values v (hreach _ hv)]
        exact (h.roots _ hv).carry_value (hcarry _ (hreach _ hv))
      | context id =>
        have hactive : (m.settle c).active = some id := Machine.context_mem_roots.mp hr
        have hid : .context id ∈ m.roots := Machine.context_mem_roots.mpr hactive
        exact hcarry _ (hreach _ hid) (h.roots _ hid)
    · intro u hu
      have hu' : u ∈ m.core.values.map c.survey.relocate := hu
      obtain ⟨v, hv, rfl⟩ := List.mem_map.mp hu'
      have hv' := hreach _ (value_mem_roots.mpr (.inl hv))
      rw [hcopy.values v hv']
      exact (h.core v hv).carry (hcarry _ hv')

/-- What an allocation leaves: the object under a renaming that the machine's
values and the object's own edges have followed, their stamps kept. -/
structure Allocated (f : Nat → Nat) (m : Machine) (o : HeapObject) (v : Value) (m' : Machine) :
    Prop where
  object : m'.memory.object? v = some (o.mapEdges (Value.rename f))
  core : m'.core = m.core.map (Value.rename f)
  globals : m'.globals = m.globals.map (Value.rename f)
  scratch : m'.scratch = m.scratch.map (Value.rename f)
  stamps : ∀ u, u ∈ o.edges ∨ .value u ∈ m.roots → ∀ s, m.memory.stamp? u = some s →
    m'.memory.stamp? (u.rename f) = some s
  /-- No object refers to the new one yet. -/
  unreferenced : ∀ u b, m'.memory.body? u = some b → v ∉ b.edges

theorem Machine.IntactFor.append (h : m.IntactFor d inUse) {o : HeapObject}
    (ho : o.Intact d (m.memory.view inUse)) : (m.append o).IntactFor d inUse := by
  have hcarry : ∀ v, (m.memory.view inUse).Carries ((m.append o).memory.view inUse) id
      (.value v) := by
    intro v s hs
    rw [Value.rename_id]
    exact m.memory.stamp?_append o hs
  refine ⟨h.memory.append ho, ?_, ?_⟩
  · intro r hr
    cases r with
    | value v =>
      have := (h.roots _ hr).carry_value (hcarry v)
      rwa [Value.rename_id] at this
    | context id => exact h.roots _ hr
  · intro v hv
    have := (h.core v hv).carry (hcarry v)
    rwa [Value.rename_id] at this

/-- What is live before an object is placed does not refer to its place. -/
theorem Machine.IntactFor.unreferenced_append (h : m.IntactFor d inUse) {o : HeapObject}
    (ho : o.Intact d (m.memory.view inUse)) {u : Value} {b : Body}
    (hb : (m.append o).memory.body? u = some b) : m.nextPlace ∉ b.edges := by
  have hlive : ∀ w ∈ b.edges, m.memory.Live w := by
    intro w hw
    cases u with
    | pointer i =>
      obtain ⟨o', ho', rfl⟩ := Option.map_eq_some_iff.mp hb
      have ho' : (m.memory.objects.push o)[i]? = some o' := ho'
      rw [Array.getElem?_push] at ho'
      split_ifs at ho'
      · obtain rfl := Option.some.inj ho'
        exact (m.memory.held_iff_live inUse w).mp
          (ho.held _ ((o.value_mem_roots w).mpr (List.mem_cons_of_mem _ hw)))
      · exact h.live_of_edge (v := .pointer i) (Option.map_eq_some_iff.mpr ⟨o', ho', rfl⟩) hw
    | _ => cases hb
  exact fun hw => absurd (hlive _ hw) (Nat.lt_irrefl _)

theorem Machine.IntactFor.allocate (h : m.IntactFor d inUse) {o : HeapObject}
    (ho : o.Intact d (m.memory.view inUse)) :
    allocate o m = .error (.fault .multiplicationOverflow) m.afterFailedCollection ∨
      ∃ f v m' inUse', allocate o m = .ok v m' ∧ m'.IntactFor d inUse' ∧ Allocated f m o v m' := by
  by_cases hfull : m.memory.shouldCollect = true
  · rcases h.settle o.roots ho.held with hover | ⟨f, c, inUse', hc, hcopy, hsettled, hcarry⟩
    · left
      simp only [ObjectMachine.allocate, hfull, if_true, hover]
    · right
      have hedge : ∀ u ∈ o.edges, m.memory.Reaches (m.roots ++ o.roots) (.value u) :=
        fun u hu => .root (List.mem_append_right _ ((o.value_mem_roots u).mpr hu))
      have hroot : ∀ u, .value u ∈ m.roots → m.memory.Reaches (m.roots ++ o.roots) (.value u) :=
        fun u hu => .root (List.mem_append_left _ hu)
      have hvalue : ∀ u, .value u ∈ m.roots → c.survey.relocate u = u.rename f :=
        fun u hu => hcopy.values u (hroot u hu)
      have hmap : o.mapEdges c.survey.relocate = o.mapEdges (Value.rename f) :=
        o.mapEdges_congr _ _ fun u hu => hcopy.values u (hedge u hu)
      have hnew : (o.mapEdges (Value.rename f)).Intact d ((m.settle c).memory.view inUse') := by
        refine ho.carry (fun r hr => hcarry r (.root (List.mem_append_right _ hr))) ?_ ?_
        · rw [HeapObject.mapEdges_classRef]
        · rw [HeapObject.mapEdges_body]
      refine ⟨f, .pointer c.memory.objects.size,
        (m.settle c).append (o.mapEdges (Value.rename f)), inUse', ?_, hsettled.append hnew, ?_⟩
      · simp only [ObjectMachine.allocate, hfull, if_true, hc, hmap]
        rfl
      · refine ⟨Memory.object?_append_new _ _, ?_, ?_, ?_, ?_, ?_⟩
        · exact CoreClasses.map_congr fun u hu => hvalue u (value_mem_roots.mpr (.inl hu))
        · exact Dictionary.map_congr _ _ _ fun u hu =>
            hvalue u (value_mem_roots.mpr (.inr (.inl hu)))
        · exact Array.map_congr_left fun u hu =>
            hvalue u (value_mem_roots.mpr (.inr (.inr (.inr hu))))
        · intro u hu s hs
          exact Memory.stamp?_append _ _ (hcarry _ (hu.elim (hedge u) (hroot u)) s hs)
        · exact fun u b hb => hsettled.unreferenced_append hnew hb
  · right
    refine ⟨id, .pointer m.memory.objects.size, m.append o, inUse, ?_, h.append ho, ?_⟩
    · simp only [ObjectMachine.allocate, hfull]
      rfl
    · refine ⟨?_, by rw [Value.rename_id]; rfl, ?_, by rw [Value.rename_id, Array.map_id]; rfl, ?_,
        fun u b hb => h.unreferenced_append ho hb⟩
      · rw [HeapObject.mapEdges_eq, Value.rename_id, Body.map_id]
        exact Memory.object?_append_new _ _
      · rw [Value.rename_id, Dictionary.map_id]
        rfl
      · intro u _ s hs
        rw [Value.rename_id]
        exact Memory.stamp?_append _ _ hs

theorem Context.Intact.of_edges {c c' : Context} (h : c.Intact d w) (hmethod : c'.method = c.method)
    (hedges : ∀ v ∈ c'.edges, v ∈ c.edges ∨ w.Held (.value v))
    (hlinks : ∀ id, .context id ∈ c'.roots → .context id ∈ c.roots) : c'.Intact d w := by
  refine ⟨?_, fun hd => hmethod ▸ h.code hd⟩
  intro r hr
  cases r with
  | value v =>
    rcases hedges v ((c'.value_mem_roots v).mp hr) with hold | hnew
    · exact h.held _ ((c.value_mem_roots v).mpr hold)
    · exact hnew
  | context id => exact h.held _ (hlinks id hr)

theorem Body.Writes.stamp_eq {P : Value → Prop} {b b' : Body} (h : b.Writes P b') :
    b'.stamp = b.stamp := by
  cases h <;> rfl

theorem mem_of_mem_extract {α : Type} {xs : Array α} {i j : Nat} {u : α}
    (h : u ∈ xs.extract i j) : u ∈ xs := by
  obtain ⟨k, hk, rfl⟩ := Array.mem_extract_iff_getElem.mp h
  exact Array.getElem_mem _

theorem mem_of_mem_pop {α : Type} {xs : Array α} {u : α} (h : u ∈ xs.pop) : u ∈ xs := by
  obtain ⟨k, hk⟩ := Array.mem_iff_getElem?.mp h
  rw [Array.getElem?_pop] at hk
  split_ifs at hk
  exact Array.mem_of_getElem? hk

theorem mem_of_mem_set! {α : Type} {xs : Array α} {i : Nat} {v u : α}
    (h : u ∈ xs.set! i v) : u = v ∨ u ∈ xs := by
  rw [Array.set!_eq_setIfInBounds] at h
  rcases Array.mem_or_eq_of_mem_setIfInBounds h with h | h
  · exact .inr h
  · exact .inl h

theorem HeapObject.Intact.writes {o : HeapObject} {b : Body} (h : o.Intact d w)
    (hb : o.body.Writes (fun v => w.Held (.value v)) b) :
    HeapObject.Intact d w { o with body := b } := by
  obtain ⟨header, body⟩ := o
  have hclass : w.Held (.value header.classRef) :=
    h.held _ ((value_mem_roots _ _).mpr (List.mem_cons_self ..))
  have hold : ∀ v ∈ body.edges, w.Held (.value v) :=
    fun v hv => h.held _ ((value_mem_roots _ _).mpr (List.mem_cons_of_mem _ hv))
  have hroots : ∀ {b' : Body}, (∀ v ∈ b'.edges, w.Held (.value v)) → b'.outer? = none →
      ∀ r ∈ roots ⟨header, b'⟩, w.Held r := by
    intro b' hedges houter r hr
    cases r with
    | value v =>
      rcases List.mem_cons.mp ((value_mem_roots _ v).mp hr) with rfl | hv
      · exact hclass
      · exact hedges v hv
    | context id =>
      have := (context_mem_roots _ id).mp hr
      simp [houter] at this
  cases hb with
  | slot values i v hv =>
    refine ⟨by simp, hroots ?_ rfl, fun _ => trivial, h.typed.header, h.typed.early⟩
    intro u hu
    rcases mem_of_mem_set! (Array.mem_toList_iff.mp hu) with rfl | hu
    · exact hv
    · exact hold u (Array.mem_toList_iff.mpr hu)
  | element elements i v hv =>
    refine ⟨by simp, hroots ?_ rfl, fun _ => trivial, h.typed.header, h.typed.early⟩
    intro u hu
    rcases mem_of_mem_set! (Array.mem_toList_iff.mp hu) with rfl | hu
    · exact hv
    · exact hold u (Array.mem_toList_iff.mpr hu)
  | byte bs i x =>
    exact ⟨by simp, hroots (by simp [Body.edges]) rfl, fun _ => trivial, h.typed.header,
      h.typed.early⟩
  | keep => exact h

theorem Machine.IntactFor.enter (h : m.IntactFor d inUse) {method receiver : Value}
    {args : Array Value} {outer : Option ContextId} (count : Nat)
    (hmethod : ∃ s, m.memory.stamp? method = some s ∧ s.IsCode)
    (hreceiver : m.memory.Live receiver) (hargs : ∀ v ∈ args, m.memory.Live v)
    (houter : ∀ id, outer = some id → m.InUse id) :
    IntactFor d (fun id => inUse id ∨ id = m.memory.contexts.size)
      { m with
        memory := m.memory.addContext (.new method receiver args count m.active outer)
        active := some m.memory.contexts.size
        depth := m.depth + 1 } := by
  have hlive : ∀ v, m.memory.Live v → (m.memory.view inUse).Held (.value v) :=
    fun v => (m.memory.held_iff_live inUse v).mpr
  have hcontext : (Context.new method receiver args count m.active outer).Intact d
      (m.memory.view inUse) := by
    refine ⟨?_, fun _ => hmethod⟩
    intro r hr
    cases r with
    | value v =>
      rw [Context.value_mem_roots] at hr
      simp only [Context.edges, Context.new, List.mem_cons, List.mem_append, Array.mem_toList_iff,
        Array.mem_append, Array.mem_replicate] at hr
      rcases hr with rfl | rfl | (hv | hv | ⟨-, rfl⟩) | hv
      · obtain ⟨s, hs, -⟩ := hmethod
        exact fun _ => by simp [Memory.view, hs]
      · exact hlive _ hreceiver
      · exact hlive v (hargs v hv)
      · exact hlive v (hargs v hv)
      · exact hlive _ trivial
      · exact absurd hv List.not_mem_nil
    | context id =>
      rcases (Context.context_mem_roots _ id).mp hr with hid | hid
      · exact h.inUse_of (.active hid)
      · exact h.inUse_of (houter id hid)
  refine ⟨h.memory.addContext (Nat.zero_le _) hcontext, ?_, h.core⟩
  intro r hr
  cases r with
  | value v =>
    rw [value_mem_roots] at hr
    exact h.roots _ (value_mem_roots.mpr hr)
  | context id =>
    have hid := context_mem_roots.mp hr
    exact .inr (Option.some.inj hid).symm

theorem Machine.IntactFor.leave (h : m.IntactFor d inUse) : m.leave.IntactFor d inUse := by
  unfold Machine.leave
  cases hid : m.active with
  | none => exact h
  | some id =>
    obtain ⟨c, hc, hintact⟩ := h.active hid
    have hmemory :
        (m.memory.modifyContext id fun c => { c with sender := none }).Intact d inUse := by
      refine h.memory.modifyContext ?_ fun _ _ => rfl
      intro c _ hc
      refine hc.of_edges rfl (fun v hv => .inl hv) fun id' hid' => ?_
      rw [Context.context_mem_roots] at hid' ⊢
      simpa using hid'.imp_left fun heq => absurd heq (by simp)
    refine ⟨hmemory, ?_, h.core⟩
    intro r hr
    cases r with
    | value v =>
      rw [value_mem_roots] at hr
      exact h.roots _ (value_mem_roots.mpr hr)
    | context id' =>
      have hsender : c.sender = some id' := by simpa [hc] using context_mem_roots.mp hr
      exact hintact.held _ ((Context.context_mem_roots _ _).mpr (.inl hsender))

/-- A new dictionary entry is one more edge of the dictionary. -/
theorem HeapObject.Intact.define {o : HeapObject} {entries : Dictionary} (h : o.Intact d w)
    (hb : o.body = .dictionary entries) (selector : String) {method : Value}
    (hlive : w.Held (.value method)) (htyped : d.typed → w.Fits Stamp.IsKnownMethod method) :
    HeapObject.Intact d w { o with body := .dictionary (entries.insert selector method) } := by
  obtain ⟨header, body⟩ := o
  obtain rfl : body = .dictionary entries := hb
  refine ⟨by simp, ?_, ?_, h.typed.header, h.typed.early⟩
  · intro r hr
    cases r with
    | value v =>
      rcases List.mem_cons.mp ((value_mem_roots _ v).mp hr) with rfl | hv
      · exact h.held _ ((value_mem_roots _ _).mpr (List.mem_cons_self ..))
      · rcases entries.mem_values_insert hv with rfl | hv
        · exact hlive
        · exact h.held _ ((value_mem_roots _ _).mpr (List.mem_cons_of_mem _ hv))
    | context id =>
      have := (context_mem_roots _ id).mp hr
      simp [Body.outer?] at this
  · intro hd v hv
    rcases entries.mem_values_insert hv with rfl | hv
    · exact htyped hd
    · exact h.typed.body hd v hv

theorem Machine.IntactFor.failedCollection (h : m.IntactFor d inUse) :
    m.afterFailedCollection.IntactFor d inUse := by
  refine ⟨⟨h.memory.objects, h.memory.contexts, ?_⟩, h.roots, h.core⟩
  intro id c hc
  exact Nat.le_succ_of_le (h.memory.epochs id c hc)

/-- Operands come and go. -/
theorem Context.Intact.operate {c : Context} (h : c.Intact d w) {stack : Array Value}
    (hstack : ∀ v ∈ stack, w.Held (.value v)) (pc : Nat) :
    Context.Intact d w { c with stack, pc } := by
  refine h.of_edges rfl ?_ ?_
  · intro v hv
    simp only [Context.edges, List.mem_cons, List.mem_append, Array.mem_toList_iff] at hv ⊢
    rcases hv with hv | hv | hv | hv
    · exact .inl (.inl hv)
    · exact .inl (.inr (.inl hv))
    · exact .inl (.inr (.inr (.inl hv)))
    · exact .inr (hstack v hv)
  · intro id hid
    rw [Context.context_mem_roots] at hid ⊢
    exact hid

theorem Context.Intact.setTemporary {c : Context} (h : c.Intact d w) (index : Nat) {v : Value}
    (hv : w.Held (.value v)) :
    Context.Intact d w { c with temporaries := c.temporaries.set! index v } := by
  refine h.of_edges rfl ?_ ?_
  · intro u hu
    simp only [Context.edges, List.mem_cons, List.mem_append, Array.mem_toList_iff] at hu ⊢
    rcases hu with hu | hu | (hu | hu) | hu
    · exact .inl (.inl hu)
    · exact .inl (.inr (.inl hu))
    · exact .inl (.inr (.inr (.inl (.inl hu))))
    · rcases mem_of_mem_set! hu with rfl | hu
      · exact .inr hv
      · exact .inl (.inr (.inr (.inl (.inr hu))))
    · exact .inl (.inr (.inr (.inr hu)))
  · intro id hid
    rw [Context.context_mem_roots] at hid ⊢
    exact hid

/-- A value entered in a table is in it or was there before. -/
theorem Dictionary.live_of_insert {t : Dictionary} {mem : Memory} {name : String} {v : Value}
    (hv : mem.Live v) : ∀ u ∈ (t.insert name v).values, u ∈ t.values ∨ mem.Live u := by
  intro u hu
  rcases t.mem_values_insert hu with rfl | hu
  · exact .inr hv
  · exact .inl hu

theorem Move.intact {m m' : Machine} (hmove : Move d m m') (h : m.Intact d) : m'.Intact d := by
  obtain ⟨inUse, h⟩ := h
  have hlive : ∀ v, m.memory.Live v → (m.memory.view inUse).Held (.value v) :=
    fun v => (m.memory.held_iff_live inUse v).mpr
  cases hmove with
  | record e =>
    exact ⟨inUse, h.withRoots rfl rfl rfl (fun _ => .inl) (fun _ => .inl) (fun _ => .inl)⟩
  | operate id f hid hf =>
    refine ⟨inUse, h.withMemory (h.memory.modifyContext ?_ ?_) rfl⟩
    · intro c hc hintact
      obtain ⟨stack, pc, heq, hstack⟩ := hf c hc
      rw [heq]
      exact hintact.operate (fun v hv => hlive v (hstack v hv)) pc
    · intro c hc
      obtain ⟨stack, pc, heq, -⟩ := hf c hc
      rw [heq]
  | temporary home index v hv =>
    refine ⟨inUse, h.withMemory (h.memory.modifyContext ?_ fun _ _ => rfl) rfl⟩
    intro c _ hintact
    exact hintact.setTemporary index (hlive v hv)
  | write target f hf =>
    have hstamp : ∀ b, m.memory.body? target = some b → (f b).stamp = b.stamp :=
      fun b hb => (hf b hb).stamp_eq
    refine ⟨inUse, h.withMemory (h.memory.modifyBody hstamp ?_) (m.memory.stamp?_modifyBody hstamp)⟩
    intro o ho hintact
    apply hintact.writes
    have hw := hf o.body (by simp [Memory.body?, ho])
    rwa [funext fun v => propext (m.memory.held_iff_live inUse v)]
  | enter method receiver args count outer _ hmethod hreceiver hargs houter =>
    exact ⟨_, h.enter count hmethod hreceiver hargs houter⟩
  | leave => exact ⟨inUse, h.leave⟩
  | allocate hmade hok =>
    rcases h.allocate (hmade.intact h) with herr | ⟨f, v, m₁, inUse', hok', hintact, -⟩
    · simp [hok] at herr
    · rw [hok] at hok'
      cases hok'
      exact ⟨inUse', hintact⟩
  | @intern m₁ name v hd hnew hok =>
    rcases h.allocate (h.symbol hd name) with herr | ⟨f, v', m₂, inUse', hok', hintact, hnew⟩
    · simp [hok] at herr
    · rw [hok] at hok'
      cases hok'
      exact ⟨inUse', hintact.withRoots rfl rfl rfl (fun _ => .inl)
        (Dictionary.live_of_insert (Memory.live_of_object? hnew.object)) (fun _ => .inl)⟩
  | collect hok =>
    rcases h.settle [] (by simp) with herr | ⟨f, c, inUse', hc, -, hintact, -⟩
    · rw [List.append_nil] at herr
      simp [collectGarbage, herr] at hok
    · rw [List.append_nil] at hc
      simp only [collectGarbage, hc] at hok
      cases hok
      exact ⟨inUse', hintact⟩
  | attempt => exact ⟨inUse, h.failedCollection⟩
  | scratch values hvalues =>
    exact ⟨inUse, h.withRoots rfl rfl rfl (fun _ => .inl) (fun _ => .inl)
      (fun u hu => .inr (hvalues u hu))⟩
  | global name v hv =>
    exact ⟨inUse, h.withRoots rfl rfl rfl (Dictionary.live_of_insert hv) (fun _ => .inl)
      (fun _ => .inl)⟩
  | define target entries selector method hb hmethod htyped =>
    have hstamp : ∀ b, m.memory.body? target = some b →
        (Body.dictionary (entries.insert selector method)).stamp = b.stamp := by
      intro b hb'
      rw [hb] at hb'
      obtain rfl := Option.some.inj hb'
      rfl
    refine ⟨inUse, h.withMemory (h.memory.modifyBody hstamp ?_) (m.memory.stamp?_modifyBody hstamp)⟩
    intro o ho hintact
    have hbody : o.body = .dictionary entries := by simpa [Memory.body?, ho] using hb
    exact hintact.define hbody selector (hlive _ hmethod) htyped

theorem Path.intact {m m' : Machine} (hpath : Path d m m') (h : m.Intact d) : m'.Intact d := by
  induction hpath with
  | refl => exact h
  | tail _ hmove ih => exact hmove.intact ih

end

end ObjectMachine

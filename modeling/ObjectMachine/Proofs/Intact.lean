import ObjectMachine.Primitive
import ObjectMachine.Proofs.GraphCopy

/-!
# Intact memory

An object keeps its shape for as long as it lives, and a method its primitive.
Memory is intact when every reference in an object, and in every context that is
in use, lands on an object, and when the references that dispatch relies on land
on objects of the right shape. The shapes matter only once the first classes are
complete; before that, and for hosts that break the rules, less is demanded.
-/

namespace ObjectMachine

/-- What never changes about an object: its shape and, for a method, its primitive. -/
structure Stamp where
  kind : BodyKind
  primitive : Option Nat
deriving DecidableEq

namespace Stamp

def IsClass (s : Stamp) : Prop := s.kind = .classInfo

def IsDictionary (s : Stamp) : Prop := s.kind = .dictionary

def IsCode (s : Stamp) : Prop := s.kind = .method ∨ s.kind = .block

/-- A method whose primitive, if it has one, is in the table. -/
def IsKnownMethod (s : Stamp) : Prop :=
  s.kind = .method ∧ ∀ index ∈ s.primitive, (Primitive.row? index).isSome

end Stamp

def Body.stamp : Body → Stamp
  | .method c => ⟨.method, c.primitive⟩
  | b => ⟨b.kind, none⟩

@[simp] theorem Body.stamp_kind (b : Body) : b.stamp.kind = b.kind := by
  cases b <;> rfl

@[simp] theorem Body.stamp_map (b : Body) (f : Value → Value) : (b.map f).stamp = b.stamp := by
  cases b <;> rfl

def Memory.stamp? (mem : Memory) (v : Value) : Option Stamp := (mem.body? v).map Body.stamp

/-- All that intactness reads of a memory: the stamps of its objects, and which
contexts are in use. -/
structure View where
  stamp : Value → Option Stamp
  inUse : ContextId → Prop

def Memory.view (mem : Memory) (inUse : ContextId → Prop) : View := ⟨mem.stamp?, inUse⟩

namespace View

variable (w : View)

def Fits (p : Stamp → Prop) (v : Value) : Prop := ∃ s, w.stamp v = some s ∧ p s

/-- The root is an immediate, refers to an object, or is a context in use. -/
def Held : Root → Prop
  | .value v => v.isPointer → (w.stamp v).isSome
  | .context id => w.inUse id

/-- The renaming `f` takes the root from one view to the other. -/
def Carries (w' : View) (f : Nat → Nat) : Root → Prop
  | .value v => ∀ s, w.stamp v = some s → w'.stamp (v.rename f) = some s
  | .context id => w.inUse id → w'.inUse id

end View

/-- The value is an immediate or refers to an object. -/
def Memory.Live (mem : Memory) : Value → Prop
  | .pointer i => i < mem.objects.size
  | _ => True

/-- How much of the typing is in force. -/
inductive Discipline where
  /-- References land on objects, whatever their shape. -/
  | free
  /-- As free, and a class stands on another class or on nil. -/
  | layered
  /-- Only classes and their dictionaries exist, some still without a class. -/
  | booting
  /-- Every reference that dispatch follows has the right shape. -/
  | strict
deriving DecidableEq

/-- Whether dictionaries hold methods and contexts run code. -/
@[simp] def Discipline.typed : Discipline → Bool
  | .free | .layered => false
  | .booting | .strict => true

/-- Whether every class stands on another class or on nil. -/
@[simp] def Discipline.layers : Discipline → Bool
  | .layered | .booting => true
  | .free | .strict => false

/-- Method dictionaries are dictionaries of methods. -/
def Body.WellTyped (w : View) : Body → Prop
  | .classInfo c => w.Fits Stamp.IsDictionary c.methods
  | .dictionary d => ∀ v ∈ d.values, w.Fits Stamp.IsKnownMethod v
  | _ => True

/-- Whether a value may be used as a class. -/
def Discipline.AllowsClass (d : Discipline) (w : View) (v : Value) : Prop :=
  match d with
  | .free | .layered => True
  | .booting => v = .nil ∨ w.Fits Stamp.IsClass v
  | .strict => w.Fits Stamp.IsClass v

namespace HeapObject

/-- A class needs no class of its own. -/
structure WellTyped (d : Discipline) (w : View) (o : HeapObject) : Prop where
  body : d.typed → o.body.WellTyped w
  header : o.body.kind ≠ .classInfo → d.AllowsClass w o.header.classRef
  early : d = .booting → o.body.kind = .classInfo ∨ o.body.kind = .dictionary

structure Intact (d : Discipline) (w : View) (o : HeapObject) : Prop where
  whole : o.body ≠ .husk
  held : ∀ r ∈ o.roots, w.Held r
  typed : o.WellTyped d w

end HeapObject

structure Context.Intact (d : Discipline) (w : View) (c : Context) : Prop where
  held : ∀ r ∈ c.roots, w.Held r
  code : d.typed → w.Fits Stamp.IsCode c.method

/-- `inUse` is a set of contexts that is closed under what objects and contexts
refer to, and every reference in them and in the objects is sound. -/
structure Memory.Intact (d : Discipline) (inUse : ContextId → Prop) (mem : Memory) : Prop where
  objects : ∀ (i : Nat) (o : HeapObject), mem.objects[i]? = some o →
    o.Intact d (mem.view inUse)
  contexts : ∀ id, inUse id → ∃ c, mem.contexts[id]? = some c ∧ c.Intact d (mem.view inUse)
  epochs : mem.EpochsPast

namespace Memory

variable (mem : Memory)

theorem stamp?_pointer (i : Nat) :
    mem.stamp? (.pointer i) = (mem.objects[i]?).map fun o => o.body.stamp := by
  simp [stamp?, body?, object?, Function.comp_def]

theorem stamp?_immediate {v : Value} (hv : v.isPointer = false) : mem.stamp? v = none := by
  rw [stamp?, mem.body?_of_immediate hv, Option.map_none]

theorem stamp?_of_body? {v : Value} {b : Body} (h : mem.body? v = some b) :
    mem.stamp? v = some b.stamp := by
  rw [stamp?, h, Option.map_some]

theorem isSome_stamp?_pointer (i : Nat) :
    (mem.stamp? (.pointer i)).isSome ↔ i < mem.objects.size := by
  simp [stamp?_pointer]

theorem held_iff_live (inUse : ContextId → Prop) (v : Value) :
    (mem.view inUse).Held (.value v) ↔ mem.Live v := by
  cases v with
  | pointer i =>
    have hi := mem.isSome_stamp?_pointer i
    exact ⟨fun h => hi.mp (h rfl), fun h _ => hi.mpr h⟩
  | _ => exact ⟨fun _ => trivial, fun _ hp => absurd hp Bool.false_ne_true⟩

theorem live_of_object? {mem : Memory} {v : Value} {o : HeapObject} (h : mem.object? v = some o) :
    mem.Live v := by
  cases v with
  | pointer i => exact (Array.getElem?_eq_some_iff.mp h).1
  | _ => trivial

theorem getElem?_modifyBody (v : Value) (g : Body → Body) (i : Nat) :
    (mem.modifyBody v g).objects[i]? =
      if v = .pointer i then (mem.objects[i]?).map fun o => { o with body := g o.body }
      else mem.objects[i]? := by
  cases v with
  | pointer j => simp [modifyBody, modifyObject, Array.getElem?_modify]
  | _ => simp [modifyBody, modifyObject]

/-- A change that keeps the stamp of the object it is made to keeps them all. -/
theorem stamp?_modifyBody {v : Value} {g : Body → Body}
    (hg : ∀ b, mem.body? v = some b → (g b).stamp = b.stamp) :
    (mem.modifyBody v g).stamp? = mem.stamp? := by
  funext u
  cases u with
  | pointer i =>
    rw [stamp?_pointer, stamp?_pointer, getElem?_modifyBody]
    by_cases hv : v = .pointer i
    · cases ho : mem.objects[i]? with
      | none => simp [hv]
      | some o =>
        have := hg o.body (by simp [hv, body?, object?, ho])
        simp [hv, this]
    · simp [hv]
  | _ => rfl

/-- A new object leaves the stamps of the others alone. -/
theorem stamp?_append {v : Value} {s : Stamp} (o : HeapObject) (h : mem.stamp? v = some s) :
    (mem.append o).stamp? v = some s := by
  cases v with
  | pointer i =>
    have hlt : i < mem.objects.size := (mem.isSome_stamp?_pointer i).mp (by simp [h])
    rw [stamp?_pointer] at h ⊢
    simpa [append, Array.getElem?_push, Nat.ne_of_lt hlt] using h
  | _ => exact absurd h (by simp [stamp?, body?, object?])

end Memory

variable {d : Discipline} {w w' : View} {f : Nat → Nat}

theorem View.Fits.carry {p : Stamp → Prop} {v : Value} (h : w.Fits p v)
    (hv : w.Carries w' f (.value v)) : w'.Fits p (v.rename f) := by
  obtain ⟨s, hs, hp⟩ := h
  exact ⟨s, hv s hs, hp⟩

theorem View.Held.carry_value {v : Value} (h : w.Held (.value v))
    (hv : w.Carries w' f (.value v)) : w'.Held (.value (v.rename f)) := by
  cases v with
  | pointer i =>
    intro _
    obtain ⟨s, hs⟩ := Option.isSome_iff_exists.mp (h rfl)
    rw [hv s hs]
    rfl
  | _ => exact fun hp => absurd hp Bool.false_ne_true

theorem Discipline.AllowsClass.carry {v : Value} (h : d.AllowsClass w v)
    (hv : w.Carries w' f (.value v)) : d.AllowsClass w' (v.rename f) := by
  cases d with
  | free | layered => trivial
  | strict => exact View.Fits.carry h hv
  | booting =>
    rcases h with rfl | h
    · exact .inl rfl
    · exact .inr (View.Fits.carry h hv)

theorem Body.WellTyped.carry {b : Body} (h : b.WellTyped w)
    (hv : ∀ v ∈ b.edges, w.Carries w' f (.value v)) : (b.map (Value.rename f)).WellTyped w' := by
  cases b with
  | classInfo c => exact View.Fits.carry h (hv c.methods (by simp [edges]))
  | dictionary e =>
    intro u hu
    rw [Dictionary.values_map, List.mem_map] at hu
    obtain ⟨v, hmem, rfl⟩ := hu
    exact View.Fits.carry (h v hmem) (hv v hmem)
  | _ => trivial

namespace HeapObject

variable {o o' : HeapObject}

/-- An intact object stays so when everything it refers to is carried along. -/
theorem Intact.carry (h : o.Intact d w) (hr : ∀ r ∈ o.roots, w.Carries w' f r)
    (hclass : o'.header.classRef = o.header.classRef.rename f)
    (hbody : o'.body = o.body.map (Value.rename f)) : o'.Intact d w' := by
  have hedges : ∀ v ∈ o.edges, w.Carries w' f (.value v) :=
    fun v hv => hr _ ((o.value_mem_roots v).mpr hv)
  have hkind : o'.body.kind = o.body.kind := by rw [hbody, Body.kind_map]
  refine ⟨?_, ?_, ?_, ?_, ?_⟩
  · intro hhusk
    have := congrArg Body.kind hhusk
    rw [hkind] at this
    apply h.whole
    cases hb : o.body <;> simp [hb, Body.kind] at this
    rfl
  · intro r hr'
    cases r with
    | value u =>
      rw [value_mem_roots, edges, hclass, hbody, Body.edges_map, ← List.map_cons,
        List.mem_map] at hr'
      obtain ⟨v, hv, rfl⟩ := hr'
      exact (h.held _ ((o.value_mem_roots v).mpr hv)).carry_value (hedges v hv)
    | context id =>
      rw [context_mem_roots, hbody, Body.outer?_map, ← context_mem_roots] at hr'
      exact hr _ hr' (h.held _ hr')
  · intro hd
    rw [hbody]
    exact (h.typed.body hd).carry fun v hv => hedges v (by simp [edges, hv])
  · intro hk
    rw [hclass]
    exact (h.typed.header (hkind ▸ hk)).carry (hedges _ (by simp [edges]))
  · intro hd
    rw [hkind]
    exact h.typed.early hd

/-- An object that is left alone stays intact in a memory that keeps what it
refers to. -/
theorem Intact.mono (h : o.Intact d w) (hr : ∀ r ∈ o.roots, w.Carries w' id r) : o.Intact d w' :=
  h.carry hr (by rw [Value.rename_id]; rfl) (by rw [Value.rename_id, Body.map_id])

end HeapObject

namespace Context

variable {c c' : Context}

theorem Intact.carry (h : c.Intact d w) (hr : ∀ r ∈ c.roots, w.Carries w' f r)
    (hmethod : c'.method = c.method.rename f) (hedges : c'.edges = c.edges.map (Value.rename f))
    (hsender : c'.sender = c.sender) (houter : c'.outer = c.outer) : c'.Intact d w' := by
  refine ⟨?_, ?_⟩
  · intro r hr'
    cases r with
    | value u =>
      rw [value_mem_roots, hedges, List.mem_map] at hr'
      obtain ⟨v, hv, rfl⟩ := hr'
      have hv' := (c.value_mem_roots v).mpr hv
      exact (h.held _ hv').carry_value (hr _ hv')
    | context id =>
      rw [context_mem_roots, hsender, houter, ← context_mem_roots] at hr'
      exact hr _ hr' (h.held _ hr')
  · intro hd
    rw [hmethod]
    exact (h.code hd).carry (hr _ ((c.value_mem_roots _).mpr (by simp [edges])))

theorem Intact.mono (h : c.Intact d w) (hr : ∀ r ∈ c.roots, w.Carries w' id r) : c.Intact d w' :=
  h.carry hr (by rw [Value.rename_id]; rfl) (by rw [Value.rename_id, List.map_id]) rfl rfl

end Context

namespace Memory.Intact

variable {mem : Memory} {inUse : ContextId → Prop}

/-- What held roots reach is held. -/
theorem held_of_reaches (h : mem.Intact d inUse) {roots : List Root}
    (hroots : ∀ r ∈ roots, (mem.view inUse).Held r) {r : Root} (hr : mem.Reaches roots r) :
    (mem.view inUse).Held r := by
  induction hr with
  | root hr => exact hroots _ hr
  | @step r r' _ hnext ih =>
    cases r with
    | value v =>
      cases v with
      | pointer i =>
        cases ho : mem.objects[i]? with
        | none => simp [next, ho] at hnext
        | some o =>
          rw [mem_next_pointer ho] at hnext
          exact (h.objects i o ho).held _ hnext
      | _ => exact absurd hnext List.not_mem_nil
    | context id =>
      obtain ⟨c, hc, hintact⟩ := h.contexts id ih
      rw [mem_next_context hc] at hnext
      exact hintact.held _ hnext

theorem inRange_of_held {r : Root} (h : (mem.view inUse).Held r) : mem.InRange r := by
  cases r with
  | context id => trivial
  | value v =>
    cases v with
    | pointer i => exact (mem.isSome_stamp?_pointer i).mp (h rfl)
    | _ => trivial

theorem modifyContext (h : mem.Intact d inUse) {id : ContextId} {g : Context → Context}
    (hg : ∀ c, mem.contexts[id]? = some c → c.Intact d (mem.view inUse) →
      (g c).Intact d (mem.view inUse))
    (hepoch : ∀ c, mem.contexts[id]? = some c → (g c).epoch = c.epoch) :
    (mem.modifyContext id g).Intact d inUse where
  objects := h.objects
  contexts id' hid := by
    obtain ⟨c, hc, hintact⟩ := h.contexts id' hid
    by_cases heq : id = id'
    · subst heq
      exact ⟨g c, by simp [Memory.modifyContext, Array.getElem?_modify, hc], hg c hc hintact⟩
    · exact ⟨c, by simp [Memory.modifyContext, Array.getElem?_modify, heq, hc], hintact⟩
  epochs id' c' hc' := by
    simp only [Memory.modifyContext, Array.getElem?_modify] at hc'
    split_ifs at hc' with heq
    · obtain ⟨c, hc, rfl⟩ := Option.map_eq_some_iff.mp hc'
      rw [hepoch c (heq ▸ hc)]
      exact h.epochs id' c hc
    · exact h.epochs id' c' hc'

theorem modifyBody (h : mem.Intact d inUse) {v : Value} {g : Body → Body}
    (hstamp : ∀ b, mem.body? v = some b → (g b).stamp = b.stamp)
    (hg : ∀ o, mem.object? v = some o → o.Intact d (mem.view inUse) →
      HeapObject.Intact d (mem.view inUse) { o with body := g o.body }) :
    (mem.modifyBody v g).Intact d inUse := by
  have hview : (mem.modifyBody v g).view inUse = mem.view inUse := by
    rw [view, mem.stamp?_modifyBody hstamp, view]
  have hcontexts : (mem.modifyBody v g).contexts = mem.contexts := mem.modifyObject_contexts v _
  refine ⟨?_, ?_, ?_⟩
  · intro i o ho
    rw [hview]
    rw [getElem?_modifyBody] at ho
    split_ifs at ho with hv
    · obtain ⟨o', ho', rfl⟩ := Option.map_eq_some_iff.mp ho
      exact hg o' (by simp [hv, object?, ho']) (h.objects i o' ho')
    · exact h.objects i o ho
  · intro id hid
    rw [hcontexts, hview]
    exact h.contexts id hid
  · intro id c hc
    rw [hcontexts] at hc
    have hcount : (mem.modifyBody v g).collections = mem.collections := by cases v <;> rfl
    rw [hcount]
    exact h.epochs id c hc

theorem append (h : mem.Intact d inUse) {o : HeapObject} (ho : o.Intact d (mem.view inUse)) :
    (mem.append o).Intact d inUse := by
  have hcarry : ∀ r, (mem.view inUse).Carries ((mem.append o).view inUse) id r := by
    intro r
    cases r with
    | value v =>
      intro s hs
      rw [Value.rename_id]
      exact mem.stamp?_append o hs
    | context id => exact fun hid => hid
  refine ⟨?_, ?_, h.epochs⟩
  · intro i o' ho'
    simp only [append_objects, Array.getElem?_push] at ho'
    split_ifs at ho' with hi
    · obtain rfl := Option.some.inj ho'
      exact ho.mono fun r _ => hcarry r
    · exact (h.objects i o' ho').mono fun r _ => hcarry r
  · intro id hid
    obtain ⟨c, hc, hintact⟩ := h.contexts id hid
    exact ⟨c, hc, hintact.mono fun r _ => hcarry r⟩

theorem addContext (h : mem.Intact d inUse) {c : Context} (hepoch : c.epoch ≤ mem.collections)
    (hc : c.Intact d (mem.view inUse)) :
    (mem.addContext c).Intact d (fun id => inUse id ∨ id = mem.contexts.size) := by
  have hcarry : ∀ r, (mem.view inUse).Carries
      ((mem.addContext c).view fun id => inUse id ∨ id = mem.contexts.size) id r := by
    intro r
    cases r with
    | value v =>
      intro s hs
      rw [Value.rename_id]
      exact hs
    | context id => exact fun hid => .inl hid
  refine ⟨fun i o ho => (h.objects i o ho).mono fun r _ => hcarry r, ?_, ?_⟩
  · rintro id (hid | rfl)
    · obtain ⟨x, hx, hintact⟩ := h.contexts id hid
      have hlt := (Array.getElem?_eq_some_iff.mp hx).1
      refine ⟨x, ?_, hintact.mono fun r _ => hcarry r⟩
      simpa [Array.getElem?_push, Nat.ne_of_lt hlt] using hx
    · exact ⟨c, by simp, hc.mono fun r _ => hcarry r⟩
  · intro id x hx
    simp only [addContext_contexts, Array.getElem?_push] at hx
    split_ifs at hx with hid
    · obtain rfl := Option.some.inj hx
      exact hepoch
    · exact h.epochs id x hx

/-- A collection from held roots ends, unless its capacity overflows, with an
intact memory that carries everything reached. -/
theorem collect (h : mem.Intact d inUse) {roots : List Root}
    (hroots : ∀ r ∈ roots, (mem.view inUse).Held r) :
    (mem.collect roots = .error .multiplicationOverflow ∧ mem.CapacityOverflow) ∨
      ∃ f c inUse', mem.collect roots = .ok c ∧ mem.GraphCopy roots f c ∧
        c.memory.Intact d inUse' ∧
        ∀ r, mem.Reaches roots r → (mem.view inUse).Carries (c.memory.view inUse') f r := by
  have hheld : ∀ r, mem.Reaches roots r → (mem.view inUse).Held r :=
    fun r hr => h.held_of_reaches hroots hr
  rcases collect_spec (fun r hr => inRange_of_held (hheld r hr)) h.epochs.unmarked with
    hover | ⟨f, c, hc, hcopy⟩
  · exact .inl hover
  · have hcarry : ∀ r, mem.Reaches roots r →
        (mem.view inUse).Carries
          (c.memory.view fun id => inUse id ∧ mem.Reaches roots (.context id)) f r := by
      intro r hr
      cases r with
      | context id => exact fun hid => ⟨hid, hr⟩
      | value v =>
        intro s hs
        cases v with
        | pointer i =>
          simp only [view, stamp?_pointer, Option.map_eq_some_iff] at hs
          obtain ⟨o, ho, rfl⟩ := hs
          simp [view, stamp?_pointer, hcopy.objects i o hr ho]
        | _ => exact absurd hs (by simp [view, stamp?, body?, object?])
    refine .inr ⟨f, c, _, hc, hcopy, ⟨?_, ?_, ?_⟩, hcarry⟩
    · intro k o' ho'
      have hk : k ∈ Set.Iio c.memory.objects.size := (Array.getElem?_eq_some_iff.mp ho').1
      obtain ⟨i, hi, rfl⟩ := hcopy.bijection.surjOn hk
      have hlt : i < mem.objects.size := inRange_of_held (hheld _ hi)
      have ho := Array.getElem?_eq_getElem hlt
      rw [hcopy.objects i _ hi ho] at ho'
      obtain rfl := Option.some.inj ho'
      refine (h.objects i _ ho).carry (fun r hr => hcarry r ?_) rfl rfl
      exact .step hi (mem_next_pointer ho ▸ hr)
    · rintro id ⟨hid, hreach⟩
      obtain ⟨x, hx, hintact⟩ := h.contexts id hid
      refine ⟨_, hcopy.contexts id x hreach hx,
        hintact.carry (fun r hr => hcarry r ?_) rfl ?_ rfl rfl⟩
      · exact .step hreach (mem_next_context hx ▸ hr)
      · simp [Context.edges]
    · exact hcopy.epochsPast h.epochs

end Memory.Intact

end ObjectMachine

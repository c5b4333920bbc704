import ObjectMachine.Proofs.Simulation

/-!
# Collections on one side

A collection moves the objects of one machine and leaves the other machine
alone. `Moved` says what the first then looks like, and holds just as well of a
machine in which nothing has moved. Whatever combination of the two befalls two
corresponding machines, they correspond again, in a world whose places have
followed the moves.
-/

namespace ObjectMachine

/-- The kept part of `m` is found in `m'` under the renaming `f`. Everything that
`m` keeps alive is kept, and so is whatever that leads to. -/
structure Moved (kept : Root → Prop) (f : Nat → Nat) (m m' : Machine) : Prop where
  roots : ∀ r ∈ m.roots, kept r
  closed : ∀ r, kept r → ∀ s ∈ m.memory.next r, kept s
  injective : Set.InjOn f {i | kept (.value (.pointer i))}
  objects : ∀ (i : Nat) (o : HeapObject), kept (.value (.pointer i)) →
    m.memory.objects[i]? = some o → ∃ header, header.classRef = o.header.classRef.rename f ∧
      m'.memory.objects[f i]? = some ⟨header, o.body.map (Value.rename f)⟩
  contexts : ∀ (id : ContextId) (c : Context), kept (.context id) →
    m.memory.contexts[id]? = some c →
    ∃ epoch, m'.memory.contexts[id]? = some { c.mapEdges (Value.rename f) with epoch }
  contextCount : m'.memory.contexts.size = m.memory.contexts.size
  epochs : m'.memory.EpochsPast
  core : m'.core = m.core.map (Value.rename f)
  globals : m'.globals = m.globals.map (Value.rename f)
  symbols : m'.symbols = m.symbols.map (Value.rename f)
  scratch : m'.scratch = m.scratch.map (Value.rename f)
  active : m'.active = m.active
  depth : m'.depth = m.depth
  maxDepth : m'.maxDepth = m.maxDepth

namespace Moved

variable {m : Machine}

theorem still (h : m.memory.EpochsPast) : Moved (fun _ => True) id m m where
  roots _ _ := trivial
  closed _ _ _ _ := trivial
  injective := Set.injOn_id _
  objects i o _ ho := ⟨o.header, by rw [Value.rename_id]; rfl,
    by rw [Value.rename_id, Body.map_id]; exact ho⟩
  contexts id c _ hc := ⟨c.epoch, by rw [Value.rename_id, Context.mapEdges_id]; exact hc⟩
  contextCount := rfl
  epochs := h
  core := by rw [Value.rename_id]; rfl
  globals := by rw [Value.rename_id]; simp [Dictionary.map]
  symbols := by rw [Value.rename_id]; simp [Dictionary.map]
  scratch := by rw [Value.rename_id]; simp
  active := rfl
  depth := rfl
  maxDepth := rfl

variable {kept : Root → Prop} {f : Nat → Nat} {m' : Machine}

theorem object_roots (h : Moved kept f m m') {i : Nat} {o : HeapObject}
    (hi : kept (.value (.pointer i))) (ho : m.memory.objects[i]? = some o) :
    ∀ r ∈ o.roots, kept r := by
  rw [← Memory.mem_next_pointer ho]
  exact h.closed _ hi

theorem superclass (h : Moved kept f m m') {v : Value} {c : ClassInfo}
    (hv : kept (.value v)) (hc : m.memory.body? v = some (.classInfo c)) :
    kept (.value c.superclass) := by
  obtain ⟨o, ho, hbody⟩ := Option.map_eq_some_iff.mp hc
  cases v with
  | pointer i =>
    apply h.object_roots hv ho
    rw [HeapObject.value_mem_roots]
    simp [HeapObject.edges, hbody, Body.edges]
  | _ => exact absurd ho (by simp [Memory.object?])

theorem context_roots (h : Moved kept f m m') {id : ContextId} {c : Context}
    (hid : kept (.context id)) (hc : m.memory.contexts[id]? = some c) : ∀ r ∈ c.roots, kept r := by
  rw [← Memory.mem_next_context hc]
  exact h.closed _ hid

end Moved

/-- A collection moves what it reaches. -/
theorem Memory.GraphCopy.moved {m : Machine} {pending : List Root} {f : Nat → Nat}
    {c : Collection} (h : m.memory.GraphCopy (m.roots ++ pending) f c)
    (hepochs : m.memory.EpochsPast) :
    Moved (m.memory.Reaches (m.roots ++ pending)) f m (m.settle c) := by
  have hroot : ∀ r ∈ m.roots, m.memory.Reaches (m.roots ++ pending) r :=
    fun r hr => .root (List.mem_append_left _ hr)
  have hvalue : ∀ v, v ∈ m.core.values ∨ v ∈ m.globals.values ∨ v ∈ m.symbols.values ∨
      v ∈ m.scratch → c.survey.relocate v = v.rename f := by
    intro v hv
    exact h.values v (hroot _ (Machine.value_mem_roots.mpr hv))
  constructor
  case roots => exact hroot
  case closed => exact fun r hr s hs => .step hr hs
  case injective => exact h.bijection.injOn
  case objects =>
    intro i o hi ho
    exact ⟨_, rfl, h.objects i o hi ho⟩
  case contexts =>
    intro id x hid hx
    use m.memory.collections + 1
    rw [Context.mapEdges_eq]
    exact h.contexts id x hid hx
  case contextCount => exact h.contextCount
  case epochs => exact h.epochsPast hepochs
  case core => exact CoreClasses.map_congr fun v hv => hvalue v (.inl hv)
  case globals => exact Dictionary.map_congr _ _ _ fun v hv => hvalue v (.inr (.inl hv))
  case symbols => exact Dictionary.map_congr _ _ _ fun v hv => hvalue v (.inr (.inr (.inl hv)))
  case scratch => exact Array.map_congr_left fun v hv => hvalue v (.inr (.inr (.inr hv)))
  case active => rfl
  case depth => rfl
  case maxDepth => rfl

def World.displace (w : World) (kept₁ : Root → Prop) (f₁ : Nat → Nat) (kept₂ : Root → Prop)
    (f₂ : Nat → Nat) : World where
  index i' j' := ∃ i j, w.index i j ∧ kept₁ (.value (.pointer i)) ∧ kept₂ (.value (.pointer j)) ∧
    f₁ i = i' ∧ f₂ j = j'
  context id := w.context id ∧ kept₁ (.context id) ∧ kept₂ (.context id)

section

variable {w : World} {m₁ m₁' m₂ m₂' : Machine} {kept₁ kept₂ : Root → Prop} {f₁ f₂ : Nat → Nat}

theorem World.Rel.displace {v u : Value} (h : w.Rel v u) (hv : kept₁ (.value v))
    (hu : kept₂ (.value u)) :
    (w.displace kept₁ f₁ kept₂ f₂).Rel (v.rename f₁) (u.rename f₂) := by
  cases h with
  | pointer hi => exact .pointer ⟨_, _, hi, hv, hu, rfl, rfl⟩
  | immediate hp =>
    rw [Value.rename_of_immediate hp, Value.rename_of_immediate hp]
    exact .immediate hp

theorem World.OneToOne.displace (hw : w.OneToOne)
    (h₁ : Set.InjOn f₁ {i | kept₁ (.value (.pointer i))})
    (h₂ : Set.InjOn f₂ {i | kept₂ (.value (.pointer i))}) :
    (w.displace kept₁ f₁ kept₂ f₂).OneToOne := by
  constructor
  · rintro _ _ _ ⟨i, j, hij, hi, hj, rfl, rfl⟩ ⟨i', j', hij', hi', hj', heq, rfl⟩
    obtain rfl : i' = i := h₁ hi' hi heq
    rw [hw.left hij hij']
  · rintro _ _ _ ⟨i, j, hij, hi, hj, rfl, rfl⟩ ⟨i', j', hij', hi', hj', rfl, heq⟩
    obtain rfl : j' = j := h₂ hj' hj heq
    rw [hw.right hij hij']

/-- Objects that correspond still do when both sides have kept them. -/
theorem HeapObject.Rel.displace {o₁ o₂ o₁' o₂' : HeapObject} (h : o₁.Rel w o₂)
    (hkept₁ : ∀ r ∈ o₁.roots, kept₁ r) (hkept₂ : ∀ r ∈ o₂.roots, kept₂ r)
    (hclass₁ : o₁'.header.classRef = o₁.header.classRef.rename f₁)
    (hbody₁ : o₁'.body = o₁.body.map (Value.rename f₁))
    (hclass₂ : o₂'.header.classRef = o₂.header.classRef.rename f₂)
    (hbody₂ : o₂'.body = o₂.body.map (Value.rename f₂)) :
    o₁'.Rel (w.displace kept₁ f₁ kept₂ f₂) o₂' := by
  apply h.carry (Value.rename f₁) (Value.rename f₂) _ _ hclass₁ hbody₁ hclass₂ hbody₂
  · intro v hv u hu hrel
    exact hrel.displace (hkept₁ _ ((o₁.value_mem_roots v).mpr hv))
      (hkept₂ _ ((o₂.value_mem_roots u).mpr hu))
  · intro id hid hc
    have hid' : o₂.body.outer? = some id := h.body.outer.1 ▸ hid
    exact ⟨hc, hkept₁ _ ((o₁.context_mem_roots id).mpr hid),
      hkept₂ _ ((o₂.context_mem_roots id).mpr hid')⟩

theorem Context.Rel.displace {c₁ c₂ : Context} (h : c₁.Rel w c₂)
    (hkept₁ : ∀ r ∈ c₁.roots, kept₁ r) (hkept₂ : ∀ r ∈ c₂.roots, kept₂ r) (epoch₁ epoch₂ : Nat) :
    Context.Rel (w.displace kept₁ f₁ kept₂ f₂)
      { c₁.mapEdges (Value.rename f₁) with epoch := epoch₁ }
      { c₂.mapEdges (Value.rename f₂) with epoch := epoch₂ } := by
  apply h.carry
  · intro v hv u hu hrel
    exact hrel.displace (hkept₁ _ ((c₁.value_mem_roots v).mpr hv))
      (hkept₂ _ ((c₂.value_mem_roots u).mpr hu))
  · intro id hid hc
    have hid' : c₂.sender = some id ∨ c₂.outer = some id := by rwa [← h.sender, ← h.outer]
    exact ⟨hc, hkept₁ _ ((c₁.context_mem_roots id).mpr hid),
      hkept₂ _ ((c₂.context_mem_roots id).mpr hid')⟩

theorem Moved.body? (hmoved : Moved kept₁ f₁ m₁ m₁') (hsim : m₁.memory.Sim w m₂.memory)
    {v u : Value} (hv : w.Rel v u) (hkept : kept₁ (.value v)) :
    m₁'.memory.body? (v.rename f₁) =
      (m₁.memory.body? v).map (Body.map (Value.rename f₁)) := by
  cases hv with
  | pointer hi =>
    obtain ⟨o, -, ho, -, -⟩ := hsim.objects hi
    obtain ⟨header, -, ho'⟩ := hmoved.objects _ o hkept ho
    simp only [Value.rename_pointer, Memory.body?, Memory.object?, ho, ho', Option.map_some]
  | immediate hp =>
    rw [Value.rename_of_immediate hp, Memory.body?_of_immediate _ hp,
      Memory.body?_of_immediate _ hp, Option.map_none]

/-- A chain of superclasses is as long as before when it has moved. -/
theorem Moved.height (hmoved : Moved kept₁ f₁ m₁ m₁') (hsim : m₁.memory.Sim w m₂.memory)
    {v u : Value} {n : Nat} (hn : m₁.memory.Height v n) (hv : w.Rel v u)
    (hkept : kept₁ (.value v)) : m₁'.memory.Height (v.rename f₁) n := by
  induction hn generalizing u with
  | @top v hnone =>
    apply Memory.Height.top
    intro c hc
    rw [hmoved.body? hsim hv hkept, Option.map_eq_some_iff] at hc
    obtain ⟨b, hb, hbc⟩ := hc
    cases b with
    | classInfo c' => exact hnone c' hb
    | _ => exact nomatch hbc
  | @up v c n hc _ ih =>
    obtain ⟨u', hu'⟩ := hsim.superclass hv hc
    have hbody := hmoved.body? hsim hv hkept
    rw [hc, Option.map_some] at hbody
    exact .up hbody (ih hu' (hmoved.superclass hkept hc))

/-- Memories that correspond still do after both have moved. -/
theorem Memory.Sim.displace (h : m₁.memory.Sim w m₂.memory) (h₁ : Moved kept₁ f₁ m₁ m₁')
    (h₂ : Moved kept₂ f₂ m₂ m₂') :
    m₁'.memory.Sim (w.displace kept₁ f₁ kept₂ f₂) m₂'.memory := by
  constructor
  case oneToOne => exact h.oneToOne.displace h₁.injective h₂.injective
  case objects =>
    rintro _ _ ⟨i, j, hij, hi, hj, rfl, rfl⟩
    obtain ⟨o₁, o₂, ho₁, ho₂, hrel⟩ := h.objects hij
    obtain ⟨header₁, hclass₁, ho₁'⟩ := h₁.objects i o₁ hi ho₁
    obtain ⟨header₂, hclass₂, ho₂'⟩ := h₂.objects j o₂ hj ho₂
    exact ⟨_, _, ho₁', ho₂', hrel.displace (h₁.object_roots hi ho₁) (h₂.object_roots hj ho₂)
      hclass₁ rfl hclass₂ rfl⟩
  case grounded =>
    rintro _ _ ⟨i, j, hij, hi, hj, rfl, rfl⟩
    obtain ⟨n, hn⟩ := h.grounded hij
    exact ⟨n, h₁.height h hn (.pointer hij) hi⟩
  case contextCount => rw [h₁.contextCount, h₂.contextCount, h.contextCount]
  case contexts =>
    rintro id ⟨hid, hid₁, hid₂⟩
    obtain ⟨c₁, c₂, hc₁, hc₂, hrel⟩ := h.contexts hid
    obtain ⟨epoch₁, hc₁'⟩ := h₁.contexts id c₁ hid₁ hc₁
    obtain ⟨epoch₂, hc₂'⟩ := h₂.contexts id c₂ hid₂ hc₂
    exact ⟨_, _, hc₁', hc₂', hrel.displace (h₁.context_roots hid₁ hc₁)
      (h₂.context_roots hid₂ hc₂) epoch₁ epoch₂⟩
  case left => exact h₁.epochs
  case right => exact h₂.epochs

theorem Machine.Sim.displace (h : m₁.Sim w m₂) (h₁ : Moved kept₁ f₁ m₁ m₁')
    (h₂ : Moved kept₂ f₂ m₂ m₂') : m₁'.Sim (w.displace kept₁ f₁ kept₂ f₂) m₂' := by
  have hvalue : ∀ v u, .value v ∈ m₁.roots → .value u ∈ m₂.roots → w.Rel v u →
      (w.displace kept₁ f₁ kept₂ f₂).Rel (v.rename f₁) (u.rename f₂) :=
    fun v u hv hu hrel => hrel.displace (h₁.roots _ hv) (h₂.roots _ hu)
  simp only [Machine.value_mem_roots] at hvalue
  constructor
  case memory => exact h.memory.displace h₁ h₂
  case core =>
    rw [h₁.core, h₂.core, CoreClasses.rel_iff, CoreClasses.values_map, CoreClasses.values_map]
    apply forall₂_map (CoreClasses.rel_iff.mp h.core)
    exact fun v hv u hu => hvalue v u (.inl hv) (.inl hu)
  case globals =>
    rw [h₁.globals, h₂.globals]
    exact h.globals.carry fun v hv u hu => hvalue v u (.inr (.inl hv)) (.inr (.inl hu))
  case symbols =>
    rw [h₁.symbols, h₂.symbols]
    exact h.symbols.carry fun v hv u hu =>
      hvalue v u (.inr (.inr (.inl hv))) (.inr (.inr (.inl hu)))
  case scratch =>
    rw [h₁.scratch, h₂.scratch]
    exact h.scratch.map fun v hv u hu =>
      hvalue v u (.inr (.inr (.inr hv))) (.inr (.inr (.inr hu)))
  case active => rw [h₁.active, h₂.active, h.active]
  case shared =>
    intro id hid
    rw [h₁.active] at hid
    exact ⟨h.shared id hid, h₁.roots _ (Machine.context_mem_roots.mpr hid),
      h₂.roots _ (Machine.context_mem_roots.mpr (h.active ▸ hid))⟩
  case depth => rw [h₁.depth, h₂.depth, h.depth]
  case maxDepth => rw [h₁.maxDepth, h₂.maxDepth, h.maxDepth]

end

/-- The same root on both sides. -/
inductive World.RootRel (w : World) : Root → Root → Prop
  | value {v u : Value} : w.Rel v u → RootRel w (.value v) (.value u)
  | context {id : ContextId} : w.context id → RootRel w (.context id) (.context id)

section

variable {w : World}

theorem World.rootRel_values {vs us : List Value} (h : List.Forall₂ w.Rel vs us) :
    List.Forall₂ w.RootRel (vs.map .value) (us.map .value) :=
  forall₂_map h fun _ _ _ _ hrel => .value hrel

theorem World.rootRel_contexts {id? : Option ContextId} (h : ∀ id, id? = some id → w.context id) :
    List.Forall₂ w.RootRel (id?.map Root.context).toList (id?.map Root.context).toList := by
  cases id? with
  | none => exact .nil
  | some id => exact .cons (.context (h id rfl)) .nil

theorem HeapObject.Rel.roots {o₁ o₂ : HeapObject} (h : o₁.Rel w o₂) :
    List.Forall₂ w.RootRel o₁.roots o₂.roots := by
  unfold HeapObject.roots
  rw [← h.body.outer.1]
  exact List.rel_append (World.rootRel_values h.edges) (World.rootRel_contexts h.body.outer.2)

theorem Context.Rel.roots {c₁ c₂ : Context} (h : c₁.Rel w c₂) :
    List.Forall₂ w.RootRel c₁.roots c₂.roots := by
  unfold Context.roots
  rw [← h.sender, ← h.outer]
  apply List.rel_append
  · apply List.rel_append (World.rootRel_values h.edges)
    exact World.rootRel_contexts fun id hid => h.shared id (.inl hid)
  · exact World.rootRel_contexts fun id hid => h.shared id (.inr hid)

theorem Machine.Sim.roots {m₁ m₂ : Machine} (h : m₁.Sim w m₂) :
    List.Forall₂ w.RootRel m₁.roots m₂.roots := by
  unfold Machine.roots
  rw [← h.active]
  apply List.rel_append _ (World.rootRel_contexts h.shared)
  apply World.rootRel_values
  apply List.rel_append _ h.scratch.forall₂
  apply List.rel_append _ h.symbols.values
  exact List.rel_append (CoreClasses.rel_iff.mp h.core) h.globals.values

namespace Memory.Sim

variable {mem₁ mem₂ : Memory} (h : mem₁.Sim w mem₂) {roots₁ roots₂ : List Root}

include h

/-- Corresponding roots lead to corresponding roots. -/
theorem next {r s : Root} (hr : w.RootRel r s) :
    List.Forall₂ w.RootRel (mem₁.next r) (mem₂.next s) := by
  cases hr with
  | context hid =>
    obtain ⟨c₁, c₂, hc₁, hc₂, hrel⟩ := h.contexts hid
    rw [mem_next_context hc₁, mem_next_context hc₂]
    exact hrel.roots
  | @value v u hv =>
    cases hv with
    | pointer hi =>
      obtain ⟨o₁, o₂, ho₁, ho₂, hrel⟩ := h.objects hi
      rw [mem_next_pointer ho₁, mem_next_pointer ho₂]
      exact hrel.roots
    | immediate hp =>
      rw [next_of_immediate hp, next_of_immediate hp]
      exact .nil

theorem partner_left (hroots : List.Forall₂ w.RootRel roots₁ roots₂) {r : Root}
    (hr : mem₁.Reaches roots₁ r) : ∃ s, mem₂.Reaches roots₂ s ∧ w.RootRel r s := by
  induction hr with
  | root hr =>
    obtain ⟨s, hs, hrel⟩ := forall₂_mem_left hroots hr
    exact ⟨s, .root hs, hrel⟩
  | step _ hnext ih =>
    obtain ⟨s, hs, hrel⟩ := ih
    obtain ⟨t, ht, hrel⟩ := forall₂_mem_left (h.next hrel) hnext
    exact ⟨t, .step hs ht, hrel⟩

theorem partner_right (hroots : List.Forall₂ w.RootRel roots₁ roots₂) {s : Root}
    (hs : mem₂.Reaches roots₂ s) : ∃ r, mem₁.Reaches roots₁ r ∧ w.RootRel r s := by
  induction hs with
  | root hs =>
    obtain ⟨r, hr, hrel⟩ := forall₂_mem_right hroots hs
    exact ⟨r, .root hr, hrel⟩
  | step _ hnext ih =>
    obtain ⟨r, hr, hrel⟩ := ih
    obtain ⟨t, ht, hrel⟩ := forall₂_mem_right (h.next hrel) hnext
    exact ⟨t, .step hr ht, hrel⟩

theorem inRange {r s : Root} (hr : w.RootRel r s) : mem₁.InRange r ∧ mem₂.InRange s := by
  cases hr with
  | context _ => exact ⟨trivial, trivial⟩
  | @value v u hv =>
    cases hv with
    | pointer hi =>
      obtain ⟨o₁, o₂, ho₁, ho₂, -⟩ := h.objects hi
      exact ⟨(Array.getElem?_eq_some_iff.mp ho₁).1, (Array.getElem?_eq_some_iff.mp ho₂).1⟩
    | immediate hp => exact ⟨inRange_of_immediate hp, inRange_of_immediate hp⟩

theorem inRange_left (hroots : List.Forall₂ w.RootRel roots₁ roots₂) :
    ∀ r, mem₁.Reaches roots₁ r → mem₁.InRange r := by
  intro r hr
  obtain ⟨s, -, hs⟩ := h.partner_left hroots hr
  exact (h.inRange hs).1

theorem inRange_right (hroots : List.Forall₂ w.RootRel roots₁ roots₂) :
    ∀ s, mem₂.Reaches roots₂ s → mem₂.InRange s := by
  intro s hs
  obtain ⟨r, -, hr⟩ := h.partner_right hroots hs
  exact (h.inRange hr).2

end Memory.Sim

end

/-- Collecting moves the machine, or the new capacity does not fit. -/
theorem collectGarbage_moves {m : Machine}
    (hrange : ∀ r, m.memory.Reaches m.roots r → m.memory.InRange r)
    (hepochs : m.memory.EpochsPast) :
    (collectGarbage m = .error (.fault .multiplicationOverflow) m.afterFailedCollection ∧
        m.memory.CapacityOverflow) ∨
      ∃ kept f m', Moved kept f m m' ∧ collectGarbage m = .ok () m' := by
  rcases Memory.collect_spec hrange hepochs.unmarked with ⟨herr, hfull⟩ | ⟨f, c, hc, hcopy⟩
  · left
    simp only [collectGarbage, herr, hfull, and_self]
  · right
    rw [← List.append_nil m.roots] at hcopy
    refine ⟨_, f, m.settle c, hcopy.moved hepochs, ?_⟩
    simp only [collectGarbage, hc]

/-- Allocating moves the machine and adds the object, its edges moved too, or
the new capacity does not fit. -/
theorem allocate_moves {m : Machine} {o : HeapObject}
    (hrange : ∀ r, m.memory.Reaches (m.roots ++ o.roots) r → m.memory.InRange r)
    (hepochs : m.memory.EpochsPast) :
    (allocate o m = .error (.fault .multiplicationOverflow) m.afterFailedCollection ∧
        m.memory.CapacityOverflow) ∨
      ∃ kept f m', Moved kept f m m' ∧ (∀ r ∈ o.roots, kept r) ∧
        allocate o m = .ok m'.nextPlace (m'.append (o.mapEdges (Value.rename f))) := by
  by_cases hfull : m.memory.shouldCollect
  · rcases Memory.collect_spec hrange hepochs.unmarked with ⟨herr, hlimit⟩ | ⟨f, c, hc, hcopy⟩
    · left
      simp only [allocate, hfull, herr, hlimit, if_true, and_self]
    · right
      have hreach : ∀ r ∈ o.roots, m.memory.Reaches (m.roots ++ o.roots) r :=
        fun r hr => .root (List.mem_append_right _ hr)
      have hedges : o.mapEdges c.survey.relocate = o.mapEdges (Value.rename f) := by
        apply o.mapEdges_congr
        intro v hv
        exact hcopy.values v (hreach _ ((o.value_mem_roots v).mpr hv))
      refine ⟨_, f, m.settle c, hcopy.moved hepochs, hreach, ?_⟩
      simp only [allocate, hfull, hc, hedges, if_true]
  · right
    refine ⟨_, id, m, .still hepochs, fun _ _ => trivial, ?_⟩
    rw [Value.rename_id, HeapObject.mapEdges_id]
    simp only [allocate, hfull]
    rfl

end ObjectMachine

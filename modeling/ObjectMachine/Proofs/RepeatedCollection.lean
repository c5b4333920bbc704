import ObjectMachine.Proofs.LockStep

/-!
# Collecting twice

A collection lays the objects out in the order in which it meets them. The next
one, from the same roots as the first has left them, meets them in that order
again. So it finds every object where it would put it, and changes nothing but
its own bookkeeping.
-/

namespace ObjectMachine

def HeapObject.aged (o : HeapObject) : HeapObject :=
  { o with header.age := if o.header.age = 255 then 255 else o.header.age + 1 }

namespace Memory

/-- The collection `d` of `mem` from `roots` has left everything in its place: the
objects are only older, the values that the roots and all they reach hold are the
same, and the contexts reached are the same but for the mark of the collection. -/
structure LeftInPlace (mem : Memory) (roots : List Root) (d : Collection) : Prop where
  objects : d.memory.objects = mem.objects.map HeapObject.aged
  held : roots.map (Root.map d.survey.relocate) = roots
  values : ∀ v, mem.Reaches roots (.value v) → d.survey.relocate v = v
  contexts : ∀ (id : ContextId) (x : Context), mem.Reaches roots (.context id) →
    mem.contexts[id]? = some x →
    d.memory.contexts[id]? = some { x with epoch := mem.collections + 1 }
  unreached : ∀ id : ContextId, ¬mem.Reaches roots (.context id) →
    d.memory.contexts[id]? = mem.contexts[id]?
  contextCount : d.memory.contexts.size = mem.contexts.size
  settings : d.memory.settings = mem.settings
  collections : d.memory.collections = mem.collections + 1
  capacity : d.memory.capacity = mem.capacity ∨
    d.memory.capacity = mem.capacity * mem.settings.growthFactor

variable {mem : Memory} {roots : List Root} {f : Nat → Nat} {c : Collection}

section

variable (h : mem.GraphCopy roots f c) (hrange : ∀ r, mem.Reaches roots r → mem.InRange r)

include h hrange

theorem GraphCopy.foundIn : mem.FoundIn roots f c.memory where
  injective := h.bijection.injOn
  next r hr := by
    cases r with
    | value v =>
      cases v with
      | pointer i =>
        have ho := Array.getElem?_eq_getElem (hrange _ hr)
        have hcopy := h.objects i _ hr ho
        rw [mem_next_pointer ho, Root.map, Value.rename_pointer, mem_next_pointer hcopy,
          ← HeapObject.roots_mapEdges, HeapObject.mapEdges_eq]
        rfl
      | _ => rfl
    | context id =>
      cases hx : mem.contexts[id]? with
      | none =>
        have hx' : c.memory.contexts[id]? = none := by
          rw [Array.getElem?_eq_none_iff, h.contextCount, ← Array.getElem?_eq_none_iff, hx]
        simp [next, Root.map, hx, hx']
      | some x =>
        rw [mem_next_context hx, Root.map, mem_next_context (h.contexts id x hr hx),
          ← Context.roots_mapEdges x _ (mem.collections + 1), Context.mapEdges_eq]
  objects i hi := iff_of_true (h.bijection.mapsTo hi) (hrange _ hi)
  contexts id _ := by rw [h.contextCount]

/-- The contexts that the next collection reaches carry the number of this one. -/
theorem GraphCopy.unmarkedFrom : c.memory.UnmarkedFrom (roots.map (Root.map (Value.rename f))) := by
  intro id x' hid hx'
  obtain ⟨r, hr, heq⟩ := (h.foundIn hrange).exists_of_reaches hid
  cases r with
  | value v => cases heq
  | context id' =>
    cases heq
    have hlt := (Array.getElem?_eq_some_iff.mp hx').1
    rw [h.contextCount] at hlt
    rw [h.contexts id _ hr (Array.getElem?_eq_getElem hlt)] at hx'
    cases hx'
    simp [h.collections]

/-- An object that has just been copied changes only its age in the next collection. -/
theorem GraphCopy.survivor_eq {k : Nat} {o : HeapObject} (ho : c.memory.objects[k]? = some o) :
    o.survivor = o.aged := by
  obtain ⟨i, hi, rfl⟩ := h.bijection.surjOn (Array.getElem?_eq_some_iff.mp ho).1
  rw [h.objects i _ hi (Array.getElem?_eq_getElem (hrange _ hi))] at ho
  cases ho
  rfl

end

end Memory

namespace Survey

variable {mem : Memory} {roots : List Root} {s : Survey}

/-- A survey that has met every object at its own index. -/
structure Settled (mem : Memory) (roots : List Root) (s : Survey) : Prop where
  complete : Complete mem roots s
  order : ∀ k, s.order[k]? = if k < mem.objects.size then some k else none

namespace Settled

variable (h : Settled mem roots s)

include h

theorem size_order : s.order.size = mem.objects.size := by
  apply size_eq_of_isSome_eq
  intro k
  rw [h.order k]
  by_cases hk : k < mem.objects.size <;> simp [hk]

theorem reaches {k : Nat} (hk : k < mem.objects.size) : mem.Reaches roots (.value (.pointer k)) :=
  (h.complete.order k).mp (Array.mem_iff_getElem?.mpr ⟨k, by rw [h.order, if_pos hk]⟩)

theorem relocate_eq {v : Value} (hv : mem.Reaches roots (.value v)) : s.relocate v = v := by
  rw [relocate_eq_rename]
  cases v with
  | pointer k =>
    have hk := h.complete.charts.lt_size ((h.complete.order k).mpr hv)
    rw [Value.rename_pointer, h.complete.charts.place_eq (by rw [h.order, if_pos hk])]
  | _ => rfl

/-- Each object is laid out where it stood, with the edges it had. -/
theorem getElem?_survivors (k : Nat) :
    s.survivors[k]? = mem.objects[k]?.map HeapObject.survivor := by
  cases ho : mem.objects[k]? with
  | none =>
    have hk := Array.getElem?_eq_none_iff.mp ho
    rw [← h.size_order] at hk
    simp [survivors, hk]
  | some o =>
    have hlt := (Array.getElem?_eq_some_iff.mp ho).1
    have hreach := h.reaches hlt
    have hplace : s.place k = k := h.complete.charts.place_eq (by rw [h.order, if_pos hlt])
    have hedges : o.survivor.mapEdges s.relocate = o.survivor.mapEdges id := by
      apply HeapObject.mapEdges_congr
      intro v hv
      apply h.relocate_eq
      apply Memory.Reaches.step hreach
      rw [Memory.mem_next_pointer ho]
      exact (o.value_mem_roots v).mpr hv
    have hsurvivor := h.complete.survivors_place hreach ho
    rwa [hplace, hedges, HeapObject.mapEdges_id] at hsurvivor

/-- Whatever capacity is chosen, the memory laid out is the old one, its objects older. -/
theorem leftInPlace (hmoved : ∀ (k : Nat) (o : HeapObject), mem.objects[k]? = some o →
    o.survivor = o.aged) (capacity : Nat) (events : List Event)
    (hcapacity : capacity = mem.capacity ∨ capacity = mem.capacity * mem.settings.growthFactor) :
    mem.LeftInPlace roots
      ⟨⟨mem.settings, capacity, s.survivors, mem.collections + 1, s.relocatedContexts⟩, s,
        events⟩ := by
  have hcopy := h.complete.graphCopy capacity events
  constructor
  case objects =>
    apply Array.ext_getElem?
    intro k
    rw [h.getElem?_survivors, Array.getElem?_map]
    cases ho : mem.objects[k]? with
    | none => rfl
    | some o => simp [hmoved k o ho]
  case held =>
    rw [List.map_congr_left (g := id), List.map_id]
    intro r hr
    cases r with
    | value v => simp [Root.map, h.relocate_eq (.root hr)]
    | context id => rfl
  case values => exact fun v hv => h.relocate_eq hv
  case contexts =>
    intro id x hid hx
    have hlt := (Array.getElem?_eq_some_iff.mp hx).1
    have htraced := (h.complete.traced id).mpr ⟨hid, hlt⟩
    have hedges : x.mapEdges s.relocate = x.mapEdges (fun v => v) := by
      apply Context.mapEdges_congr
      intro v hv
      apply h.relocate_eq
      apply Memory.Reaches.step hid
      rw [Memory.mem_next_context hx]
      exact (x.value_mem_roots v).mpr hv
    rw [h.complete.getElem?_relocatedContexts, if_pos htraced, hx, Option.map_some, hedges,
      show x.mapEdges (fun v => v) = x from x.mapEdges_id, h.complete.charts.epoch]
  case unreached => exact hcopy.unreached
  case contextCount => exact hcopy.contextCount
  case settings => rfl
  case collections => rfl
  case capacity => exact hcapacity

end Settled

/-- The survey after a collection meets every object at its index. -/
theorem exists_settled {c : Collection}
    (hs : (start (mem.collections + 1) mem).complete roots = .ok s)
    (hcopy : mem.GraphCopy roots s.place c) (hrange : ∀ r, mem.Reaches roots r → mem.InRange r)
    (hfresh : mem.UnmarkedFrom roots) :
    ∃ s', (start (c.memory.collections + 1) c.memory).complete
        (roots.map (Root.map s.relocate)) = .ok s' ∧
      Settled c.memory (roots.map (Root.map s.relocate)) s' := by
  have hspec := complete_spec hfresh
  have hspec' := complete_spec (hcopy.unmarkedFrom hrange)
  have hinStep := complete_inStep (hcopy.foundIn hrange) hfresh (hcopy.unmarkedFrom hrange)
  rw [hs] at hspec hinStep
  rw [relocate_eq_rename]
  generalize complete _ (roots.map _) = result at hspec' hinStep
  cases hinStep with
  | @ok _ s' hstep =>
    refine ⟨s', rfl, hspec', fun k => ?_⟩
    have hsize : c.memory.objects.size = s.order.size := by
      have himage := hcopy.bijection.image_eq.symm.trans hspec.bijOn_place.image_eq
      have hlt : ∀ k, k < c.memory.objects.size ↔ k < s.order.size := Set.ext_iff.mp himage
      have hleft := hlt c.memory.objects.size
      have hright := hlt s.order.size
      omega
    rw [hstep.order, Array.getElem?_map, hsize]
    by_cases hk : k < s.order.size
    · have hget := Array.getElem?_eq_getElem hk
      rw [if_pos hk, hget, Option.map_some, hspec.charts.place_eq hget]
    · rw [if_neg hk, Array.getElem?_eq_none (not_lt.mp hk), Option.map_none]

end Survey

namespace Memory

variable {mem : Memory} {roots : List Root}

theorem collect_again {c : Collection}
    (hs : (Survey.start (mem.collections + 1) mem).complete roots = .ok c.survey)
    (hcopy : mem.GraphCopy roots c.survey.place c)
    (hrange : ∀ r, mem.Reaches roots r → mem.InRange r) (hfresh : mem.UnmarkedFrom roots) :
    (c.memory.collect (roots.map (Root.map c.survey.relocate)) = .error .multiplicationOverflow ∧
        c.memory.CapacityOverflow) ∨
      ∃ d, c.memory.collect (roots.map (Root.map c.survey.relocate)) = .ok d ∧
        c.memory.LeftInPlace (roots.map (Root.map c.survey.relocate)) d := by
  obtain ⟨s, hs', hsettled⟩ := Survey.exists_settled hs hcopy hrange hfresh
  have hmoved := fun (k : Nat) (o : HeapObject) => hcopy.survivor_eq hrange (k := k) (o := o)
  rw [collect_of_complete hs']
  split_ifs with hgrow hlimit
  · exact .inl ⟨rfl, hlimit⟩
  · exact .inr ⟨_, rfl, hsettled.leftInPlace hmoved _ _ (.inr rfl)⟩
  · exact .inr ⟨_, rfl, hsettled.leftInPlace hmoved _ _ (.inl rfl)⟩

end Memory

end ObjectMachine

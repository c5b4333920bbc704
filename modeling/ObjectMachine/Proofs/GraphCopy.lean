import ObjectMachine.Proofs.Survey
import Mathlib.Data.Set.Function

/-!
# A collection copies the reached graph

The new place of an object is a renaming of indices. On what the roots reach it
is a bijection onto the new memory, and the copied objects, the contexts and the
values held elsewhere are the old ones with their references renamed.
-/

namespace ObjectMachine

namespace Survey

def place (s : Survey) (i : Nat) : Nat := ((s.space[i]?).bind fun o => o.header.forward).getD i

theorem relocate_eq_rename (s : Survey) : s.relocate = Value.rename s.place := by
  funext v
  cases v <;> rfl

variable {mem : Memory} {roots : List Root} {s : Survey}

theorem Charts.place_eq {P : Root → Prop} (h : Charts mem P s) {i k : Nat}
    (hk : s.order[k]? = some i) : s.place i = k := by
  rw [place, (h.forward i k).mpr hk, Option.getD_some]

namespace Complete

variable (h : Complete mem roots s)

include h

theorem order_place {i : Nat} (hi : mem.Reaches roots (.value (.pointer i))) :
    s.order[s.place i]? = some i := by
  obtain ⟨k, hk⟩ := Array.mem_iff_getElem?.mp ((h.order i).mpr hi)
  rw [h.charts.place_eq hk]
  exact hk

theorem bijOn_place :
    Set.BijOn s.place {i | mem.Reaches roots (.value (.pointer i))} (Set.Iio s.order.size) := by
  refine ⟨?_, ?_, ?_⟩
  · intro i hi
    exact (Array.getElem?_eq_some_iff.mp (h.order_place hi)).1
  · intro i hi j hj heq
    have hij := h.order_place hi
    rw [heq, h.order_place hj] at hij
    exact (Option.some.inj hij).symm
  · intro k hk
    have hk' : s.order[k]? = some s.order[k] := Array.getElem?_eq_getElem hk
    have hmem : s.order[k] ∈ s.order := Array.mem_iff_getElem?.mpr ⟨k, hk'⟩
    exact ⟨s.order[k], (h.order _).mp hmem, h.charts.place_eq hk'⟩

theorem survivors_place {i : Nat} {o : HeapObject} (hi : mem.Reaches roots (.value (.pointer i)))
    (ho : mem.objects[i]? = some o) :
    s.survivors[s.place i]? = some (o.survivor.mapEdges s.relocate) := by
  have hspace := h.charts.space i
  rw [ho] at hspace
  obtain ⟨o', ho', hsame⟩ := Option.map_eq_some_iff.mp hspace
  simp [survivors, h.order_place hi, ho', hsame]

end Complete

/-- Changing each place of a list of distinct ones changes exactly those. -/
theorem getElem?_foldl_modify {α : Type} (g : α → α) (places : List Nat) (hd : places.Nodup)
    (xs : Array α) (j : Nat) :
    (places.foldl (fun xs i => xs.modify i g) xs)[j]? =
      if j ∈ places then xs[j]?.map g else xs[j]? := by
  induction places generalizing xs with
  | nil => simp
  | cons i rest ih =>
    obtain ⟨hi, hrest⟩ := List.nodup_cons.mp hd
    rw [List.foldl_cons, ih hrest, Array.getElem?_modify]
    by_cases hij : i = j
    · subst hij
      simp [hi]
    · simp [hij, Ne.symm hij]

theorem Complete.getElem?_relocatedContexts (h : Complete mem roots s) (id : ContextId) :
    s.relocatedContexts[id]? =
      if id ∈ s.traced then
        (mem.contexts[id]?).map fun c => { c.mapEdges s.relocate with epoch := s.epoch }
      else mem.contexts[id]? := by
  rw [relocatedContexts, ← Array.foldl_toList, getElem?_foldl_modify _ _ h.charts.distinct,
    h.charts.contexts id]
  by_cases hid : id ∈ s.traced
  · simp only [Array.mem_toList_iff, hid, if_true, Option.map_map]
    rfl
  · simp [hid]

end Survey

namespace Memory

/-- What a collection of `mem` from `roots` must leave for it to be a copy of the
reached graph under the renaming `f`: places are a bijection, values held
outside follow it, every reached object keeps its shape and all that is not an
edge, every reached context keeps its links and its place in the code, and
contexts out of reach are left alone. -/
structure GraphCopy (mem : Memory) (roots : List Root) (f : Nat → Nat) (c : Collection) : Prop where
  bijection : Set.BijOn f {i | mem.Reaches roots (.value (.pointer i))}
    (Set.Iio c.memory.objects.size)
  values : ∀ v : Value, mem.Reaches roots (.value v) → c.survey.relocate v = v.rename f
  objects : ∀ (i : Nat) (o : HeapObject), mem.Reaches roots (.value (.pointer i)) →
    mem.objects[i]? = some o →
    c.memory.objects[f i]? = some
      { header :=
          { classRef := o.header.classRef.rename f
            moved := true
            age := if o.header.age = 255 then 255 else o.header.age + 1
            forward := none }
        body := o.body.map (Value.rename f) }
  contexts : ∀ (id : ContextId) (x : Context), mem.Reaches roots (.context id) →
    mem.contexts[id]? = some x →
    c.memory.contexts[id]? = some
      { x with
        method := x.method.rename f
        receiver := x.receiver.rename f
        args := x.args.map (Value.rename f)
        temporaries := x.temporaries.map (Value.rename f)
        stack := x.stack.map (Value.rename f)
        epoch := mem.collections + 1 }
  unreached : ∀ id : ContextId, ¬mem.Reaches roots (.context id) →
    c.memory.contexts[id]? = mem.contexts[id]?
  contextCount : c.memory.contexts.size = mem.contexts.size
  settings : c.memory.settings = mem.settings
  collections : c.memory.collections = mem.collections + 1

/-- No context is ahead of the collections that have been made. -/
def EpochsPast (mem : Memory) : Prop :=
  ∀ (id : ContextId) (c : Context), mem.contexts[id]? = some c → c.epoch ≤ mem.collections

theorem EpochsPast.unmarked {mem : Memory} (h : mem.EpochsPast) : mem.Unmarked := by
  intro id c hc heq
  have := h id c hc
  omega

theorem GraphCopy.epochsPast {mem : Memory} {roots : List Root} {f : Nat → Nat} {c : Collection}
    (h : mem.GraphCopy roots f c) (hold : mem.EpochsPast) : c.memory.EpochsPast := by
  intro id x' hx'
  rw [h.collections]
  by_cases hreach : mem.Reaches roots (.context id)
  · cases hx : mem.contexts[id]? with
    | none =>
      have hlt := (Array.getElem?_eq_some_iff.mp hx').1
      rw [h.contextCount] at hlt
      exact absurd hlt (Nat.not_lt.mpr (Array.getElem?_eq_none_iff.mp hx))
    | some x =>
      rw [h.contexts id x hreach hx] at hx'
      obtain rfl := Option.some.inj hx'
      exact le_refl _
  · rw [h.unreached id hreach] at hx'
    exact Nat.le_succ_of_le (hold id x' hx')

def CapacityOverflow (mem : Memory) : Prop :=
  capacityLimit ≤ mem.capacity * mem.settings.growthFactor

end Memory

namespace Survey.Complete

variable {mem : Memory} {roots : List Root} {s : Survey}

/-- Whatever capacity is chosen, the memory laid out from a complete survey is a
copy of the reached graph. -/
theorem graphCopy (h : Complete mem roots s) (capacity : Nat) (events : List Event) :
    mem.GraphCopy roots s.place
      ⟨⟨mem.settings, capacity, s.survivors, mem.collections + 1, s.relocatedContexts⟩, s,
        events⟩ where
  bijection := by simpa [survivors] using h.bijOn_place
  values v _ := by rw [relocate_eq_rename]
  objects i o hi ho := by
    rw [h.survivors_place hi ho, HeapObject.mapEdges_eq, relocate_eq_rename]
    rfl
  contexts id x hid hx := by
    have hlt := (Array.getElem?_eq_some_iff.mp hx).1
    have htraced := (h.traced id).mpr ⟨hid, hlt⟩
    rw [h.getElem?_relocatedContexts id, if_pos htraced, hx, relocate_eq_rename, h.charts.epoch]
    simp [Context.mapEdges_eq]
  unreached id hid := by
    have htraced : id ∉ s.traced := fun hmem => hid ((h.traced id).mp hmem).1
    rw [h.getElem?_relocatedContexts id, if_neg htraced]
  contextCount := by
    apply size_eq_of_isSome_eq
    intro id
    rw [h.getElem?_relocatedContexts id]
    by_cases hid : id ∈ s.traced <;> simp [hid]
  settings := rfl
  collections := rfl

end Survey.Complete

/-- The faults of a collection: a dangling reference, or a capacity that does not fit. -/
inductive CollectionFault : Fault → Prop
  | dangling (v : Value) : CollectionFault (.danglingReference v)
  | overflow : CollectionFault .multiplicationOverflow

namespace Memory

variable {mem : Memory} {roots : List Root}

/-- A collection whose survey meets a fault ends with it. -/
theorem collect_of_fault {f : Fault}
    (hs : (Survey.start (mem.collections + 1) mem).complete roots = .error f) :
    mem.collect roots = .error f := by
  simp only [collect, hs]
  rfl

/-- A collection whose survey is complete leaves what that lays out, if there is room
for it. -/
theorem collect_of_complete {s : Survey}
    (hs : (Survey.start (mem.collections + 1) mem).complete roots = .ok s) :
    mem.collect roots =
      if mem.shouldGrow s.order.size then
        if capacityLimit ≤ mem.capacity * mem.settings.growthFactor then
          .error .multiplicationOverflow
        else .ok ⟨⟨mem.settings, mem.capacity * mem.settings.growthFactor, s.survivors,
          mem.collections + 1, s.relocatedContexts⟩, s,
          [.growing mem.capacity (mem.capacity * mem.settings.growthFactor),
            .collected (mem.collections + 1) mem.objects.size s.order.size
              (mem.capacity * mem.settings.growthFactor)]⟩
      else .ok ⟨⟨mem.settings, mem.capacity, s.survivors, mem.collections + 1,
        s.relocatedContexts⟩, s,
        [.collected (mem.collections + 1) mem.objects.size s.order.size mem.capacity]⟩ := by
  simp only [collect, hs]
  rfl

theorem collectionFault_of_collect {mem : Memory} {roots : List Root} {f : Fault}
    (h : mem.collect roots = .error f) : CollectionFault f := by
  have hsurvey := Survey.complete_goesOn mem roots
  cases hs : (Survey.start (mem.collections + 1) mem).complete roots with
  | error f' =>
    rw [collect_of_fault hs] at h
    cases h
    rw [hs] at hsurvey
    obtain ⟨i, -, -, rfl⟩ := hsurvey
    exact .dangling _
  | ok s =>
    rw [collect_of_complete hs] at h
    split_ifs at h
    cases h
    exact .overflow

/-- What a collection does when nothing reached dangles: it ends with a copy of
the reached graph unless its capacity would overflow. -/
theorem collect_spec (hrange : ∀ r, mem.Reaches roots r → mem.InRange r)
    (hfresh : mem.Unmarked) :
    (mem.collect roots = .error .multiplicationOverflow ∧ mem.CapacityOverflow) ∨
      ∃ f c, mem.collect roots = .ok c ∧ mem.GraphCopy roots f c := by
  have hspec := Survey.complete_spec (hfresh.unmarkedFrom roots)
  cases hs : (Survey.start (mem.collections + 1) mem).complete roots with
  | error fault =>
    rw [hs] at hspec
    obtain ⟨i, hi, hsize, -⟩ := hspec
    exact absurd (hrange _ hi) (Nat.not_lt.mpr hsize)
  | ok s =>
    rw [hs] at hspec
    rw [collect_of_complete hs]
    split_ifs with hgrow hlimit
    · exact .inl ⟨rfl, hlimit⟩
    · exact .inr ⟨s.place, _, rfl, hspec.graphCopy _ _⟩
    · exact .inr ⟨s.place, _, rfl, hspec.graphCopy _ _⟩

/-- What an object that is about to be allocated adds to the roots. -/
def pendingRoots : Option HeapObject → List Root
  | none => []
  | some o => o.roots

/-- A collection, forced or before an allocation, preserves the reached graph
exactly, up to a renaming of indices. The roots come in any order, and so do the
entries of the dictionaries on the way. A pending object is kept too, its edges
renamed with the rest. -/
theorem collection_copies_reached_graph (mem : Memory) (roots : List Root)
    (pending : Option HeapObject)
    (hrange : ∀ r, mem.Reaches (roots ++ pendingRoots pending) r → mem.InRange r)
    (hfresh : mem.Unmarked) :
    (mem.collect (roots ++ pendingRoots pending) = .error .multiplicationOverflow ∧
        mem.CapacityOverflow) ∨
      ∃ f c, mem.collect (roots ++ pendingRoots pending) = .ok c ∧
        mem.GraphCopy (roots ++ pendingRoots pending) f c ∧
        ∀ o, pending = some o → mem.shouldCollect = true →
          mem.allocate roots o = .ok
            { value := .pointer c.memory.objects.size
              memory := c.memory.append
                { header := { o.header with classRef := o.header.classRef.rename f }
                  body := o.body.map (Value.rename f) }
              collection := some c } := by
  rcases collect_spec hrange hfresh with hover | ⟨f, c, hc, hcopy⟩
  · exact .inl hover
  · refine .inr ⟨f, c, hc, hcopy, ?_⟩
    rintro o rfl hfull
    have hedges : o.mapEdges c.survey.relocate =
        { header := { o.header with classRef := o.header.classRef.rename f }
          body := o.body.map (Value.rename f) } := by
      rw [← HeapObject.mapEdges_eq]
      apply HeapObject.mapEdges_congr
      intro v hv
      apply hcopy.values
      exact .root (List.mem_append_right _ ((o.value_mem_roots v).mpr hv))
    rw [← hedges]
    simp only [allocate, hfull, if_true]
    change (mem.collect (roots ++ o.roots) >>= _) = _
    rw [show mem.collect (roots ++ o.roots) = .ok c from hc]
    rfl

instance (mem : Memory) : DecidablePred mem.InRange
  | .value (.pointer i) => inferInstanceAs (Decidable (i < mem.objects.size))
  | .value (.integer _) | .value (.float _) | .value .nil | .value (.bool _)
  | .value (.reserved _) | .context _ => isTrue trivial

/-- Nothing reached dangles when no root, object or context holds a dangling
reference. -/
theorem inRange_of_forall (hroots : ∀ r ∈ roots, mem.InRange r)
    (hobjects : ∀ o ∈ mem.objects, ∀ r ∈ o.roots, mem.InRange r)
    (hcontexts : ∀ c ∈ mem.contexts, ∀ r ∈ c.roots, mem.InRange r) :
    ∀ r, mem.Reaches roots r → mem.InRange r := by
  intro r hr
  induction hr with
  | root hr => exact hroots _ hr
  | @step r r' _ hnext _ =>
    cases r with
    | value v =>
      cases v with
      | pointer i =>
        cases ho : mem.objects[i]? with
        | none => simp [next, ho] at hnext
        | some o =>
          rw [mem_next_pointer ho] at hnext
          exact hobjects o (Array.mem_iff_getElem?.mpr ⟨i, ho⟩) _ hnext
      | _ => exact absurd hnext List.not_mem_nil
    | context id =>
      cases hc : mem.contexts[id]? with
      | none => simp [next, hc] at hnext
      | some c =>
        rw [mem_next_context hc] at hnext
        exact hcontexts c (Array.mem_iff_getElem?.mpr ⟨id, hc⟩) _ hnext

/-- A full memory: a string that nothing refers to, then an array and a block
that lead to each other through the block's context. -/
def ring : Memory where
  settings := .standard
  capacity := 3
  objects := #[.new .nil (.string "lost"), .new .nil (.array #[.pointer 2, .bool true]),
    .new .nil (.block ⟨[], #[], 0, some 0⟩)]
  collections := 4
  contexts := #[.new (.pointer 2) (.pointer 1) #[] 1 none none]

theorem ring_collection_copies_reached_graph :
    ring.shouldCollect = true ∧
      ∃ f c, ring.collect [.context 0, .value (.pointer 1)] = .ok c ∧
        ring.GraphCopy [.context 0, .value (.pointer 1)] f c ∧
        ring.allocate [.context 0] (.new (.pointer 1) (.symbol "s")) = .ok
          { value := .pointer c.memory.objects.size
            memory := c.memory.append
              { header := ⟨(Value.pointer 1).rename f, false, 0, none⟩, body := .symbol "s" }
            collection := some c } := by
  have hfull : ring.shouldCollect = true := by decide +kernel
  have hrange : ∀ r, ring.Reaches [.context 0, .value (.pointer 1)] r → ring.InRange r :=
    inRange_of_forall (by decide) (by decide) (by decide)
  have hfresh : ring.Unmarked := by
    intro id c hc
    match id, hc with
    | 0, hc =>
      obtain rfl := Option.some.inj hc
      decide
  rcases collection_copies_reached_graph ring [.context 0]
    (some (.new (.pointer 1) (.symbol "s"))) hrange hfresh with ⟨-, hover⟩ | ⟨f, c, hc, hcopy, ha⟩
  · exact absurd hover (by unfold CapacityOverflow; decide)
  · exact ⟨hfull, f, c, hc, hcopy, ha _ rfl hfull⟩

end Memory

end ObjectMachine

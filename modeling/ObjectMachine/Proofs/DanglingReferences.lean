import ObjectMachine.Proofs.LockStep

/-!
# Dangling references

A collection always ends. It stops at a dangling reference exactly when the roots
reach one; otherwise it follows each object and each context that they reach once.
What is out of reach plays no part, dangling references included.
-/

namespace ObjectMachine

namespace Memory

/-- `mem'` differs from `mem` only in what the roots do not reach. -/
structure AgreesOn (mem : Memory) (roots : List Root) (mem' : Memory) : Prop where
  settings : mem'.settings = mem.settings
  capacity : mem'.capacity = mem.capacity
  collections : mem'.collections = mem.collections
  objectCount : mem'.objects.size = mem.objects.size
  objects : ∀ i : Nat, mem.Reaches roots (.value (.pointer i)) → mem'.objects[i]? = mem.objects[i]?
  contexts : ∀ id : ContextId, mem.Reaches roots (.context id) →
    mem'.contexts[id]? = mem.contexts[id]?

/-- Two collections stop at the same fault, or they leave the same objects and report the
same, and what the roots reach, values and contexts, comes out of them alike. -/
inductive EndsAlike (mem : Memory) (roots : List Root) :
    Except Fault Collection → Except Fault Collection → Prop
  | fault (f : Fault) : EndsAlike mem roots (.error f) (.error f)
  | ok {c c' : Collection} : c'.memory.objects = c.memory.objects →
      c'.memory.capacity = c.memory.capacity → c'.events = c.events →
      (∀ v, mem.Reaches roots (.value v) → c'.survey.relocate v = c.survey.relocate v) →
      (∀ id : ContextId, mem.Reaches roots (.context id) →
        c'.memory.contexts[id]? = c.memory.contexts[id]?) →
      EndsAlike mem roots (.ok c) (.ok c')

variable {mem mem' : Memory} {roots : List Root}

/-- The order in which objects are met says where they go. -/
theorem relocate_eq_of_order {s s' : Survey} (hs : Survey.Complete mem roots s)
    (hs' : Survey.Complete mem' roots s') (horder : s'.order = s.order) {v : Value}
    (hv : mem.Reaches roots (.value v)) : s'.relocate v = s.relocate v := by
  rw [Survey.relocate_eq_rename, Survey.relocate_eq_rename]
  cases v with
  | pointer i =>
    have hplace := hs.order_place hv
    rw [← horder] at hplace
    rw [Value.rename_pointer, Value.rename_pointer, hs'.charts.place_eq hplace]
  | _ => rfl

namespace AgreesOn

variable (h : mem.AgreesOn roots mem')

include h

theorem foundIn : mem.FoundIn roots id mem' where
  injective := Set.injOn_id _
  next r hr := by
    rw [Value.rename_id, Root.map_id, List.map_id, id]
    cases r with
    | value v =>
      cases v with
      | pointer i => simp [next, h.objects i hr]
      | _ => rfl
    | context id => simp [next, h.contexts id hr]
  objects i _ := by rw [h.objectCount, id]
  contexts k hk := by
    have hnone := congrArg Option.isNone (h.contexts k hk)
    rw [Bool.eq_iff_iff, Option.isNone_iff_eq_none, Option.isNone_iff_eq_none,
      Array.getElem?_eq_none_iff, Array.getElem?_eq_none_iff] at hnone
    rw [← not_le, ← not_le, hnone]

theorem reaches_iff {r : Root} : mem'.Reaches roots r ↔ mem.Reaches roots r := by
  have hroots : roots.map (Root.map (Value.rename id)) = roots := by
    rw [Value.rename_id, Root.map_id, List.map_id]
  constructor
  · intro hr
    rw [← hroots] at hr
    obtain ⟨r, hr, rfl⟩ := h.foundIn.exists_of_reaches hr
    rwa [Value.rename_id, Root.map_id]
  · intro hr
    have hfound := h.foundIn.reaches hr
    rwa [hroots, Value.rename_id, Root.map_id] at hfound

theorem unmarkedFrom (hfresh : mem.UnmarkedFrom roots) : mem'.UnmarkedFrom roots := by
  intro id c hid hc
  have hreach := h.reaches_iff.mp hid
  rw [h.contexts id hreach] at hc
  rw [h.collections]
  exact hfresh id c hreach hc

theorem shouldGrow_eq (live : Nat) : mem'.shouldGrow live = mem.shouldGrow live := by
  simp only [shouldGrow, h.settings, h.capacity]

/-- The two surveys meet the same objects in the same order, or stop alike. -/
theorem complete (hfresh : mem.UnmarkedFrom roots) :
    Survey.EndsInStep mem roots id mem' ((Survey.start (mem.collections + 1) mem).complete roots)
      ((Survey.start (mem'.collections + 1) mem').complete roots) := by
  have hroots : roots.map (Root.map (Value.rename id)) = roots := by
    rw [Value.rename_id, Root.map_id, List.map_id]
  have hfresh' := h.unmarkedFrom hfresh
  rw [← hroots] at hfresh'
  have hends := Survey.complete_inStep h.foundIn hfresh hfresh'
  rwa [hroots] at hends

variable {s s' : Survey} (hs : Survey.Complete mem roots s) (hs' : Survey.Complete mem' roots s')
  (horder : s'.order = s.order)

include hs hs' horder

theorem survivors_eq : s'.survivors = s.survivors := by
  apply Array.ext_getElem?
  intro k
  cases hk : s.order[k]? with
  | none =>
    have hk' : s'.order[k]? = none := by rw [horder, hk]
    simp only [Survey.survivors, Array.getElem?_map, hk, hk']
    rfl
  | some i =>
    have hk' : s'.order[k]? = some i := by rw [horder, hk]
    have hmem := Array.mem_iff_getElem?.mpr ⟨k, hk⟩
    have hi := (hs.order i).mp hmem
    have ho := Array.getElem?_eq_getElem (hs.charts.lt_size hmem)
    have ho' := (h.objects i hi).trans ho
    have hcopy := hs.survivors_place hi ho
    have hcopy' := hs'.survivors_place (h.reaches_iff.mpr hi) ho'
    rw [hs.charts.place_eq hk] at hcopy
    rw [hs'.charts.place_eq hk'] at hcopy'
    rw [hcopy, hcopy']
    congr 1
    apply HeapObject.mapEdges_congr
    intro v hv
    apply relocate_eq_of_order hs hs' horder
    apply Reaches.step hi
    rw [mem_next_pointer ho]
    exact (HeapObject.value_mem_roots _ v).mpr hv

theorem relocatedContexts_eq {id : ContextId} (hid : mem.Reaches roots (.context id)) :
    s'.relocatedContexts[id]? = s.relocatedContexts[id]? := by
  have hcontext := h.contexts id hid
  cases hx : mem.contexts[id]? with
  | none =>
    rw [hs.getElem?_relocatedContexts, hs'.getElem?_relocatedContexts, hcontext, hx]
    simp
  | some x =>
    rw [hx] at hcontext
    have htraced := (hs.traced id).mpr ⟨hid, (Array.getElem?_eq_some_iff.mp hx).1⟩
    have htraced' := (hs'.traced id).mpr
      ⟨h.reaches_iff.mpr hid, (Array.getElem?_eq_some_iff.mp hcontext).1⟩
    have hedges : x.mapEdges s'.relocate = x.mapEdges s.relocate := by
      apply Context.mapEdges_congr
      intro v hv
      apply relocate_eq_of_order hs hs' horder
      apply Reaches.step hid
      rw [mem_next_context hx]
      exact (x.value_mem_roots v).mpr hv
    rw [hs.getElem?_relocatedContexts, hs'.getElem?_relocatedContexts, if_pos htraced,
      if_pos htraced', hcontext, hx, Option.map_some, Option.map_some, hedges, hs.charts.epoch,
      hs'.charts.epoch, h.collections]

end AgreesOn

/-- A collection does not look at what is out of reach. -/
theorem AgreesOn.endsAlike (h : mem.AgreesOn roots mem') (hfresh : mem.UnmarkedFrom roots) :
    EndsAlike mem roots (mem.collect roots) (mem'.collect roots) := by
  have hspec := Survey.complete_spec hfresh
  have hspec' := Survey.complete_spec (h.unmarkedFrom hfresh)
  have hends := h.complete hfresh
  generalize hs : (Survey.start (mem.collections + 1) mem).complete roots = result,
    hs' : (Survey.start (mem'.collections + 1) mem').complete roots = result' at *
  cases hends with
  | dangling i =>
    rw [collect_of_fault hs, collect_of_fault hs']
    exact .fault _
  | @ok s s' hstep =>
    have horder : s'.order = s.order := by rw [hstep.order, Array.map_id]
    have hsurvivors := h.survivors_eq hspec hspec' horder
    rw [collect_of_complete hs, collect_of_complete hs', h.shouldGrow_eq, h.settings, h.capacity,
      h.collections, h.objectCount, horder]
    split_ifs
    · exact .fault _
    · exact .ok hsurvivors rfl rfl (fun v hv => relocate_eq_of_order hspec hspec' horder hv)
        fun id hid => h.relocatedContexts_eq hspec hspec' horder hid
    · exact .ok hsurvivors rfl rfl (fun v hv => relocate_eq_of_order hspec hspec' horder hv)
        fun id hid => h.relocatedContexts_eq hspec hspec' horder hid

def ReachesDangling (mem : Memory) (roots : List Root) : Prop :=
  ∃ i : Nat, mem.Reaches roots (.value (.pointer i)) ∧ mem.objects.size ≤ i

/-- A survey meets the dangling references that there are. -/
theorem complete_faults_iff (hfresh : mem.UnmarkedFrom roots) :
    (∃ f, (Survey.start (mem.collections + 1) mem).complete roots = .error f) ↔
      mem.ReachesDangling roots := by
  have hspec := Survey.complete_spec hfresh
  constructor
  · rintro ⟨f, hf⟩
    rw [hf] at hspec
    obtain ⟨i, hi, hsize, -⟩ := hspec
    exact ⟨i, hi, hsize⟩
  · rintro ⟨i, hi, hsize⟩
    cases hs : (Survey.start (mem.collections + 1) mem).complete roots with
    | error f => exact ⟨f, rfl⟩
    | ok s =>
      rw [hs] at hspec
      have hlt := hspec.charts.lt_size ((hspec.order i).mpr hi)
      omega

theorem collect_dangles_iff (hfresh : mem.UnmarkedFrom roots) :
    (∃ v, mem.collect roots = .error (.danglingReference v)) ↔ mem.ReachesDangling roots := by
  rw [← complete_faults_iff hfresh]
  have hspec := Survey.complete_spec hfresh
  cases hs : (Survey.start (mem.collections + 1) mem).complete roots with
  | error f =>
    rw [hs] at hspec
    obtain ⟨i, -, -, rfl⟩ := hspec
    rw [collect_of_fault hs]
    simp
  | ok s =>
    rw [collect_of_complete hs]
    split_ifs <;> simp

theorem allocate_dangles_iff {o : HeapObject} (hfull : mem.shouldCollect = true)
    (hfresh : mem.UnmarkedFrom (roots ++ o.roots)) :
    (∃ v, mem.allocate roots o = .error (.danglingReference v)) ↔
      mem.ReachesDangling (roots ++ o.roots) := by
  rw [← collect_dangles_iff hfresh, allocate, if_pos hfull]
  cases mem.collect (roots ++ o.roots) <;> simp [bind, Except.bind, pure, Except.pure]

/-- The loop of a scan from `s` on ends as the bounded scan does. If it ends well, it has
given each object reached one place and has followed each object and each context reached
exactly once. -/
def ScansOnce (mem : Memory) (roots : List Root) (s : Survey) : Prop :=
  ∃ log, s.Scans 0 log (s.scan s.scanBound 0) ∧
    ∀ t, s.scan s.scanBound 0 = .ok t →
      t.order.toList.Nodup ∧ (∀ i, i ∈ t.order ↔ mem.Reaches roots (.value (.pointer i))) ∧
        log.Nodup ∧ ∀ r, r ∈ log ↔ mem.Reaches roots r ∧ mem.Holds r

theorem scansOnce_of_visitAll (hfresh : mem.UnmarkedFrom roots) {s : Survey}
    (hs : (Survey.start (mem.collections + 1) mem).visitAll roots = .ok s) :
    mem.ScansOnce roots s := by
  obtain ⟨hcharts, hfollowed, htraced, hbound⟩ := Survey.followed_of_visitAll hs
  obtain ⟨log, hscans⟩ := Survey.scan_scans hfresh s.scanBound 0 s hcharts hfollowed hbound
  have hspec := Survey.scan_spec hfresh s.scanBound 0 s hcharts hfollowed hbound
  refine ⟨log, hscans, fun t ht => ?_⟩
  rw [ht] at hscans hspec
  exact ⟨hspec.charts.nodup_order, hspec.order, hscans.exactly_once htraced hspec⟩

/-- A collection ends, whatever cycles and garbage there are, and stops at a dangling
reference exactly when the roots or the pending object reach one. A scan that does not stop
follows everything they reach exactly once. A memory that differs only out of their reach
is collected alike. -/
theorem collections_stop_only_at_reached_danglers (mem : Memory) (roots : List Root)
    (pending : Option HeapObject)
    (hfresh : mem.UnmarkedFrom (roots ++ pendingRoots pending)) :
    (∀ s, (Survey.start (mem.collections + 1) mem).visitAll (roots ++ pendingRoots pending) =
        .ok s → mem.ScansOnce (roots ++ pendingRoots pending) s) ∧
      ((∃ v, mem.collect (roots ++ pendingRoots pending) = .error (.danglingReference v)) ↔
        mem.ReachesDangling (roots ++ pendingRoots pending)) ∧
      (∀ o, pending = some o → mem.shouldCollect = true →
        ((∃ v, mem.allocate roots o = .error (.danglingReference v)) ↔
          mem.ReachesDangling (roots ++ pendingRoots pending))) ∧
      ∀ mem', mem.AgreesOn (roots ++ pendingRoots pending) mem' →
        EndsAlike mem (roots ++ pendingRoots pending)
          (mem.collect (roots ++ pendingRoots pending))
          (mem'.collect (roots ++ pendingRoots pending)) := by
  refine ⟨?_, ?_, ?_, ?_⟩
  · intro s hs
    exact scansOnce_of_visitAll hfresh hs
  · exact collect_dangles_iff hfresh
  · rintro o rfl hfull
    exact allocate_dangles_iff hfull hfresh
  · intro mem' hagrees
    exact hagrees.endsAlike hfresh

/-- A full memory whose lost array refers to no object. -/
def frayed : Memory where
  settings := .standard
  capacity := 3
  objects := #[.new .nil (.array #[.pointer 9]), .new .nil (.array #[.pointer 2, .bool true]),
    .new .nil (.block ⟨[], #[], 0, some 0⟩)]
  collections := 4
  contexts := #[.new (.pointer 2) (.pointer 1) #[] 1 none none]

/-- The lost array does not stop a collection until a pending object refers to it. -/
theorem lost_array_stops_only_its_holder :
    ¬frayed.ReachesDangling [.context 0] ∧
      ∃ v, frayed.allocate [.context 0] (.new .nil (.array #[.pointer 0])) =
        .error (.danglingReference v) := by
  have hfresh : ∀ roots, frayed.UnmarkedFrom roots := by
    intro roots id c _ hc
    have hall : ∀ c ∈ frayed.contexts, c.epoch ≠ frayed.collections + 1 := by decide
    exact hall c (Array.mem_of_getElem? hc)
  obtain ⟨-, hfree, -, -⟩ :=
    collections_stop_only_at_reached_danglers frayed [.context 0] none (hfresh _)
  obtain ⟨-, -, hheld, -⟩ := collections_stop_only_at_reached_danglers frayed [.context 0]
    (some (.new .nil (.array #[.pointer 0]))) (hfresh _)
  constructor
  · intro hreaches
    obtain ⟨v, hv⟩ := hfree.mpr hreaches
    have hok : (frayed.collect [.context 0]).toBool = true := by decide +kernel
    rw [show frayed.collect [.context 0] = _ from hv] at hok
    cases hok
  · have hfull : frayed.shouldCollect = true := by decide +kernel
    rw [hheld _ rfl hfull]
    refine ⟨9, ?_, by decide⟩
    apply Reaches.step (r := .value (.pointer 0))
    · exact .root (by simp [pendingRoots, HeapObject.roots, HeapObject.edges, HeapObject.new,
        Body.edges, Body.outer?])
    · simp [next, frayed, HeapObject.roots, HeapObject.edges, HeapObject.new, Body.edges,
        Body.outer?]

end Memory

end ObjectMachine

import ObjectMachine.Proofs.Traversal

/-!
# Surveys in step

What the roots reach may stand in a second memory under other places, or beside
other garbage. The surveys of the two memories then take the same turns: they meet
corresponding objects in the same order and trace the same contexts. So the new
places come from the shape of the graph alone.
-/

namespace ObjectMachine

namespace Root

def map (g : Value → Value) : Root → Root
  | value v => value (g v)
  | context id => context id

theorem map_id : map id = id := by
  funext r
  cases r <;> rfl

end Root

theorem HeapObject.roots_mapEdges (o : HeapObject) (g : Value → Value) :
    (o.mapEdges g).roots = o.roots.map (Root.map g) := by
  simp only [roots, edges, mapEdges_body, mapEdges_classRef, Body.edges_map, Body.outer?_map,
    List.map_append, List.map_map, List.map_cons]
  cases o.body.outer? <;> rfl

theorem Context.roots_mapEdges (c : Context) (g : Value → Value) (epoch : Nat) :
    Context.roots { c.mapEdges g with epoch } = c.roots.map (Root.map g) := by
  simp only [mapEdges_eq, roots, edges, List.map_append, List.map_map, List.map_cons,
    Array.toList_map]
  cases c.sender <;> cases c.outer <;> rfl

/-- What `roots` reach in `mem` is found in `mem'`, its objects at the places that `f`
gives them. -/
structure Memory.FoundIn (mem : Memory) (roots : List Root) (f : Nat → Nat) (mem' : Memory) :
    Prop where
  injective : Set.InjOn f {i | mem.Reaches roots (.value (.pointer i))}
  next : ∀ r, mem.Reaches roots r →
    mem'.next (r.map (Value.rename f)) = (mem.next r).map (Root.map (Value.rename f))
  objects : ∀ i, mem.Reaches roots (.value (.pointer i)) →
    (f i < mem'.objects.size ↔ i < mem.objects.size)
  contexts : ∀ id, mem.Reaches roots (.context id) →
    (id < mem'.contexts.size ↔ id < mem.contexts.size)

variable {mem mem' : Memory} {roots : List Root} {f : Nat → Nat}

namespace Memory.FoundIn

variable (h : mem.FoundIn roots f mem')

include h

theorem reaches {r : Root} (hr : mem.Reaches roots r) :
    mem'.Reaches (roots.map (Root.map (Value.rename f))) (r.map (Value.rename f)) := by
  induction hr with
  | root hr => exact .root (List.mem_map_of_mem hr)
  | step hr hnext ih =>
    apply Reaches.step ih
    rw [h.next _ hr]
    exact List.mem_map_of_mem hnext

/-- What is reached where the roots are found comes from what they reach. -/
theorem exists_of_reaches {r' : Root}
    (hr : mem'.Reaches (roots.map (Root.map (Value.rename f))) r') :
    ∃ r, mem.Reaches roots r ∧ r' = r.map (Value.rename f) := by
  induction hr with
  | root hmem =>
    obtain ⟨r, hr, rfl⟩ := List.mem_map.mp hmem
    exact ⟨r, .root hr, rfl⟩
  | step _ hnext ih =>
    obtain ⟨r, hr, rfl⟩ := ih
    rw [h.next r hr] at hnext
    obtain ⟨t, ht, rfl⟩ := List.mem_map.mp hnext
    exact ⟨t, .step hr ht, rfl⟩

end Memory.FoundIn

namespace Survey

/-- Two surveys have met corresponding objects and know of the same contexts. -/
structure InStep (mem : Memory) (roots : List Root) (f : Nat → Nat) (mem' : Memory)
    (s s' : Survey) : Prop where
  charts : Charts mem (mem.Reaches roots) s
  charts' : Charts mem' (mem'.Reaches (roots.map (Root.map (Value.rename f)))) s'
  order : s'.order = s.order.map f
  traced : s'.traced = s.traced
  waiting : s'.waiting = s.waiting

/-- Two surveys go on in step, or stop at corresponding references. -/
inductive EndsInStep (mem : Memory) (roots : List Root) (f : Nat → Nat) (mem' : Memory) :
    Except Fault Survey → Except Fault Survey → Prop
  | ok {s s' : Survey} : InStep mem roots f mem' s s' →
      EndsInStep mem roots f mem' (.ok s) (.ok s')
  | dangling (i : Nat) : EndsInStep mem roots f mem'
      (.error (.danglingReference (.pointer i))) (.error (.danglingReference (.pointer (f i))))

variable {s s' : Survey} (hfound : mem.FoundIn roots f mem')

include hfound

theorem InStep.mem_order_iff (h : InStep mem roots f mem' s s') {i : Nat}
    (hi : mem.Reaches roots (.value (.pointer i))) : f i ∈ s'.order ↔ i ∈ s.order := by
  rw [h.order, Array.mem_map]
  constructor
  · rintro ⟨j, hj, heq⟩
    rwa [← hfound.injective (h.charts.met j hj) hi heq]
  · intro hi
    exact ⟨i, hi, rfl⟩

theorem InStep.meet (h : InStep mem roots f mem' s s') {v : Value}
    (hv : mem.Reaches roots (.value v)) :
    EndsInStep mem roots f mem' (s.meet v) (s'.meet (v.rename f)) := by
  cases v with
  | pointer i =>
    have hmem := h.mem_order_iff hfound hv
    have hrange := hfound.objects i hv
    rw [Value.rename_pointer]
    by_cases hlt : i < mem.objects.size
    · by_cases hi : i ∈ s.order
      · rw [h.charts.meet_of_mem hi, h.charts'.meet_of_mem (hmem.mpr hi)]
        exact .ok h
      · have hi' : f i ∉ s'.order := by rwa [hmem]
        obtain ⟨hmeet, hcharts⟩ := h.charts.meet_of_not_mem hlt hi hv
        obtain ⟨hmeet', hcharts'⟩ :=
          h.charts'.meet_of_not_mem (hrange.mpr hlt) hi' (hfound.reaches hv)
        rw [hmeet, hmeet']
        exact .ok ⟨hcharts, hcharts', by simp [assign, h.order], h.traced, h.waiting⟩
    · have hle' : mem'.objects.size ≤ f i := by rwa [← not_lt, hrange]
      rw [h.charts.meet_of_dangling (not_lt.mp hlt), h.charts'.meet_of_dangling hle']
      exact .dangling i
  | _ => exact .ok h

theorem InStep.visit (h : InStep mem roots f mem' s s') {r : Root} (hr : mem.Reaches roots r) :
    EndsInStep mem roots f mem' (s.visit r) (s'.visit (r.map (Value.rename f))) := by
  cases r with
  | value v => exact h.meet hfound hr
  | context id =>
    have hs := visit_spec h.charts hr
    have hs' := visit_spec h.charts' (hfound.reaches hr)
    exact .ok ⟨hs.1, hs'.1, h.order, h.traced, congrArg (List.cons id) h.waiting⟩

theorem InStep.visitAll (h : InStep mem roots f mem' s s') (rs : List Root)
    (hrs : ∀ r ∈ rs, mem.Reaches roots r) :
    EndsInStep mem roots f mem' (s.visitAll rs)
      (s'.visitAll (rs.map (Root.map (Value.rename f)))) := by
  induction rs generalizing s s' with
  | nil => exact .ok h
  | cons r rest ih =>
    have hfirst := h.visit hfound (hrs r (List.mem_cons_self ..))
    rw [List.map_cons, Survey.visitAll, Survey.visitAll, List.foldlM_cons, List.foldlM_cons]
    generalize s.visit r = t?, s'.visit (r.map (Value.rename f)) = t'? at hfirst
    cases hfirst with
    | ok ht => exact ih ht fun r' hr' => hrs r' (List.mem_cons_of_mem _ hr')
    | dangling i => exact .dangling i

theorem InStep.scanned (h : InStep mem roots f mem' s s') {n i : Nat} (hn : s.order[n]? = some i) :
    s'.order[n]? = some (f i) ∧
      EndsInStep mem roots f mem'
        (s.visitAll ((s.space[i]?.map HeapObject.roots).getD []))
        (s'.visitAll ((s'.space[f i]?.map HeapObject.roots).getD [])) := by
  have hi : mem.Reaches roots (.value (.pointer i)) :=
    h.charts.met i (Array.mem_iff_getElem?.mpr ⟨n, hn⟩)
  have hnext := hfound.next _ hi
  refine ⟨by simp [h.order, hn], ?_⟩
  rw [h.charts.roots_space, h.charts'.roots_space,
    show mem'.next (.value (.pointer (f i))) = _ from hnext]
  exact h.visitAll hfound _ fun r hr => .step hi hr

variable (hfresh : mem.UnmarkedFrom roots)
  (hfresh' : mem'.UnmarkedFrom (roots.map (Root.map (Value.rename f))))

include hfresh hfresh'

theorem InStep.trace (h : InStep mem roots f mem' s s') {id : ContextId} {rest : List ContextId}
    (hw : s.waiting = id :: rest) :
    EndsInStep mem roots f mem' (trace { s with waiting := rest } id)
      (trace { s' with waiting := rest } id) := by
  have hw' : s'.waiting = id :: rest := h.waiting.trans hw
  have hid : mem.Reaches roots (.context id) := h.charts.waiting id (by simp [hw])
  have hrange := hfound.contexts id hid
  by_cases hdone : id ∈ s.traced ∨ mem.contexts.size ≤ id
  · have hdone' : id ∈ s'.traced ∨ mem'.contexts.size ≤ id := by
      rwa [h.traced, ← not_lt, hrange, not_lt]
    rw [h.charts.trace_eq_skip hdone, h.charts'.trace_eq_skip hdone']
    exact .ok ⟨h.charts.skip hw, h.charts'.skip hw', h.order, h.traced, rfl⟩
  · rw [not_or, not_le] at hdone
    obtain ⟨htraced, hlt⟩ := hdone
    have htraced' : id ∉ s'.traced := by rwa [h.traced]
    have hc := Array.getElem?_eq_getElem hlt
    have hc' := Array.getElem?_eq_getElem (hrange.mpr hlt)
    have hnext := hfound.next _ hid
    rw [h.charts.trace_eq_follow hc htraced (hfresh id _ hid hc),
      h.charts'.trace_eq_follow hc' htraced' (hfresh' id _ (hfound.reaches hid) hc'),
      show mem'.next (.context id) = _ from hnext]
    apply visitAll hfound _ _ fun r hr => .step hid hr
    constructor
    · exact h.charts.mark hw hc htraced
    · exact h.charts'.mark hw' hc' htraced'
    · exact h.order
    · simp [follow, h.traced]
    · rfl

/-- The loops of the two scans take the same turns. -/
theorem InStep.scans {n : Nat} {log : List Root} {r : Except Fault Survey}
    (hscans : Scans n s log r) (h : InStep mem roots f mem' s s') :
    ∃ log' r', Scans n s' log' r' ∧ EndsInStep mem roots f mem' r r' := by
  induction hscans generalizing s' with
  | @done n s hn hw =>
    refine ⟨[], .ok s', .done ?_ (h.waiting.trans hw), .ok h⟩
    simp [h.order, hn]
  | @object n i s t log r hn hv _ ih =>
    obtain ⟨hn', hends⟩ := h.scanned hfound hn
    rw [hv] at hends
    generalize hv' : s'.visitAll _ = t'? at hends
    cases hends with
    | ok ht =>
      obtain ⟨log', r', hscans', hr⟩ := ih ht
      exact ⟨_, r', .object hn' hv' hscans', hr⟩
  | @objectStops n i s fault hn hv =>
    obtain ⟨hn', hends⟩ := h.scanned hfound hn
    rw [hv] at hends
    generalize hv' : s'.visitAll _ = t'? at hends
    cases hends with
    | dangling j => exact ⟨_, _, .objectStops hn' hv', .dangling j⟩
  | @context n id rest s t log r hn hw ht _ ih =>
    have hends := h.trace hfound hfresh hfresh' hw
    rw [ht] at hends
    generalize ht' : Survey.trace { s' with waiting := rest } id = t'? at hends
    cases hends with
    | ok hstep =>
      obtain ⟨log', r', hscans', hr⟩ := ih hstep
      exact ⟨_, r', .context (by simp [h.order, hn]) (h.waiting.trans hw) ht' hscans', hr⟩
  | @contextStops n id rest s fault hn hw ht =>
    have hends := h.trace hfound hfresh hfresh' hw
    rw [ht] at hends
    generalize ht' : Survey.trace { s' with waiting := rest } id = t'? at hends
    cases hends with
    | dangling j =>
      exact ⟨_, _, .contextStops (by simp [h.order, hn]) (h.waiting.trans hw) ht', .dangling j⟩

theorem complete_inStep :
    EndsInStep mem roots f mem' ((start (mem.collections + 1) mem).complete roots)
      ((start (mem'.collections + 1) mem').complete (roots.map (Root.map (Value.rename f)))) := by
  have hstart : InStep mem roots f mem' (start (mem.collections + 1) mem)
      (start (mem'.collections + 1) mem') :=
    ⟨charts_start .., charts_start .., by simp [start], rfl, rfl⟩
  have hvisit := hstart.visitAll hfound roots fun r hr => .root hr
  unfold complete
  generalize hv : visitAll _ roots = s?, hv' : visitAll _ (roots.map _) = s'? at hvisit
  cases hvisit with
  | dangling i => exact .dangling i
  | @ok s s' h =>
    obtain ⟨hs, hfollowed, -, hbound⟩ := followed_of_visitAll hv
    obtain ⟨hs', hfollowed', -, hbound'⟩ := followed_of_visitAll hv'
    obtain ⟨log, hscans⟩ := scan_scans hfresh s.scanBound 0 s hs hfollowed hbound
    obtain ⟨log', hscans'⟩ := scan_scans hfresh' s'.scanBound 0 s' hs' hfollowed' hbound'
    obtain ⟨log'', r', hsame, hends⟩ := h.scans hfound hfresh hfresh' hscans
    obtain ⟨-, rfl⟩ := hsame.unique hscans'
    exact hends

end Survey

end ObjectMachine

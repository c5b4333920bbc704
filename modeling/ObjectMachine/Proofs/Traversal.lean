import ObjectMachine.Proofs.GraphCopy

/-!
# The turns of a scan

A scan is a loop that feeds itself: scanning an object meets others, tracing a
context makes others wait, and a context may wait many times. `Survey.Scans` is
that loop without any bound on its turns, with a log of what it follows. The
bound that a survey computes is enough for every loop, and the log holds
everything the roots reach exactly once.
-/

namespace ObjectMachine

namespace Root

def object? : Root → Option Nat
  | value (.pointer i) => some i
  | _ => none

def context? : Root → Option ContextId
  | context id => some id
  | _ => none

/-- The root names something that can be followed. -/
def isPlace (r : Root) : Bool := r.object?.isSome || r.context?.isSome

theorem object?_eq_some {r : Root} {i : Nat} : r.object? = some i ↔ r = value (.pointer i) := by
  cases r with
  | context id => simp [object?]
  | value v => cases v <;> simp [object?]

theorem context?_eq_some {r : Root} {id : ContextId} : r.context? = some id ↔ r = context id := by
  cases r with
  | context id => simp [context?]
  | value v => simp [context?]

/-- Places are distinct when the objects among them are and the contexts are. -/
theorem nodup_of_places {log : List Root} (h : ∀ r ∈ log, r.isPlace = true)
    (hobjects : (log.filterMap object?).Nodup) (hcontexts : (log.filterMap context?).Nodup) :
    log.Nodup := by
  induction log with
  | nil => exact List.nodup_nil
  | cons r rest ih =>
    have hr := h r (List.mem_cons_self ..)
    have hrest : ∀ r ∈ rest, r.isPlace = true := fun r hr => h r (List.mem_cons_of_mem _ hr)
    simp only [isPlace, Bool.or_eq_true, Option.isSome_iff_exists] at hr
    rw [List.filterMap_cons] at hobjects hcontexts
    rcases hr with ⟨i, hi⟩ | ⟨id, hid⟩
    · obtain rfl := object?_eq_some.mp hi
      simp only [object?, context?, List.nodup_cons] at hobjects hcontexts
      refine List.nodup_cons.mpr ⟨fun hmem => hobjects.1 ?_, ih hrest hobjects.2 hcontexts⟩
      exact List.mem_filterMap.mpr ⟨_, hmem, rfl⟩
    · obtain rfl := context?_eq_some.mp hid
      simp only [object?, context?, List.nodup_cons] at hobjects hcontexts
      refine List.nodup_cons.mpr ⟨fun hmem => hcontexts.1 ?_, ih hrest hobjects hcontexts.2⟩
      exact List.mem_filterMap.mpr ⟨_, hmem, rfl⟩

end Root

namespace Survey

/-- What looking at a waiting context follows: the context, unless this collection
has followed it before. -/
def following (s : Survey) (id : ContextId) : List Root :=
  match s.contexts[id]? with
  | none => []
  | some c => if c.epoch = s.epoch then [] else [.context id]

/-- The loop of a scan from its `n`-th object on, with what it follows, in order, and
how it ends. -/
inductive Scans : Nat → Survey → List Root → Except Fault Survey → Prop
  /-- Every object met has been scanned and no context waits. -/
  | done {n : Nat} {s : Survey} : s.order[n]? = none → s.waiting = [] → Scans n s [] (.ok s)
  | object {n i : Nat} {s t : Survey} {log : List Root} {r : Except Fault Survey} :
      s.order[n]? = some i →
      s.visitAll ((s.space[i]?.map HeapObject.roots).getD []) = .ok t →
      Scans (n + 1) t log r → Scans n s (.value (.pointer i) :: log) r
  | objectStops {n i : Nat} {s : Survey} {f : Fault} : s.order[n]? = some i →
      s.visitAll ((s.space[i]?.map HeapObject.roots).getD []) = .error f →
      Scans n s [.value (.pointer i)] (.error f)
  | context {n : Nat} {id : ContextId} {rest : List ContextId} {s t : Survey} {log : List Root}
      {r : Except Fault Survey} : s.order[n]? = none → s.waiting = id :: rest →
      trace { s with waiting := rest } id = .ok t → Scans n t log r →
      Scans n s (s.following id ++ log) r
  | contextStops {n : Nat} {id : ContextId} {rest : List ContextId} {s : Survey} {f : Fault} :
      s.order[n]? = none → s.waiting = id :: rest →
      trace { s with waiting := rest } id = .error f → Scans n s (s.following id) (.error f)

/-- The loop goes one way only. -/
theorem Scans.unique {n : Nat} {s : Survey} {log log' : List Root} {r r' : Except Fault Survey}
    (h : Scans n s log r) (h' : Scans n s log' r') : log = log' ∧ r = r' := by
  induction h generalizing log' r' with
  | done hn hw => cases h' <;> simp_all
  | objectStops hn hv => cases h' <;> simp_all
  | contextStops hn hw ht => cases h' <;> simp_all
  | object hn hv _ ih =>
    cases h' with
    | object hn' hv' hscans =>
      rw [hn] at hn'
      cases hn'
      rw [hv] at hv'
      cases hv'
      obtain ⟨hlog, hr⟩ := ih hscans
      exact ⟨by rw [hlog], hr⟩
    | _ => simp_all
  | context hn hw ht _ ih =>
    cases h' with
    | context hn' hw' ht' hscans =>
      rw [hw] at hw'
      cases hw'
      rw [ht] at ht'
      cases ht'
      obtain ⟨hlog, hr⟩ := ih hscans
      exact ⟨by rw [hlog], hr⟩
    | _ => simp_all

variable {mem : Memory} {roots : List Root} {n : Nat} {s t : Survey}

/-- The bound on the turns is never met: the loop ends, as the bounded scan does. -/
theorem scan_scans (hfresh : mem.UnmarkedFrom roots) (fuel : Nat) :
    ∀ (n : Nat) (s : Survey), Charts mem (mem.Reaches roots) s → Followed mem roots n s →
      remaining mem n s < fuel → ∃ log, Scans n s log (s.scan fuel n) := by
  induction fuel with
  | zero => intro n s _ _ hfuel; omega
  | succ fuel ih =>
    intro n s h hf hfuel
    rw [scan]
    cases hn : s.order[n]? with
    | some i =>
      have hstep := scan_object h hf hn
      cases hv : s.visitAll ((s.space[i]?.map HeapObject.roots).getD []) with
      | error f =>
        simp only [hv]
        exact ⟨_, .objectStops hn hv⟩
      | ok t =>
        rw [hv] at hstep
        obtain ⟨ht, hft, hless⟩ := hstep
        obtain ⟨log, hscans⟩ := ih (n + 1) t ht hft (by omega)
        simp only [hv]
        exact ⟨_, .object hn hv hscans⟩
    | none =>
      cases hw : s.waiting with
      | nil => exact ⟨[], .done hn hw⟩
      | cons id rest =>
        have hstep := scan_context h hf hfresh hw
        cases hv : trace { s with waiting := rest } id with
        | error f =>
          simp only [hv]
          exact ⟨_, .contextStops hn hw hv⟩
        | ok t =>
          rw [hv] at hstep
          obtain ⟨ht, hft, hless⟩ := hstep
          obtain ⟨log, hscans⟩ := ih n t ht hft (by omega)
          simp only [hv]
          exact ⟨_, .context hn hw hv hscans⟩

theorem extends_of_visit {r : Root} (h : s.visit r = .ok t) :
    s.order.toList <+: t.order.toList ∧ t.traced = s.traced := by
  cases r with
  | context id =>
    cases h
    exact ⟨List.prefix_rfl, rfl⟩
  | value v =>
    simp only [visit, meet] at h
    split at h
    · split at h <;> cases h
      · exact ⟨List.prefix_rfl, rfl⟩
      · simp
    · cases h
      exact ⟨List.prefix_rfl, rfl⟩

theorem extends_of_visitAll {rs : List Root} (h : s.visitAll rs = .ok t) :
    s.order.toList <+: t.order.toList ∧ t.traced = s.traced := by
  induction rs generalizing s with
  | nil =>
    cases h
    exact ⟨List.prefix_rfl, rfl⟩
  | cons r rest ih =>
    rw [visitAll, List.foldlM_cons] at h
    cases hv : s.visit r with
    | error f =>
      rw [hv] at h
      cases h
    | ok u =>
      rw [hv] at h
      obtain ⟨hfirst, htraced⟩ := extends_of_visit hv
      obtain ⟨hrest, htraced'⟩ := ih h
      exact ⟨hfirst.trans hrest, htraced'.trans htraced⟩

theorem extends_of_trace {id : ContextId} {rest : List ContextId}
    (h : trace { s with waiting := rest } id = .ok t) :
    s.order.toList <+: t.order.toList ∧
      t.traced.toList = s.traced.toList ++ (s.following id).filterMap Root.context? := by
  unfold trace at h
  unfold following
  cases hc : s.contexts[id]? with
  | none =>
    simp only [hc] at h
    cases h
    simp
  | some c =>
    simp only [hc] at h
    by_cases hepoch : c.epoch = s.epoch
    · simp only [hepoch, if_true] at h
      cases h
      simp [hepoch]
    · simp only [hepoch, if_false] at h
      obtain ⟨horder, htraced⟩ := extends_of_visitAll h
      simp [htraced, hepoch, Root.context?, horder]

theorem eq_of_mem_following {id : ContextId} {r : Root} (h : r ∈ s.following id) :
    r = .context id := by
  unfold following at h
  split at h
  · cases h
  · split_ifs at h
    · cases h
    · simpa using h

/-- The objects in the log are those met from the `n`-th on, and its contexts are those
that have been traced. -/
theorem Scans.log_eq {log : List Root} {r : Except Fault Survey} (h : Scans n s log r) :
    ∀ u, r = .ok u →
      s.order.toList <+: u.order.toList ∧ log.filterMap Root.object? = u.order.toList.drop n ∧
        u.traced.toList = s.traced.toList ++ log.filterMap Root.context? ∧
        ∀ r ∈ log, r.isPlace = true := by
  induction h with
  | done hn hw =>
    rintro _ ⟨⟩
    have hsize := Array.getElem?_eq_none_iff.mp hn
    simp [hsize]
  | objectStops | contextStops => rintro _ ⟨⟩
  | @object n i s t log r hn hv _ ih =>
    intro u hu
    obtain ⟨horder, hobjects, hcontexts, hplaces⟩ := ih u hu
    obtain ⟨horder', htraced⟩ := extends_of_visitAll hv
    have hextends := horder'.trans horder
    have hi : u.order.toList[n]? = some i := by
      obtain ⟨l, hl⟩ := hextends
      have hlt := (Array.getElem?_eq_some_iff.mp hn).1
      rw [← hl, List.getElem?_append_left (by simpa using hlt)]
      simpa using hn
    obtain ⟨hlt, hget⟩ := List.getElem?_eq_some_iff.mp hi
    refine ⟨hextends, ?_, ?_, ?_⟩
    · rw [List.drop_eq_getElem_cons hlt, hget, ← hobjects]
      rfl
    · rw [hcontexts, htraced]
      rfl
    · intro r hr
      rcases List.mem_cons.mp hr with rfl | hr
      · rfl
      · exact hplaces r hr
  | @context n id rest s t log r hn hw ht _ ih =>
    intro u hu
    obtain ⟨horder, hobjects, hcontexts, hplaces⟩ := ih u hu
    obtain ⟨horder', htraced⟩ := extends_of_trace ht
    have hnone : (s.following id).filterMap Root.object? = [] := by
      rw [List.filterMap_eq_nil_iff]
      intro r hr
      rw [eq_of_mem_following hr]
      rfl
    refine ⟨horder'.trans horder, ?_, ?_, ?_⟩
    · rw [List.filterMap_append, hnone, hobjects, List.nil_append]
    · rw [hcontexts, htraced, List.filterMap_append, List.append_assoc]
    · intro r hr
      rcases List.mem_append.mp hr with hr | hr
      · rw [eq_of_mem_following hr]
        rfl
      · exact hplaces r hr

end Survey

def Memory.Holds (mem : Memory) : Root → Prop
  | .value (.pointer i) => i < mem.objects.size
  | .value _ => False
  | .context id => id < mem.contexts.size

/-- A scan that ends well has followed everything reached exactly once. -/
theorem Survey.Scans.exactly_once {mem : Memory} {roots : List Root} {s t : Survey}
    {log : List Root} (h : Scans 0 s log (.ok t)) (hs : s.traced = #[])
    (ht : Complete mem roots t) :
    log.Nodup ∧ ∀ r, r ∈ log ↔ mem.Reaches roots r ∧ mem.Holds r := by
  obtain ⟨-, hobjects, hcontexts, hplaces⟩ := h.log_eq t rfl
  rw [List.drop_zero] at hobjects
  rw [hs, List.nil_append] at hcontexts
  refine ⟨Root.nodup_of_places hplaces ?_ ?_, ?_⟩
  · rw [hobjects]
    exact ht.charts.nodup_order
  · rw [← hcontexts]
    exact ht.charts.distinct
  · intro r
    cases r with
    | context id =>
      have hmem : Root.context id ∈ log ↔ id ∈ t.traced := by
        rw [← Array.mem_toList_iff, hcontexts, List.mem_filterMap]
        simp [Root.context?_eq_some]
      rw [hmem, ht.traced]
      rfl
    | value v =>
      cases v with
      | pointer i =>
        have hmem : Root.value (.pointer i) ∈ log ↔ i ∈ t.order := by
          rw [← Array.mem_toList_iff, ← hobjects, List.mem_filterMap]
          simp [Root.object?_eq_some]
        rw [hmem, ht.order]
        exact ⟨fun hi => ⟨hi, ht.charts.lt_size ((ht.order i).mpr hi)⟩, And.left⟩
      | _ =>
        constructor
        · intro hr
          cases hplaces _ hr
        · rintro ⟨-, ⟨⟩⟩

end ObjectMachine

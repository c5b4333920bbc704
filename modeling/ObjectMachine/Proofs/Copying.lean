import ObjectMachine.Proofs.LockStep
import ObjectMachine.Proofs.Walks

/-!
# Copying while scanning

A collection can be carried out in one pass. The copier moves a body to its new
place when it first meets the object, and leaves a husk with the new index behind.
While it scans the copies and the waiting contexts it puts new values in the place
of the old ones at once, and so it does with the roots. A survey only notes what is
met, and relocation comes at the end. Both come to the same, since the new index of
an object never changes once it has been given.
-/

namespace ObjectMachine

def Root.value? : Root → Option Value
  | value v => some v
  | context _ => none

namespace Visitor

variable {m : Type → Type} [Monad m]

def root (visitor : Visitor m) : Root → m Root
  | .value v => .value <$> visitor.value v
  | .context id => (fun _ => .context id) <$> visitor.context id

variable [LawfulMonad m] (visitor : Visitor m)

theorem present_cons (v : Value) (values : List Value) (contexts : List ContextId) :
    visitor.present (v :: values) contexts =
      visitor.value v >>= fun answer => (answer :: ·) <$> visitor.present values contexts := by
  simp [present]

/-- To show values and then contexts is to show roots. -/
theorem present_eq (values : List Value) (contexts : List ContextId) :
    visitor.present values contexts = List.filterMap Root.value? <$>
      (values.map Root.value ++ contexts.map Root.context).mapM visitor.root := by
  induction values with
  | nil =>
    simp only [present, List.mapM_nil, pure_bind, List.map_nil, List.nil_append]
    induction contexts with
    | nil => simp
    | cons id rest ih =>
      have hrest := congrArg (fun x => visitor.context id >>= fun _ => x) ih
      simpa [root, Root.value?, List.filterMap_cons] using hrest
  | cons v rest ih =>
    rw [present_cons, ih, List.map_cons, List.cons_append, List.mapM_cons]
    simp [root, Root.value?]

end Visitor

namespace HeapObject

variable (o : HeapObject)

/-- An old object once it has its new place: the body has gone. -/
def hollow : HeapObject := if o.header.forward.isSome then { o with body := .husk } else o

theorem mapEdges_eq_fill (f : Value → Value) : o.mapEdges f = o.shell.fill (o.edges.map f) := by
  rw [mapEdges, traverse_eq, Id.run_map, Visitor.run_present_replace]

end HeapObject

namespace Context

variable (c : Context)

theorem mapEdges_eq_fill (f : Value → Value) : c.mapEdges f = c.shell.fill (c.edges.map f) := by
  rw [mapEdges, traverse_eq, Id.run_map, Visitor.run_present_replace]

end Context

theorem Root.filterMap_value?_map (f : Value → Value) (values : List Value)
    (contexts : List ContextId) :
    ((values.map value ++ contexts.map context).map (map f)).filterMap value? = values.map f := by
  simp [value?, map, Function.comp_def]

structure Copier where
  epoch : Nat
  /-- The old objects. A copied one is a husk, and its header holds the new index. -/
  source : Array HeapObject
  target : Array HeapObject
  contexts : Array Context
  waiting : List ContextId

namespace Copier

def start (epoch : Nat) (mem : Memory) : Copier where
  epoch := epoch
  source := mem.objects.map fun o => { o with header := o.header.clearMoved }
  target := #[]
  contexts := mem.contexts
  waiting := []

def copied (k : Copier) (i : Nat) (o : HeapObject) : Copier :=
  { k with
    source := k.source.modify i fun o => ⟨o.header.setForward k.target.size, .husk⟩
    target := k.target.push o.survivor }

/-- Copy what a value refers to unless it has been copied, and answer its new place. -/
def forward (v : Value) (k : Copier) : Except Fault (Value × Copier) :=
  match v with
  | .pointer i =>
    match k.source[i]? with
    | none => .error (.danglingReference v)
    | some o =>
      match o.header.forward with
      | some place => .ok (.pointer place, k)
      | none => .ok (.pointer k.target.size, k.copied i o)
  | _ => .ok (v, k)

def visitor : Visitor (StateT Copier (Except Fault)) where
  value := forward
  context id k := .ok ((), { k with waiting := id :: k.waiting })

/-- Put `c` in the place of a context, and then `c` rewritten. -/
def rewriteContext (k : Copier) (id : ContextId) (c : Context) : Except Fault Copier := do
  let (c, k) ← (c.traverse visitor).run { k with contexts := k.contexts.modify id fun _ => c }
  return { k with contexts := k.contexts.modify id fun _ => c }

/-- Look at a context that has waited: rewrite it unless this collection has. -/
def trace (k : Copier) (id : ContextId) : Except Fault Copier :=
  match k.contexts[id]? with
  | none => .ok k
  | some c =>
    match c.mark k.epoch with
    | (false, _) => .ok k
    | (true, c) => k.rewriteContext id c

def rewrite (k : Copier) (place : Nat) (o : HeapObject) : Except Fault Copier := do
  let (o, k) ← (o.traverse visitor).run k
  return { k with target := k.target.modify place fun _ => o }

/-- Rewrite the copies from the `scanned`-th on, and the waiting contexts. -/
def scan : Nat → Nat → Copier → Except Fault Copier
  | 0, _, k => .ok k
  | fuel + 1, scanned, k =>
    match k.target[scanned]? with
    | some o => do
      let k ← rewrite k scanned o
      scan fuel (scanned + 1) k
    | none =>
      match k.waiting with
      | [] => .ok k
      | id :: rest => do
        let k ← trace { k with waiting := rest } id
        scan fuel scanned k

/-- Copy everything reachable from the roots, and answer the roots rewritten. -/
def complete (k : Copier) (roots : List Root) : Except Fault (List Root × Copier) := do
  let (roots, k) ← (roots.mapM visitor.root).run k
  let k ← scan (2 * k.source.size + 2 * k.contexts.size + k.waiting.length + 1) 0 k
  return (roots, k)

end Copier

def Memory.copyOf (mem : Memory) (i : Nat) : HeapObject := (mem.objects[i]?.getD default).survivor

open Survey in
/-- The copier has done what the survey has noted. The first `n` copies and the contexts
`done` have been rewritten, and the survey has met all that they refer to. -/
structure Copies (mem : Memory) (P : Root → Prop) (n : Nat) (done : Array ContextId) (s : Survey)
    (k : Copier) : Prop where
  charts : Charts mem P s
  epoch : k.epoch = s.epoch
  waiting : k.waiting = s.waiting
  source : k.source = s.space.map HeapObject.hollow
  bound : n ≤ s.order.size
  target : ∀ j : Nat, k.target[j]? = (s.order[j]?).map fun i =>
    if j < n then (mem.copyOf i).mapEdges s.relocate else mem.copyOf i
  scanned : ∀ j i : Nat, j < n → s.order[j]? = some i → ∀ v ∈ (mem.copyOf i).edges,
    Met mem s (.value v)
  contexts : ∀ id : ContextId, k.contexts[id]? = (s.contexts[id]?).map fun c =>
    if id ∈ done then c.mapEdges s.relocate else c
  traced : ∀ id ∈ done, ∀ c, s.contexts[id]? = some c → ∀ v ∈ c.edges, Met mem s (.value v)

/-- What the copier makes of a visit: the same fault, or an answer that the survey gives
afterwards. -/
def Echoes {α : Type} (mem : Memory) (P : Root → Prop) (n : Nat) (done : Array ContextId)
    (answer : Survey → α) : Except Fault Survey → Except Fault (α × Copier) → Prop
  | .ok t, y => ∃ k, y = .ok (answer t, k) ∧ Copies mem P n done t k
  | .error f, y => y = .error f

theorem Echoes.map {α β : Type} {mem : Memory} {P : Root → Prop} {n : Nat}
    {done : Array ContextId} {answer : Survey → α} {x : Except Fault Survey}
    {y : StateT Copier (Except Fault) α} {k : Copier} (h : Echoes mem P n done answer x (y.run k))
    (g : α → β) : Echoes mem P n done (fun t => g (answer t)) x ((g <$> y).run k) := by
  rw [StateT.run_map]
  cases x with
  | error f =>
    rw [show y.run k = .error f from h]
    rfl
  | ok t =>
    obtain ⟨k', hy, hk'⟩ := h
    rw [hy]
    exact ⟨k', rfl, hk'⟩

namespace Survey

variable {mem : Memory} {P : Root → Prop} {s t : Survey} {i : Nat}

/-- The places that have been given out are kept. -/
def Precedes (s t : Survey) : Prop := ∀ j i : Nat, s.order[j]? = some i → t.order[j]? = some i

theorem Met.of_precedes {v : Value} (h : Met mem s (.value v)) (horder : s.Precedes t) :
    Met mem t (.value v) := by
  cases v with
  | pointer i =>
    obtain ⟨j, hj⟩ := Array.mem_iff_getElem?.mp h
    exact Array.mem_iff_getElem?.mpr ⟨j, horder j i hj⟩
  | _ => trivial

/-- The new place of a value that has been met stays what it is. -/
theorem Charts.relocate_eq (h : Charts mem P s) (ht : Charts mem P t) (horder : s.Precedes t)
    {v : Value} (hv : Met mem s (.value v)) : t.relocate v = s.relocate v := by
  cases v with
  | pointer i =>
    obtain ⟨j, hj⟩ := Array.mem_iff_getElem?.mp hv
    rw [relocate_eq_rename, relocate_eq_rename, Value.rename_pointer, Value.rename_pointer,
      h.place_eq hj, ht.place_eq (horder j i hj)]
  | _ => rfl

theorem Charts.map_relocate_eq (h : Charts mem P s) (ht : Charts mem P t) (horder : s.Precedes t)
    {r : Root} (hr : Met mem s r) : r.map t.relocate = r.map s.relocate := by
  cases r with
  | context id => rfl
  | value v => exact congrArg Root.value (h.relocate_eq ht horder hr)

theorem relocate_assign {o : HeapObject} (ho : s.space[i]? = some o) :
    (s.assign i).relocate (.pointer i) = .pointer s.order.size := by
  simp [relocate, assign, Array.getElem?_modify, ho]

theorem Charts.survivor_eq (h : Charts mem P s) {o : HeapObject} (ho : s.space[i]? = some o) :
    o.survivor = mem.copyOf i := by
  have hspace := h.space i
  rw [ho] at hspace
  obtain ⟨o', ho', hsame⟩ := Option.map_eq_some_iff.mp hspace.symm
  rw [Memory.copyOf, ho', Option.getD_some, hsame]

end Survey

namespace Copies

open Survey

variable {mem : Memory} {P : Root → Prop} {n : Nat} {done : Array ContextId} {s t : Survey}
  {k : Copier} (h : Copies mem P n done s k)

include h

theorem size_target : k.target.size = s.order.size := by
  apply size_eq_of_isSome_eq
  intro j
  rw [h.target j, Option.isSome_map]

theorem size_contexts : k.contexts.size = s.contexts.size := by
  apply size_eq_of_isSome_eq
  intro id
  rw [h.contexts id, Option.isSome_map]

theorem getElem?_source (i : Nat) : k.source[i]? = (s.space[i]?).map HeapObject.hollow := by
  rw [h.source, Array.getElem?_map]

/-- What has been rewritten stays so. -/
theorem target_of_precedes (ht : Charts mem P t) (horder : s.Precedes t) (j : Nat) :
    k.target[j]? = (s.order[j]?).map fun i =>
      if j < n then (mem.copyOf i).mapEdges t.relocate else mem.copyOf i := by
  rw [h.target j]
  cases hi : s.order[j]? with
  | none => rfl
  | some i =>
    by_cases hj : j < n
    · have hsame : (mem.copyOf i).mapEdges t.relocate = (mem.copyOf i).mapEdges s.relocate :=
        HeapObject.mapEdges_congr _ _ _ fun v hv =>
          h.charts.relocate_eq ht horder (h.scanned j i hj hi v hv)
      simp only [Option.map_some, if_pos hj, hsame]
    · simp only [Option.map_some, if_neg hj]

theorem contexts_of_precedes (ht : Charts mem P t) (horder : s.Precedes t) (id : ContextId) :
    k.contexts[id]? = (s.contexts[id]?).map fun c =>
      if id ∈ done then c.mapEdges t.relocate else c := by
  rw [h.contexts id]
  cases hc : s.contexts[id]? with
  | none => rfl
  | some c =>
    by_cases hid : id ∈ done
    · have hsame : c.mapEdges t.relocate = c.mapEdges s.relocate :=
        Context.mapEdges_congr _ _ _ fun v hv =>
          h.charts.relocate_eq ht horder (h.traced id hid c hc v hv)
      simp only [Option.map_some, if_pos hid, hsame]
    · simp only [Option.map_some, if_neg hid]

theorem assign {i : Nat} {o : HeapObject} (hP : P (.value (.pointer i)))
    (ho : s.space[i]? = some o) (hf : o.header.forward = none) :
    Copies mem P n done (s.assign i) (k.copied i o) := by
  have hcharts := h.charts.assign hP ho hf
  have hsize := h.size_target
  have hold : ∀ j : Nat, j < s.order.size → (s.assign i).order[j]? = s.order[j]? := by
    intro j hj
    rw [Survey.assign, Array.getElem?_push, if_neg (Nat.ne_of_lt hj)]
  have horder : s.Precedes (s.assign i) := by
    intro j i' hi'
    rw [hold j (Array.getElem?_eq_some_iff.mp hi').1, hi']
  refine ⟨hcharts, h.epoch, h.waiting, ?_, ?_, ?_, ?_, ?_, ?_⟩
  · apply Array.ext_getElem?
    intro j
    simp only [Copier.copied, Survey.assign, Array.getElem?_modify, Array.getElem?_map,
      h.source, hsize]
    by_cases hij : i = j
    · subst hij
      simp [ho, HeapObject.hollow, hf]
    · simp [hij]
  · simp only [Survey.assign, Array.size_push]
    exact Nat.le_succ_of_le h.bound
  · intro j
    by_cases hj : j = s.order.size
    · have htarget : (k.copied i o).target[j]? = some (mem.copyOf i) := by
        rw [Copier.copied, Array.getElem?_push, if_pos (hj.trans hsize.symm),
          h.charts.survivor_eq ho]
      have horder' : (s.assign i).order[j]? = some i := by
        rw [Survey.assign, Array.getElem?_push, if_pos hj]
      rw [htarget, horder', Option.map_some, if_neg (hj ▸ Nat.not_lt.mpr h.bound)]
    · have htarget : (k.copied i o).target[j]? = k.target[j]? := by
        rw [Copier.copied, Array.getElem?_push, if_neg (hsize ▸ hj)]
      have horder' : (s.assign i).order[j]? = s.order[j]? := by
        rw [Survey.assign, Array.getElem?_push, if_neg hj]
      rw [htarget, horder']
      exact h.target_of_precedes hcharts horder j
  · intro j i' hj hi' v hv
    rw [hold j (Nat.lt_of_lt_of_le hj h.bound)] at hi'
    exact (h.scanned j i' hj hi' v hv).of_precedes horder
  · exact h.contexts_of_precedes hcharts horder
  · exact fun id hid c hc v hv => (h.traced id hid c hc v hv).of_precedes horder

/-- The contexts that wait are no more than a list. -/
theorem withWaiting {waiting waiting' : List ContextId}
    (hcharts : Charts mem P { s with waiting }) (heq : waiting' = waiting) :
    Copies mem P n done { s with waiting } { k with waiting := waiting' } where
  charts := hcharts
  epoch := h.epoch
  waiting := heq
  source := h.source
  bound := h.bound
  target := h.target
  scanned j i hj hi v hv := (h.scanned j i hj hi v hv).of_precedes fun _ _ hk => hk
  contexts := h.contexts
  traced id hid c hc v hv := (h.traced id hid c hc v hv).of_precedes fun _ _ hk => hk

theorem value {v : Value} (hP : P (.value v)) :
    Echoes mem P n done (fun t => t.relocate v) (s.meet v) (Copier.forward v k) := by
  cases v with
  | pointer i =>
    have hsource := h.getElem?_source i
    cases ho : s.space[i]? with
    | none =>
      rw [ho] at hsource
      simp [Echoes, meet, Copier.forward, ho, hsource]
    | some o =>
      rw [ho] at hsource
      cases hf : o.header.forward with
      | some place =>
        have hmeet : s.meet (.pointer i) = .ok s := by simp [meet, ho, hf]
        rw [hmeet]
        refine ⟨k, ?_, h⟩
        simp [Copier.forward, hsource, HeapObject.hollow, relocate, ho, hf]
      | none =>
        have hmeet : s.meet (.pointer i) = .ok (s.assign i) := by
          simp [meet, Survey.assign, ho, hf]
        rw [hmeet]
        refine ⟨k.copied i o, ?_, h.assign hP ho hf⟩
        simp [Copier.forward, hsource, HeapObject.hollow, relocate_assign ho, hf, h.size_target]
  | _ => exact ⟨k, rfl, h⟩

theorem root {r : Root} (hP : P r) :
    Echoes mem P n done (fun t => r.map t.relocate) (s.visit r)
      ((Copier.visitor.root r).run k) := by
  cases r with
  | value v =>
    have hvalue : Echoes mem P n done (fun t => t.relocate v) (s.meet v)
        ((Copier.visitor.value v).run k) := h.value hP
    exact hvalue.map Root.value
  | context id =>
    obtain ⟨hcharts, -⟩ := visit_spec h.charts hP
    exact ⟨{ k with waiting := id :: k.waiting }, rfl,
      h.withWaiting hcharts (congrArg (List.cons id) h.waiting)⟩

theorem roots (rs : List Root) (hP : ∀ r ∈ rs, P r) :
    Echoes mem P n done (fun t => rs.map (Root.map t.relocate)) (s.visitAll rs)
      ((rs.mapM Copier.visitor.root).run k) := by
  induction rs generalizing s k with
  | nil => exact ⟨k, rfl, h⟩
  | cons r rest ih =>
    have hr := hP r (List.mem_cons_self ..)
    have hfirst := h.root hr
    have hvisit := visit_spec h.charts hr
    rw [visitAll_cons, List.mapM_cons, StateT.run_bind]
    cases hv : s.visit r with
    | error f =>
      rw [hv] at hfirst
      rw [show (Copier.visitor.root r).run k = .error f from hfirst]
      rfl
    | ok t =>
      rw [hv] at hfirst hvisit
      obtain ⟨k', hk', hcopies⟩ := hfirst
      obtain ⟨ht, -, hmet, -⟩ := hvisit
      have hP' : ∀ r' ∈ rest, P r' := fun r' hr' => hP r' (List.mem_cons_of_mem _ hr')
      have hrest := (ih hcopies hP').map (r.map t.relocate :: ·)
      have hspec := visitAll_spec ht rest hP'
      simp only [hk', bind_pure_comp]
      change Echoes mem P n done _ (t.visitAll rest) _
      cases hu : t.visitAll rest with
      | error f =>
        rw [hu] at hrest
        exact hrest
      | ok u =>
        rw [hu] at hrest hspec
        obtain ⟨k'', hk'', hcopies'⟩ := hrest
        obtain ⟨hcharts, hgrow, -, -⟩ := hspec
        have hsame := ht.map_relocate_eq hcharts hgrow.order (hmet _ (List.mem_cons_self ..))
        refine ⟨k'', hk''.trans ?_, hcopies'⟩
        simp only [List.map_cons, hsame]

theorem present (values : List Value) (contexts : List ContextId)
    (hP : ∀ r ∈ values.map Root.value ++ contexts.map Root.context, P r) :
    Echoes mem P n done (fun t => values.map t.relocate)
      (s.visitAll (values.map .value ++ contexts.map .context))
      ((Copier.visitor.present values contexts).run k) := by
  have hroots := (h.roots _ hP).map (List.filterMap Root.value?)
  rw [Visitor.present_eq]
  simpa only [Root.filterMap_value?_map] using hroots

theorem object (o : HeapObject) (hP : ∀ r ∈ o.roots, P r) :
    Echoes mem P n done (fun t => o.mapEdges t.relocate) (s.visitAll o.roots)
      ((o.traverse Copier.visitor).run k) := by
  rw [o.roots_eq] at hP ⊢
  rw [o.traverse_eq]
  simpa only [o.mapEdges_eq_fill] using (h.present _ _ hP).map o.shell.fill

theorem context (c : Context) (hP : ∀ r ∈ c.roots, P r) :
    Echoes mem P n done (fun t => c.mapEdges t.relocate) (s.visitAll c.roots)
      ((c.traverse Copier.visitor).run k) := by
  rw [c.roots_eq] at hP ⊢
  rw [c.traverse_eq]
  simpa only [c.mapEdges_eq_fill] using (h.present _ _ hP).map c.shell.fill

end Copies

/-- What the copier makes of a step of the scan: the same fault, or all rewritten that
the survey has followed. -/
def Rewrites (mem : Memory) (P : Root → Prop) (n : Nat) (s : Survey) :
    Except Fault Survey → Except Fault Copier → Prop
  | .ok t, y => (∃ k, y = .ok k ∧ Copies mem P n t.traced t k) ∧ s.Precedes t
  | .error f, y => y = .error f

section

open Survey

variable {mem : Memory} {roots : List Root} {n : Nat} {s : Survey} {k : Copier}

theorem Memory.roots_copyOf {i : Nat} (hi : i < mem.objects.size) :
    (mem.copyOf i).roots = mem.next (.value (.pointer i)) := by
  have ho := Array.getElem?_eq_getElem hi
  rw [copyOf, ho, Option.getD_some, HeapObject.roots_survivor, mem_next_pointer ho]

variable (h : Copies mem (mem.Reaches roots) n s.traced s k)

include h

theorem Copies.rewrite {i : Nat} {o : HeapObject} (hn : s.order[n]? = some i)
    (ho : k.target[n]? = some o) :
    Rewrites mem (mem.Reaches roots) (n + 1) s
      (s.visitAll ((s.space[i]?.map HeapObject.roots).getD [])) (k.rewrite n o) := by
  have hmem : i ∈ s.order := Array.mem_iff_getElem?.mpr ⟨n, hn⟩
  have hnext := Memory.roots_copyOf (h.charts.lt_size hmem)
  have hreach : ∀ r ∈ (mem.copyOf i).roots, mem.Reaches roots r := by
    rw [hnext]
    exact fun r hr => .step (h.charts.met i hmem) hr
  obtain rfl : mem.copyOf i = o := by
    have htarget := h.target n
    rw [ho, hn, Option.map_some, if_neg (Nat.lt_irrefl n)] at htarget
    exact (Option.some.inj htarget).symm
  have hecho := h.object _ hreach
  have hspec := visitAll_spec h.charts _ hreach
  rw [h.charts.roots_space, ← hnext, Copier.rewrite]
  cases hv : s.visitAll (mem.copyOf i).roots with
  | error f =>
    rw [hv] at hecho
    rw [show _ = Except.error f from hecho]
    rfl
  | ok t =>
    rw [hv] at hecho hspec
    obtain ⟨k', hk', hcopies⟩ := hecho
    obtain ⟨-, hgrow, hmet, -⟩ := hspec
    have hn' := hgrow.order n i hn
    refine ⟨⟨_, by rw [hk']; rfl, ?_⟩, hgrow.order⟩
    rw [hgrow.traced]
    refine { hcopies with bound := ?_, target := ?_, scanned := ?_ }
    · exact (Array.getElem?_eq_some_iff.mp hn').1
    · intro j
      rw [Array.getElem?_modify, hcopies.target j]
      by_cases hj : n = j
      · subst hj
        simp [hn']
      · have hiff : j < n + 1 ↔ j < n := by omega
        simp only [hj, if_false, hiff]
    · intro j i' hj hi' v hv
      rcases Nat.lt_succ_iff_lt_or_eq.mp hj with hj | rfl
      · exact hcopies.scanned j i' hj hi' v hv
      · obtain rfl := Option.some.inj (hn'.symm.trans hi')
        exact hmet _ ((HeapObject.value_mem_roots _ v).mpr hv)

/-- A context that has been traced, or is none, is passed over. -/
theorem Copies.trace_eq_skip {id : ContextId} (hdone : id ∈ s.traced ∨ mem.contexts.size ≤ id)
    (rest : List ContextId) :
    Copier.trace { k with waiting := rest } id = .ok { k with waiting := rest } := by
  have hcontext := h.contexts id
  rw [h.charts.contexts id] at hcontext
  cases hc : mem.contexts[id]? with
  | none => simp [Copier.trace, hcontext, hc]
  | some c =>
    have hid : id ∈ s.traced :=
      hdone.resolve_right (Nat.not_le.mpr (Array.getElem?_eq_some_iff.mp hc).1)
    simp [Copier.trace, hcontext, hc, hid, Context.mark, Context.mapEdges_eq, h.epoch]

/-- A context that has not been traced is marked and rewritten. -/
theorem Copies.trace_eq_rewrite {id : ContextId} {c : Context} (hc : mem.contexts[id]? = some c)
    (hid : id ∉ s.traced) (hepoch : c.epoch ≠ mem.collections + 1) (rest : List ContextId) :
    Copier.trace { k with waiting := rest } id =
      Copier.rewriteContext { k with waiting := rest } id { c with epoch := k.epoch } := by
  have hcontext := h.contexts id
  rw [h.charts.contexts id, hc] at hcontext
  rw [← h.charts.epoch, ← h.epoch] at hepoch
  simp [Copier.trace, hcontext, hid, Context.mark, hepoch]

/-- Once a context is marked, the survey has it among those it follows. -/
theorem Copies.mark {id : ContextId} {rest : List ContextId} (hw : s.waiting = id :: rest)
    {c : Context} (hc : mem.contexts[id]? = some c) (hid : id ∉ s.traced) :
    Copies mem (mem.Reaches roots) n s.traced (s.follow id rest)
      { k with
        waiting := rest
        contexts := k.contexts.modify id fun _ => { c with epoch := k.epoch } } where
  charts := h.charts.mark hw hc hid
  epoch := h.epoch
  waiting := rfl
  source := h.source
  bound := h.bound
  target := h.target
  scanned j i hj hi v hv := (h.scanned j i hj hi v hv).of_precedes fun _ _ hk => hk
  contexts id' := by
    have hold := h.contexts id'
    simp only [follow, Array.getElem?_modify, hold, h.charts.contexts id']
    by_cases heq : id = id'
    · subst heq
      simp [hc, hid, h.epoch]
    · simp only [heq, if_false]
      rfl
  traced id' hid' c' hc' v hv := by
    have hne : id ≠ id' := fun heq => hid (heq ▸ hid')
    rw [follow, Array.getElem?_modify, if_neg hne] at hc'
    exact (h.traced id' hid' c' hc' v hv).of_precedes fun _ _ hk => hk

theorem Copies.trace (hfresh : mem.UnmarkedFrom roots) {id : ContextId} {rest : List ContextId}
    (hw : s.waiting = id :: rest) :
    Rewrites mem (mem.Reaches roots) n s (trace { s with waiting := rest } id)
      (Copier.trace { k with waiting := rest } id) := by
  by_cases hdone : id ∈ s.traced ∨ mem.contexts.size ≤ id
  · rw [h.charts.trace_eq_skip hdone, h.trace_eq_skip hdone]
    exact ⟨⟨_, rfl, h.withWaiting (h.charts.skip hw) rfl⟩, fun _ _ hk => hk⟩
  rw [not_or, not_le] at hdone
  obtain ⟨hid, hlt⟩ := hdone
  obtain ⟨c, hc⟩ : ∃ c, mem.contexts[id]? = some c := ⟨_, Array.getElem?_eq_getElem hlt⟩
  have hreach : mem.Reaches roots (.context id) := h.charts.waiting id (by simp [hw])
  have hepoch := hfresh id c hreach hc
  have hnext : ∀ r ∈ c.roots, mem.Reaches roots r := by
    rw [← Memory.mem_next_context hc]
    exact fun r hr => .step hreach hr
  have hmarked := h.mark hw hc hid
  have hecho := hmarked.context { c with epoch := k.epoch } hnext
  have hspec := visitAll_spec hmarked.charts c.roots hnext
  rw [h.charts.trace_eq_follow hc hid hepoch, Memory.mem_next_context hc,
    h.trace_eq_rewrite hc hid hepoch, Copier.rewriteContext]
  change Echoes _ _ _ _ _ ((s.follow id rest).visitAll c.roots) _ at hecho
  cases hv : (s.follow id rest).visitAll c.roots with
  | error f =>
    rw [hv] at hecho
    rw [show _ = Except.error f from hecho]
    rfl
  | ok t =>
    rw [hv] at hecho hspec
    obtain ⟨k', hk', hcopies⟩ := hecho
    obtain ⟨hcharts, hgrow, hmet, -⟩ := hspec
    have htraced : t.traced = s.traced.push id := hgrow.traced
    have hcontext : t.contexts[id]? = some { c with epoch := k.epoch } := by
      rw [hcharts.contexts id, hc, Option.map_some, if_pos (htraced ▸ Array.mem_push_self),
        hcharts.epoch, h.epoch, h.charts.epoch]
    refine ⟨⟨_, by rw [hk']; rfl, ?_⟩, hgrow.order⟩
    refine { hcopies with contexts := ?_, traced := ?_ }
    · intro id'
      rw [Array.getElem?_modify, hcopies.contexts id', htraced]
      by_cases heq : id = id'
      · subst heq
        simp [hcontext]
      · simp [heq, Ne.symm heq]
    · intro id' hid' c' hc' v hv
      rw [htraced] at hid'
      rcases Array.mem_push.mp hid' with hold | rfl
      · exact hcopies.traced id' hold c' hc' v hv
      · obtain rfl := Option.some.inj (hcontext.symm.trans hc')
        exact hmet _ ((Context.value_mem_roots _ v).mpr hv)

end

/-- How a scan ends: with the same fault, or with all copies and traced contexts rewritten. -/
def Copied (mem : Memory) (P : Root → Prop) (s : Survey) :
    Except Fault Survey → Except Fault Copier → Prop
  | .ok t, y => (∃ k, y = .ok k ∧ Copies mem P t.order.size t.traced t k) ∧ s.Precedes t ∧
      t.waiting = []
  | .error f, y => y = .error f

theorem Rewrites.bind {mem : Memory} {P : Root → Prop} {n : Nat} {s : Survey}
    {x : Except Fault Survey} {y : Except Fault Copier} (h : Rewrites mem P n s x y)
    {f : Survey → Except Fault Survey} {g : Copier → Except Fault Copier}
    (hnext : ∀ t k, x = .ok t → Copies mem P n t.traced t k → Copied mem P t (f t) (g k)) :
    Copied mem P s (x >>= f) (y >>= g) := by
  cases x with
  | error e =>
    rw [show y = .error e from h]
    rfl
  | ok t =>
    obtain ⟨⟨k, rfl, hcopies⟩, horder⟩ := h
    have hrest := hnext t k rfl hcopies
    change Copied mem P s (f t) (g k)
    cases hf : f t with
    | error e =>
      rw [hf] at hrest
      exact hrest
    | ok u =>
      rw [hf] at hrest
      obtain ⟨hk, horder', hwaiting⟩ := hrest
      exact ⟨hk, fun j i hi => horder' j i (horder j i hi), hwaiting⟩

open Survey in
/-- The copier scans as the survey does, turn by turn. -/
theorem Copies.scan {mem : Memory} {roots : List Root} (hfresh : mem.UnmarkedFrom roots)
    (fuel : Nat) : ∀ (n : Nat) (s : Survey) (k : Copier), Followed mem roots n s →
      Copies mem (mem.Reaches roots) n s.traced s k → remaining mem n s < fuel →
      Copied mem (mem.Reaches roots) s (s.scan fuel n) (Copier.scan fuel n k) := by
  induction fuel with
  | zero => intro n s k _ _ hfuel; omega
  | succ fuel ih =>
    intro n s k hf h hfuel
    have htarget := h.target n
    rw [Survey.scan, Copier.scan]
    cases hn : s.order[n]? with
    | some i =>
      rw [hn, Option.map_some, if_neg (Nat.lt_irrefl n)] at htarget
      have hstep := scan_object h.charts hf hn
      simp only [htarget]
      refine (h.rewrite hn htarget).bind fun t k' hv hcopies => ?_
      rw [hv] at hstep
      exact ih (n + 1) t k' hstep.2.1 hcopies (by omega)
    | none =>
      rw [hn, Option.map_none] at htarget
      have hall : n = s.order.size :=
        Nat.le_antisymm h.bound (Array.getElem?_eq_none_iff.mp hn)
      simp only [htarget, h.waiting]
      cases hw : s.waiting with
      | nil => exact ⟨⟨k, rfl, hall ▸ h⟩, fun _ _ hi => hi, hw⟩
      | cons id rest =>
        have hstep := scan_context h.charts hf hfresh hw
        refine (h.trace hfresh hw).bind fun t k' hv hcopies => ?_
        rw [hv] at hstep
        exact ih n t k' hstep.2.1 hcopies (by omega)

namespace Survey

/-- What the copier has at the end, as the survey tells it. -/
def copier (s : Survey) : Copier where
  epoch := s.epoch
  source := s.space.map HeapObject.hollow
  target := s.survivors
  contexts := s.relocatedContexts
  waiting := []

theorem eq_copier_of_copies {mem : Memory} {P : Root → Prop} {s : Survey} {k : Copier}
    (h : Copies mem P s.order.size s.traced s k) (hwaiting : s.waiting = []) : k = s.copier := by
  have htarget : k.target = s.survivors := by
    apply Array.ext_getElem?
    intro j
    rw [h.target j, survivors, Array.getElem?_map]
    cases hi : s.order[j]? with
    | none => rfl
    | some i =>
      have hlt : i < s.space.size := by
        rw [h.charts.size_space]
        exact h.charts.lt_size (Array.mem_iff_getElem?.mpr ⟨j, hi⟩)
      have ho := Array.getElem?_eq_getElem hlt
      rw [Option.map_some, Option.map_some, if_pos (Array.getElem?_eq_some_iff.mp hi).1, ho,
        Option.getD_some, h.charts.survivor_eq ho]
  have hcontexts : k.contexts = s.relocatedContexts := by
    apply Array.ext_getElem?
    intro id
    rw [h.contexts id, relocatedContexts, ← Array.foldl_toList,
      getElem?_foldl_modify _ _ h.charts.distinct]
    by_cases hid : id ∈ s.traced <;> simp [hid]
  rw [copier, ← h.epoch, ← h.source, ← htarget, ← hcontexts, ← hwaiting, ← h.waiting]

theorem copies_start (mem : Memory) (P : Root → Prop) :
    Copies mem P 0 #[] (start (mem.collections + 1) mem)
      (Copier.start (mem.collections + 1) mem) where
  charts := charts_start mem P
  epoch := rfl
  waiting := rfl
  source := by simp [Copier.start, start, HeapObject.hollow, Function.comp_def]
  bound := Nat.zero_le _
  target j := by simp [Copier.start, start]
  scanned j i hj := absurd hj (Nat.not_lt_zero j)
  contexts id := by simp [Copier.start, start]
  traced id hid := absurd hid (Array.not_mem_empty id)

end Survey

open Survey in
/-- Copying while scanning leaves what the survey lays out, or stops at the same fault:
the copies, the contexts and the roots have the values that relocation gives them. -/
theorem copying_is_surveying {mem : Memory} {roots : List Root}
    (hfresh : mem.UnmarkedFrom roots) :
    (Copier.start (mem.collections + 1) mem).complete roots =
      ((start (mem.collections + 1) mem).complete roots).map fun s =>
        (roots.map (Root.map s.relocate), s.copier) := by
  have hroots := (copies_start mem (mem.Reaches roots)).roots roots fun r hr => .root hr
  rw [Copier.complete, Survey.complete]
  cases hv : (start (mem.collections + 1) mem).visitAll roots with
  | error f =>
    rw [hv] at hroots
    rw [show _ = Except.error f from hroots]
    rfl
  | ok s =>
    rw [hv] at hroots
    obtain ⟨k, hk, hcopies⟩ := hroots
    obtain ⟨hcharts, hfollowed, htraced, hless⟩ := followed_of_visitAll hv
    have hbound : 2 * k.source.size + 2 * k.contexts.size + k.waiting.length + 1 = s.scanBound := by
      rw [hcopies.source, Array.size_map, hcopies.size_contexts, hcopies.waiting, scanBound]
    have hscan := Copies.scan hfresh s.scanBound 0 s k hfollowed (htraced ▸ hcopies) hless
    simp only [hk]
    change (Copier.scan (2 * k.source.size + 2 * k.contexts.size + k.waiting.length + 1) 0 k >>=
      fun k => pure (roots.map (Root.map s.relocate), k)) = (s.scan s.scanBound 0).map _
    rw [hbound]
    cases hs : s.scan s.scanBound 0 with
    | error f =>
      rw [hs] at hscan
      rw [show _ = Except.error f from hscan]
      rfl
    | ok t =>
      rw [hs] at hscan
      obtain ⟨⟨k', hk', hcopies'⟩, horder, hwaiting⟩ := hscan
      have hsame : roots.map (Root.map s.relocate) = roots.map (Root.map t.relocate) := by
        refine List.map_congr_left fun r hr => ?_
        exact (hcharts.map_relocate_eq hcopies'.charts horder (hfollowed.roots _ hr)).symm
      rw [hk', eq_copier_of_copies hcopies' hwaiting, hsame]
      rfl

/-- A collection is what a copier that rewrites while it scans has made. -/
theorem Memory.copied_of_collect {mem : Memory} {roots : List Root}
    (hfresh : mem.UnmarkedFrom roots) {c : Collection} (h : mem.collect roots = .ok c) :
    ∃ k, (Copier.start (mem.collections + 1) mem).complete roots =
        .ok (roots.map (Root.map c.survey.relocate), k) ∧
      k.target = c.memory.objects ∧ k.contexts = c.memory.contexts := by
  rw [copying_is_surveying hfresh]
  cases hs : (Survey.start (mem.collections + 1) mem).complete roots with
  | error f =>
    rw [collect_of_fault hs] at h
    cases h
  | ok s =>
    rw [collect_of_complete hs] at h
    split_ifs at h <;> cases h <;> exact ⟨s.copier, rfl, rfl, rfl⟩

end ObjectMachine

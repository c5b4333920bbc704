import ObjectMachine.Proofs.Edges
import Mathlib.Data.List.Nodup
import Mathlib.Data.Finset.Card

/-!
# What a survey finds

A root leads to the edges of the object or context it names. `Memory.Reaches`
is the closure of a list of roots under that, read from the memory as it is
before the collection. A survey that ends without a fault has met exactly the
objects and traced exactly the contexts that are reached, and it always ends:
every step takes an object or a waiting context off a finite amount of work.
-/

namespace ObjectMachine

namespace Memory

def next (mem : Memory) : Root → List Root
  | .value (.pointer i) => (mem.objects[i]?.map HeapObject.roots).getD []
  | .value _ => []
  | .context id => (mem.contexts[id]?.map Context.roots).getD []

/-- Everything that the roots lead to in any number of steps. -/
inductive Reaches (mem : Memory) (roots : List Root) : Root → Prop
  | root {r : Root} : r ∈ roots → Reaches mem roots r
  | step {r s : Root} : Reaches mem roots r → s ∈ mem.next r → Reaches mem roots s

/-- The root refers to no object outside the memory. -/
def InRange (mem : Memory) : Root → Prop
  | .value (.pointer i) => i < mem.objects.size
  | _ => True

/-- No context carries the number of the coming collection. -/
def Unmarked (mem : Memory) : Prop :=
  ∀ (id : ContextId) (c : Context), mem.contexts[id]? = some c → c.epoch ≠ mem.collections + 1

/-- No context that the roots reach carries the number of the coming collection. -/
def UnmarkedFrom (mem : Memory) (roots : List Root) : Prop :=
  ∀ (id : ContextId) (c : Context), mem.Reaches roots (.context id) →
    mem.contexts[id]? = some c → c.epoch ≠ mem.collections + 1

theorem Unmarked.unmarkedFrom {mem : Memory} (h : mem.Unmarked) (roots : List Root) :
    mem.UnmarkedFrom roots :=
  fun id c _ => h id c

theorem next_of_immediate {mem : Memory} {v : Value} (h : v.isPointer = false) :
    mem.next (.value v) = [] := by
  cases v with
  | pointer i => exact absurd h (by simp [Value.isPointer])
  | _ => rfl

theorem inRange_of_immediate {mem : Memory} {v : Value} (h : v.isPointer = false) :
    mem.InRange (.value v) := by
  cases v with
  | pointer i => exact absurd h (by simp [Value.isPointer])
  | _ => trivial

theorem mem_next_pointer {mem : Memory} {i : Nat} {o : HeapObject}
    (ho : mem.objects[i]? = some o) : mem.next (.value (.pointer i)) = o.roots := by
  simp [next, ho]

theorem mem_next_context {mem : Memory} {id : ContextId} {c : Context}
    (hc : mem.contexts[id]? = some c) : mem.next (.context id) = c.roots := by
  simp [next, hc]

end Memory

/-- Arrays that are defined at the same places have the same size. -/
theorem size_eq_of_isSome_eq {α β : Type} {xs : Array α} {ys : Array β}
    (h : ∀ i : Nat, xs[i]?.isSome = ys[i]?.isSome) : xs.size = ys.size := by
  have h₁ := h xs.size
  have h₂ := h ys.size
  rw [Array.getElem?_eq_none (le_refl xs.size)] at h₁
  rw [Array.getElem?_eq_none (le_refl ys.size)] at h₂
  simp only [Option.isSome_none, Option.isSome_eq_false_iff, Option.isNone_iff_eq_none,
    Bool.false_eq, Array.getElem?_eq_none_iff] at h₁ h₂
  omega

namespace Root

def isContext : Root → Bool
  | value _ => false
  | context _ => true

end Root

theorem HeapObject.countP_roots_le (o : HeapObject) : o.roots.countP Root.isContext ≤ 1 := by
  have hv : (o.edges.map Root.value).countP Root.isContext = 0 := by
    simp [List.countP_eq_zero, Root.isContext]
  rw [roots, List.countP_append, hv]
  cases o.body.outer? <;> simp [Root.isContext]

theorem Context.countP_roots_le (c : Context) : c.roots.countP Root.isContext ≤ 2 := by
  have hv : (c.edges.map Root.value).countP Root.isContext = 0 := by
    simp [List.countP_eq_zero, Root.isContext]
  rw [roots, List.countP_append, List.countP_append, hv]
  cases c.sender <;> cases c.outer <;> simp [Root.isContext]

namespace Survey

/-- The survey agrees with the memory it surveys and has only met what
satisfies `P`. -/
structure Charts (mem : Memory) (P : Root → Prop) (s : Survey) : Prop where
  epoch : s.epoch = mem.collections + 1
  space : ∀ i : Nat,
    (s.space[i]?).map HeapObject.survivor = (mem.objects[i]?).map HeapObject.survivor
  forward : ∀ i k : Nat,
    ((s.space[i]?).bind fun o => o.header.forward) = some k ↔ s.order[k]? = some i
  met : ∀ i ∈ s.order, P (.value (.pointer i))
  contexts : ∀ id : ContextId,
    s.contexts[id]? =
      (mem.contexts[id]?).map fun c => if id ∈ s.traced then { c with epoch := s.epoch } else c
  distinct : s.traced.toList.Nodup
  traced : ∀ id ∈ s.traced, P (.context id) ∧ id < mem.contexts.size
  waiting : ∀ id ∈ s.waiting, P (.context id)

/-- The survey knows of the root: the object has its new place, the context is
traced or waits, or there is nothing to follow. -/
def Met (mem : Memory) (s : Survey) : Root → Prop
  | .value (.pointer i) => i ∈ s.order
  | .value _ => True
  | .context id => id ∈ s.waiting ∨ id ∈ s.traced ∨ mem.contexts.size ≤ id

/-- What a survey only ever adds to. -/
structure Grows (s t : Survey) : Prop where
  order : ∀ k i : Nat, s.order[k]? = some i → t.order[k]? = some i
  traced : t.traced = s.traced
  waiting : ∀ id ∈ s.waiting, id ∈ t.waiting

/-- A fault that only a dangling reference among `P` explains. -/
def Dangles (mem : Memory) (P : Root → Prop) (f : Fault) : Prop :=
  ∃ i : Nat, P (.value (.pointer i)) ∧ mem.objects.size ≤ i ∧ f = .danglingReference (.pointer i)

variable {mem : Memory} {P : Root → Prop} {s t u : Survey}

theorem Grows.refl (s : Survey) : Grows s s := ⟨fun _ _ h => h, rfl, fun _ h => h⟩

theorem Grows.trans (h : Grows s t) (h' : Grows t u) : Grows s u where
  order k i hi := h'.order k i (h.order k i hi)
  traced := h'.traced.trans h.traced
  waiting id hid := h'.waiting id (h.waiting id hid)

theorem Grows.mem_order (h : Grows s t) {i : Nat} (hi : i ∈ s.order) : i ∈ t.order := by
  obtain ⟨k, hk⟩ := Array.mem_iff_getElem?.mp hi
  exact Array.mem_iff_getElem?.mpr ⟨k, h.order k i hk⟩

theorem Met.mono {r : Root} (hr : Met mem s r) (horder : ∀ i ∈ s.order, i ∈ t.order)
    (hcontext : ∀ id, Met mem s (.context id) → Met mem t (.context id)) : Met mem t r := by
  cases r with
  | context id => exact hcontext id hr
  | value v =>
    cases v with
    | pointer i => exact horder i hr
    | _ => trivial

theorem Grows.met (h : Grows s t) {r : Root} (hr : Met mem s r) : Met mem t r := by
  refine hr.mono (fun i => h.mem_order) ?_
  rintro id (hid | hid | hid)
  · exact .inl (h.waiting id hid)
  · exact .inr (.inl (h.traced ▸ hid))
  · exact .inr (.inr hid)

namespace Charts

variable (h : Charts mem P s)

include h

theorem size_space : s.space.size = mem.objects.size := by
  apply size_eq_of_isSome_eq
  intro i
  simpa using congrArg Option.isSome (h.space i)

theorem lt_size {i : Nat} (hi : i ∈ s.order) : i < mem.objects.size := by
  obtain ⟨k, hk⟩ := Array.mem_iff_getElem?.mp hi
  have hf := (h.forward i k).mpr hk
  rw [← h.size_space]
  by_contra hlt
  simp [Array.getElem?_eq_none (not_lt.mp hlt)] at hf

theorem nodup_order : s.order.toList.Nodup := by
  rw [List.nodup_iff_getElem?_ne_getElem?]
  intro k l hkl hl heq
  simp only [Array.getElem?_toList] at heq
  have hl' : l < s.order.size := by simpa using hl
  obtain ⟨i, hi⟩ : ∃ i, s.order[l]? = some i := ⟨s.order[l], by simp [hl']⟩
  have hk := (h.forward i k).mpr (heq.trans hi)
  have hl := (h.forward i l).mpr hi
  rw [hk] at hl
  exact absurd (Option.some.inj hl) (Nat.ne_of_lt hkl)

theorem size_order_le : s.order.size ≤ mem.objects.size := by
  have hsub : s.order.toList ⊆ List.range mem.objects.size := by
    intro i hi
    exact List.mem_range.mpr (h.lt_size (by simpa using hi))
  have hle := (h.nodup_order.subperm hsub).length_le
  simpa using hle

theorem size_traced_le : s.traced.size ≤ mem.contexts.size := by
  have hsub : s.traced.toList ⊆ List.range mem.contexts.size := by
    intro id hid
    exact List.mem_range.mpr (h.traced id (by simpa using hid)).2
  have hle := (h.distinct.subperm hsub).length_le
  simpa using hle

theorem size_contexts : s.contexts.size = mem.contexts.size := by
  apply size_eq_of_isSome_eq
  intro id
  simpa using congrArg Option.isSome (h.contexts id)

/-- The surveyed space holds the old roots of every object. -/
theorem roots_space (i : Nat) :
    ((s.space[i]?).map HeapObject.roots).getD [] = mem.next (.value (.pointer i)) := by
  have hi := congrArg (Option.map HeapObject.roots) (h.space i)
  simp only [Option.map_map, Function.comp_def, HeapObject.roots_survivor] at hi
  rw [hi, Memory.next]

end Charts

/-- What visiting `roots` leaves: everything visited is met, one more context
waits for each one visited, and only a dangling reference stops the visit. -/
def Visited (mem : Memory) (P : Root → Prop) (s : Survey) (roots : List Root) :
    Except Fault Survey → Prop
  | .ok t =>
    Charts mem P t ∧ Grows s t ∧ (∀ r ∈ roots, Met mem t r) ∧
      t.waiting.length = s.waiting.length + roots.countP Root.isContext
  | .error f => Dangles mem P f

/-- The survey once it has met the object at `i`, which gets the next free place. -/
def assign (s : Survey) (i : Nat) : Survey :=
  { s with
    space := s.space.modify i fun o => { o with header := o.header.setForward s.order.size }
    order := s.order.push i }

theorem Charts.assign (h : Charts mem P s) {i : Nat} (hP : P (.value (.pointer i)))
    {o : HeapObject} (ho : s.space[i]? = some o) (hf : o.header.forward = none) :
    Charts mem P (s.assign i) where
  epoch := h.epoch
  space j := by
    rw [← h.space j]
    by_cases hij : i = j
    · subst hij
      simp [Survey.assign, Array.getElem?_modify, ho, HeapObject.survivor, Header.survivor,
        Header.setForward]
    · simp [Survey.assign, Array.getElem?_modify, hij]
  forward j k := by
    have hnew : ∀ k : Nat, s.order[k]? ≠ some i := by
      intro k hk
      have := (h.forward i k).mpr hk
      simp [ho, hf] at this
    have hold := h.forward j k
    by_cases hij : i = j
    · subst hij
      simp only [Survey.assign, Array.getElem?_modify, ho, Array.getElem?_push]
      by_cases hk : k = s.order.size
      · simp [hk]
      · simp [hk, hnew k, Ne.symm hk]
    · simp only [Survey.assign, Array.getElem?_modify, hij, if_false, Array.getElem?_push, hold]
      by_cases hk : k = s.order.size
      · simp [hk, hij]
      · simp [hk]
  met j hj := by
    rcases Array.mem_push.mp hj with hj | rfl
    · exact h.met j hj
    · exact hP
  contexts := h.contexts
  distinct := h.distinct
  traced := h.traced
  waiting := h.waiting

section

variable {i : Nat} (h : Charts mem P s)

include h

theorem Charts.meet_of_mem (hi : i ∈ s.order) : s.meet (.pointer i) = .ok s := by
  obtain ⟨k, hk⟩ := Array.mem_iff_getElem?.mp hi
  obtain ⟨o, ho, hf⟩ := Option.bind_eq_some_iff.mp ((h.forward i k).mpr hk)
  simp [meet, ho, hf]

theorem Charts.meet_of_dangling (hi : mem.objects.size ≤ i) :
    s.meet (.pointer i) = .error (.danglingReference (.pointer i)) := by
  rw [← h.size_space] at hi
  simp [meet, Array.getElem?_eq_none hi]

theorem Charts.meet_of_not_mem (hlt : i < mem.objects.size) (hi : i ∉ s.order)
    (hP : P (.value (.pointer i))) :
    s.meet (.pointer i) = .ok (s.assign i) ∧ Charts mem P (s.assign i) := by
  rw [← h.size_space] at hlt
  have ho := Array.getElem?_eq_getElem hlt
  have hf : s.space[i].header.forward = none := by
    cases hf : s.space[i].header.forward with
    | none => rfl
    | some k =>
      have hk := (h.forward i k).mp (by simp [hlt, hf])
      exact absurd (Array.mem_iff_getElem?.mpr ⟨k, hk⟩) hi
  exact ⟨by simp [meet, Survey.assign, ho, hf], h.assign hP ho hf⟩

end

theorem meet_spec (h : Charts mem P s) {v : Value} (hP : P (.value v)) :
    Visited mem P s [.value v] (s.meet v) := by
  cases v with
  | pointer i =>
    by_cases hlt : i < mem.objects.size
    · by_cases hi : i ∈ s.order
      · rw [h.meet_of_mem hi]
        exact ⟨h, Grows.refl s, by simpa [Met] using hi, by simp [Root.isContext]⟩
      · obtain ⟨hmeet, hcharts⟩ := h.meet_of_not_mem hlt hi hP
        rw [hmeet]
        refine ⟨hcharts, ⟨?_, rfl, fun _ hid => hid⟩, ?_, by simp [assign, Root.isContext]⟩
        · intro k j hk
          have hlt : k < s.order.size := (Array.getElem?_eq_some_iff.mp hk).1
          rw [assign, Array.getElem?_push, if_neg (Nat.ne_of_lt hlt)]
          exact hk
        · simp [assign, Met]
    · rw [h.meet_of_dangling (not_lt.mp hlt)]
      exact ⟨i, hP, not_lt.mp hlt, rfl⟩
  | _ => exact ⟨h, Grows.refl s, by simp [Met], by simp [Root.isContext]⟩

theorem visit_spec (h : Charts mem P s) {r : Root} (hP : P r) :
    Visited mem P s [r] (s.visit r) := by
  cases r with
  | value v => exact meet_spec h hP
  | context id =>
    refine ⟨⟨h.epoch, h.space, h.forward, h.met, h.contexts, h.distinct, h.traced, ?_⟩,
      ⟨fun _ _ hk => hk, rfl, fun _ hid => List.mem_cons_of_mem _ hid⟩, ?_, ?_⟩
    · intro id' hid
      rcases List.mem_cons.mp hid with rfl | hid
      · exact hP
      · exact h.waiting id' hid
    · simp [Met]
    · simp [Root.isContext]

theorem visitAll_spec (h : Charts mem P s) (roots : List Root) (hP : ∀ r ∈ roots, P r) :
    Visited mem P s roots (s.visitAll roots) := by
  induction roots generalizing s with
  | nil => exact ⟨h, Grows.refl s, by simp, by simp⟩
  | cons r rest ih =>
    have hfirst := visit_spec h (hP r (List.mem_cons_self ..))
    rw [visitAll, List.foldlM_cons]
    cases hv : s.visit r with
    | error f =>
      rw [hv] at hfirst
      exact hfirst
    | ok t =>
      rw [hv] at hfirst
      obtain ⟨ht, hgrow, hmet, hcount⟩ := hfirst
      have hrest := ih ht fun r' hr' => hP r' (List.mem_cons_of_mem _ hr')
      change Visited mem P s (r :: rest) (t.visitAll rest)
      cases hw : t.visitAll rest with
      | error f =>
        rw [hw] at hrest
        exact hrest
      | ok u =>
        rw [hw] at hrest
        obtain ⟨hu, hgrow', hmet', hcount'⟩ := hrest
        refine ⟨hu, hgrow.trans hgrow', ?_, ?_⟩
        · intro r' hr'
          rcases List.mem_cons.mp hr' with rfl | hr'
          · exact hgrow'.met (hmet r' (List.mem_cons_self ..))
          · exact hmet' r' hr'
        · rw [hcount', hcount, List.countP_cons, List.countP_cons, List.countP_nil]
          omega

/-- The roots, the first `n` met objects and the traced contexts have been
followed. -/
structure Followed (mem : Memory) (roots : List Root) (n : Nat) (s : Survey) : Prop where
  bound : n ≤ s.order.size
  roots : ∀ r ∈ roots, Met mem s r
  scanned : ∀ k i : Nat, k < n → s.order[k]? = some i →
    ∀ r ∈ mem.next (.value (.pointer i)), Met mem s r
  traced : ∀ id ∈ s.traced, ∀ r ∈ mem.next (.context id), Met mem s r

/-- Two for every object not yet scanned and every context not yet traced, one
for every context that waits. -/
def remaining (mem : Memory) (n : Nat) (s : Survey) : Nat :=
  2 * (mem.objects.size - n) + 2 * (mem.contexts.size - s.traced.size) + s.waiting.length

variable {roots : List Root} {n : Nat}

/-- What has been followed stays so while the survey adds to its order and
follows every context that it traces. -/
theorem Followed.extend (h : Followed mem roots n s)
    (horder : ∀ k i : Nat, s.order[k]? = some i → t.order[k]? = some i)
    (hmet : ∀ r, Met mem s r → Met mem t r)
    (htraced : ∀ id ∈ t.traced, id ∈ s.traced ∨ ∀ r ∈ mem.next (.context id), Met mem t r) :
    Followed mem roots n t where
  bound := by
    have hb := h.bound
    by_contra hlt
    have hn : n - 1 < s.order.size := by omega
    have hk := horder (n - 1) s.order[n - 1] (by simp [hn])
    have := (Array.getElem?_eq_some_iff.mp hk).1
    omega
  roots r hr := hmet r (h.roots r hr)
  scanned k i hk hi r hr := by
    have hks : k < s.order.size := lt_of_lt_of_le hk h.bound
    have hsi := Array.getElem?_eq_getElem hks
    have hi' := horder k s.order[k] hsi
    rw [hi] at hi'
    rw [← Option.some.inj hi'] at hsi
    exact hmet r (h.scanned k i hk hsi r hr)
  traced id hid r hr := by
    rcases htraced id hid with hold | hnew
    · exact hmet r (h.traced id hold r hr)
    · exact hnew r hr

theorem Followed.grow (h : Followed mem roots n s) (hgrow : Grows s t) : Followed mem roots n t :=
  h.extend hgrow.order (fun _ => hgrow.met) fun _ hid => .inl (hgrow.traced ▸ hid)

theorem scan_object (h : Charts mem (mem.Reaches roots) s) (hf : Followed mem roots n s) {i : Nat}
    (hi : s.order[n]? = some i) :
    match s.visitAll ((s.space[i]?.map HeapObject.roots).getD []) with
    | .ok t => Charts mem (mem.Reaches roots) t ∧ Followed mem roots (n + 1) t ∧
        remaining mem (n + 1) t < remaining mem n s
    | .error f => Dangles mem (mem.Reaches roots) f := by
  have hmem : i ∈ s.order := Array.mem_iff_getElem?.mpr ⟨n, hi⟩
  have hlt := h.lt_size hmem
  have hn : n < s.order.size := (Array.getElem?_eq_some_iff.mp hi).1
  have hnext := Memory.mem_next_pointer (Array.getElem?_eq_getElem hlt)
  rw [h.roots_space i]
  have hspec := visitAll_spec h (mem.next (.value (.pointer i)))
    fun r hr => .step (h.met i hmem) hr
  cases hv : s.visitAll (mem.next (.value (.pointer i))) with
  | error f =>
    rw [hv] at hspec
    exact hspec
  | ok t =>
    rw [hv] at hspec
    obtain ⟨ht, hgrow, hmet, hcount⟩ := hspec
    have hold := hf.grow hgrow
    refine ⟨ht, ⟨?_, hold.roots, ?_, hold.traced⟩, ?_⟩
    · exact (Array.getElem?_eq_some_iff.mp (hgrow.order n i hi)).1
    · intro k j hk hj r hr
      rcases Nat.lt_succ_iff_lt_or_eq.mp hk with hk | rfl
      · exact hold.scanned k j hk hj r hr
      · rw [hgrow.order k i hi] at hj
        cases hj
        exact hmet r hr
    · have hle : n < mem.objects.size := lt_of_lt_of_le hn h.size_order_le
      have hone := HeapObject.countP_roots_le mem.objects[i]
      rw [hnext] at hcount
      simp only [remaining, hgrow.traced, hcount]
      omega

/-- A waiting context that needs no visit can be dropped. -/
theorem Followed.drop (h : Followed mem roots n s) {id : ContextId} {rest : List ContextId}
    (hw : s.waiting = id :: rest) (hdone : id ∈ s.traced ∨ mem.contexts.size ≤ id) :
    Followed mem roots n { s with waiting := rest } := by
  refine h.extend (fun _ _ hk => hk) ?_ fun _ hid => .inl hid
  intro r hr
  refine hr.mono (fun _ hi => hi) ?_
  rintro id' (hid | hid)
  · rw [hw] at hid
    rcases List.mem_cons.mp hid with rfl | hid
    · exact .inr hdone
    · exact .inl hid
  · exact .inr hid

/-- The survey once it follows the context `id`, which waited before `rest`. -/
def follow (s : Survey) (id : ContextId) (rest : List ContextId) : Survey :=
  { s with
    contexts := s.contexts.modify id fun c => { c with epoch := s.epoch }
    traced := s.traced.push id
    waiting := rest }

/-- A context traced for the first time carries the number of the collection. -/
theorem Charts.mark (h : Charts mem P s) {id : ContextId} {rest : List ContextId} {c : Context}
    (hw : s.waiting = id :: rest) (hc : mem.contexts[id]? = some c) (hid : id ∉ s.traced) :
    Charts mem P (s.follow id rest) where
  epoch := h.epoch
  space := h.space
  forward := h.forward
  met := h.met
  contexts id' := by
    simp only [follow, Array.getElem?_modify, h.contexts id', Array.mem_push]
    by_cases heq : id = id'
    · subst heq
      simp [hc, hid]
    · simp [heq, Ne.symm heq]
  distinct := by
    simpa [follow, List.nodup_append] using ⟨h.distinct, fun a ha heq => hid (heq ▸ ha)⟩
  traced id' hid' := by
    rcases Array.mem_push.mp hid' with hold | rfl
    · exact h.traced id' hold
    · exact ⟨h.waiting id' (by simp [hw]), (Array.getElem?_eq_some_iff.mp hc).1⟩
  waiting id' hid' := h.waiting id' (hw ▸ List.mem_cons_of_mem _ hid')

theorem Charts.skip (h : Charts mem P s) {id : ContextId} {rest : List ContextId}
    (hw : s.waiting = id :: rest) : Charts mem P { s with waiting := rest } :=
  ⟨h.epoch, h.space, h.forward, h.met, h.contexts, h.distinct, h.traced,
    fun id' hid => h.waiting id' (by simp [hw, hid])⟩

/-- A context that has been traced, or is none, is passed over. -/
theorem Charts.trace_eq_skip (h : Charts mem P s) {id : ContextId}
    (hdone : id ∈ s.traced ∨ mem.contexts.size ≤ id) (rest : List ContextId) :
    trace { s with waiting := rest } id = .ok { s with waiting := rest } := by
  cases hc : mem.contexts[id]? with
  | none => simp [trace, h.contexts id, hc]
  | some c =>
    have hlt := (Array.getElem?_eq_some_iff.mp hc).1
    have hid : id ∈ s.traced := hdone.resolve_right (not_le.mpr hlt)
    simp [trace, h.contexts id, hc, hid]

/-- A context that has not been traced is followed, if it has not been marked
beforehand. -/
theorem Charts.trace_eq_follow (h : Charts mem P s) {id : ContextId} {c : Context}
    (hc : mem.contexts[id]? = some c) (hid : id ∉ s.traced)
    (hepoch : c.epoch ≠ mem.collections + 1) (rest : List ContextId) :
    trace { s with waiting := rest } id =
      (s.follow id rest).visitAll (mem.next (.context id)) := by
  rw [← h.epoch] at hepoch
  simp [trace, follow, h.contexts id, hc, hid, hepoch, Memory.mem_next_context hc]

/-- Looking at a waiting context for the first time. -/
theorem scan_untraced (h : Charts mem (mem.Reaches roots) s) (hf : Followed mem roots n s)
    (hfresh : mem.UnmarkedFrom roots) {id : ContextId} {rest : List ContextId}
    (hw : s.waiting = id :: rest) {c : Context} (hc : mem.contexts[id]? = some c)
    (hid : id ∉ s.traced) :
    match trace { s with waiting := rest } id with
    | .ok t => Charts mem (mem.Reaches roots) t ∧ Followed mem roots n t ∧
        remaining mem n t < remaining mem n s
    | .error f => Dangles mem (mem.Reaches roots) f := by
  have hreach : mem.Reaches roots (.context id) := h.waiting id (by simp [hw])
  have hnext := Memory.mem_next_context hc
  have hspec := visitAll_spec (h.mark hw hc hid) (mem.next (.context id)) fun r hr =>
    .step hreach hr
  rw [h.trace_eq_follow hc hid (hfresh id c hreach hc)]
  revert hspec
  generalize visitAll _ (mem.next (.context id)) = result
  intro hspec
  cases result with
  | error f => exact hspec
  | ok t =>
    obtain ⟨ht, hgrow, hmet, hcount⟩ := hspec
    refine ⟨ht, hf.extend hgrow.order ?_ ?_, ?_⟩
    · intro r hr
      apply hgrow.met
      refine hr.mono (fun _ hi => hi) ?_
      rintro id' (hid' | hid' | hid')
      · rw [hw] at hid'
        rcases List.mem_cons.mp hid' with rfl | hid'
        · exact .inr (.inl Array.mem_push_self)
        · exact .inl hid'
      · exact .inr (.inl (Array.mem_push_of_mem id hid'))
      · exact .inr (.inr hid')
    · intro id' hid'
      rw [hgrow.traced] at hid'
      rcases Array.mem_push.mp hid' with hold | rfl
      · exact .inl hold
      · exact .inr hmet
    · have htwo := Context.countP_roots_le c
      have hroom := ht.size_traced_le
      rw [hnext] at hcount
      simp only [hgrow.traced, follow, Array.size_push] at hroom
      simp only [remaining, hgrow.traced, hcount, hw, follow, List.length_cons, Array.size_push]
      omega

theorem scan_context (h : Charts mem (mem.Reaches roots) s) (hf : Followed mem roots n s)
    (hfresh : mem.UnmarkedFrom roots) {id : ContextId} {rest : List ContextId}
    (hw : s.waiting = id :: rest) :
    match trace { s with waiting := rest } id with
    | .ok t => Charts mem (mem.Reaches roots) t ∧ Followed mem roots n t ∧
        remaining mem n t < remaining mem n s
    | .error f => Dangles mem (mem.Reaches roots) f := by
  by_cases hdone : id ∈ s.traced ∨ mem.contexts.size ≤ id
  · have hless : remaining mem n { s with waiting := rest } < remaining mem n s := by
      simp only [remaining, hw, List.length_cons]
      omega
    rw [h.trace_eq_skip hdone]
    exact ⟨h.skip hw, hf.drop hw hdone, hless⟩
  · rw [not_or, not_le] at hdone
    exact scan_untraced h hf hfresh hw (Array.getElem?_eq_getElem hdone.2) hdone.1

/-- A survey that has met and traced exactly what the roots reach. -/
structure Complete (mem : Memory) (roots : List Root) (s : Survey) : Prop where
  charts : Charts mem (mem.Reaches roots) s
  order : ∀ i : Nat, i ∈ s.order ↔ mem.Reaches roots (.value (.pointer i))
  traced : ∀ id : ContextId,
    id ∈ s.traced ↔ mem.Reaches roots (.context id) ∧ id < mem.contexts.size

/-- When nothing waits and everything met has been followed, everything reached
has been met. -/
theorem Followed.complete (h : Charts mem (mem.Reaches roots) s)
    (hf : Followed mem roots s.order.size s) (hw : s.waiting = []) : Complete mem roots s := by
  have hmet : ∀ r, mem.Reaches roots r → Met mem s r := by
    intro r hr
    induction hr with
    | root hr => exact hf.roots _ hr
    | @step r r' _ hnext ih =>
      cases r with
      | value v =>
        cases v with
        | pointer i =>
          obtain ⟨k, hk⟩ := Array.mem_iff_getElem?.mp ih
          exact hf.scanned k i (Array.getElem?_eq_some_iff.mp hk).1 hk _ hnext
        | _ => exact absurd hnext (List.not_mem_nil)
      | context id =>
        rcases ih with hid | hid | hid
        · simp [hw] at hid
        · exact hf.traced id hid _ hnext
        · simp [Memory.next, Array.getElem?_eq_none hid] at hnext
  refine ⟨h, fun i => ⟨h.met i, fun hi => hmet _ hi⟩, fun id => ⟨h.traced id, ?_⟩⟩
  rintro ⟨hid, hlt⟩
  rcases hmet _ hid with hid | hid | hid
  · simp [hw] at hid
  · exact hid
  · exact absurd hlt (Nat.not_lt.mpr hid)

theorem scan_spec (hfresh : mem.UnmarkedFrom roots) (fuel : Nat) :
    ∀ (n : Nat) (s : Survey), Charts mem (mem.Reaches roots) s → Followed mem roots n s →
      remaining mem n s < fuel →
      match s.scan fuel n with
      | .ok t => Complete mem roots t
      | .error f => Dangles mem (mem.Reaches roots) f := by
  induction fuel with
  | zero => intro n s _ _ hfuel; omega
  | succ fuel ih =>
    intro n s h hf hfuel
    rw [scan]
    cases hn : s.order[n]? with
    | some i =>
      have hstep := scan_object h hf hn
      cases hv : s.visitAll ((s.space[i]?.map HeapObject.roots).getD []) with
      | error f =>
        rw [hv] at hstep
        simp only [hv]
        exact hstep
      | ok t =>
        rw [hv] at hstep
        obtain ⟨ht, hft, hless⟩ := hstep
        simp only [hv]
        exact ih (n + 1) t ht hft (by omega)
    | none =>
      have hall : n = s.order.size := by
        have := Array.getElem?_eq_none_iff.mp hn
        have := hf.bound
        omega
      cases hw : s.waiting with
      | nil => exact Followed.complete h (hall ▸ hf) hw
      | cons id rest =>
        have hstep := scan_context h hf hfresh hw
        cases hv : trace { s with waiting := rest } id with
        | error f =>
          rw [hv] at hstep
          simp only [hv]
          exact hstep
        | ok t =>
          rw [hv] at hstep
          obtain ⟨ht, hft, hless⟩ := hstep
          simp only [hv]
          exact ih n t ht hft (by omega)

theorem charts_start (mem : Memory) (P : Root → Prop) :
    Charts mem P (start (mem.collections + 1) mem) where
  epoch := rfl
  space i := by
    cases hi : mem.objects[i]? <;>
      simp [start, hi, HeapObject.survivor, Header.survivor, Header.clearMoved]
  forward i k := by
    cases hi : mem.objects[i]? <;> simp [start, hi]
  met i hi := by simp [start] at hi
  contexts id := by simp [start]
  distinct := by simp [start]
  traced id hid := by simp [start] at hid
  waiting id hid := by simp [start] at hid

/-- Where a scan begins: the roots have been visited, and the bound on its turns is
more than it needs. -/
theorem followed_of_visitAll (hv : (start (mem.collections + 1) mem).visitAll roots = .ok s) :
    Charts mem (mem.Reaches roots) s ∧ Followed mem roots 0 s ∧ s.traced = #[] ∧
      remaining mem 0 s < s.scanBound := by
  have hspec := visitAll_spec (charts_start mem (mem.Reaches roots)) roots fun r hr => .root hr
  rw [hv] at hspec
  obtain ⟨h, hgrow, hmet, -⟩ := hspec
  have htraced : s.traced = #[] := hgrow.traced
  refine ⟨h, ⟨Nat.zero_le _, hmet, ?_, ?_⟩, htraced, ?_⟩
  · intro k i hk
    omega
  · intro id hid
    simp [htraced] at hid
  · simp only [remaining, scanBound, htraced, h.size_space, h.size_contexts, List.size_toArray,
      List.length_nil]
    omega

/-- A whole survey meets exactly what the roots reach, or stops at a reference
among that which dangles. -/
theorem complete_spec (hfresh : mem.UnmarkedFrom roots) :
    match (start (mem.collections + 1) mem).complete roots with
    | .ok t => Complete mem roots t
    | .error f => Dangles mem (mem.Reaches roots) f := by
  unfold complete
  cases hv : (start (mem.collections + 1) mem).visitAll roots with
  | error f =>
    have hspec := visitAll_spec (charts_start mem (mem.Reaches roots)) roots fun r hr => .root hr
    rw [hv] at hspec
    exact hspec
  | ok t =>
    obtain ⟨ht, hfollowed, -, hbound⟩ := followed_of_visitAll hv
    exact scan_spec hfresh t.scanBound 0 t ht hfollowed hbound

/-- Whatever the contexts carry, a survey gives each object that it meets one place,
and stops only at a reference outside the memory. -/
def GoesOn (mem : Memory) : Except Fault Survey → Prop
  | .ok t => Charts mem (fun _ => True) t
  | .error f => Dangles mem (fun _ => True) f

theorem visitAll_goesOn (h : Charts mem (fun _ => True) s) (roots : List Root) :
    GoesOn mem (s.visitAll roots) := by
  have hspec := visitAll_spec h roots fun _ _ => trivial
  cases hv : s.visitAll roots with
  | error f =>
    rw [hv] at hspec
    exact hspec
  | ok t =>
    rw [hv] at hspec
    exact hspec.1

theorem trace_goesOn (h : Charts mem (fun _ => True) s) {id : ContextId} {rest : List ContextId}
    (hw : s.waiting = id :: rest) : GoesOn mem (trace { s with waiting := rest } id) := by
  have hskip : GoesOn mem (.ok { s with waiting := rest }) := h.skip hw
  cases hc : mem.contexts[id]? with
  | none => rwa [h.trace_eq_skip (.inr (Array.getElem?_eq_none_iff.mp hc))]
  | some c =>
    by_cases hid : id ∈ s.traced
    · rwa [h.trace_eq_skip (.inl hid)]
    · by_cases hepoch : c.epoch = mem.collections + 1
      · simpa [trace, h.contexts id, hc, hid, h.epoch, hepoch] using hskip
      · rw [h.trace_eq_follow hc hid hepoch]
        exact visitAll_goesOn (h.mark hw hc hid) _

theorem GoesOn.bind {r : Except Fault Survey} {next : Survey → Except Fault Survey}
    (h : GoesOn mem r) (hnext : ∀ t, Charts mem (fun _ => True) t → GoesOn mem (next t)) :
    GoesOn mem (r >>= next) := by
  cases r with
  | error f => exact h
  | ok t => exact hnext t h

theorem scan_goesOn (fuel : Nat) :
    ∀ (n : Nat) (s : Survey), Charts mem (fun _ => True) s → GoesOn mem (s.scan fuel n) := by
  induction fuel with
  | zero => exact fun n s h => h
  | succ fuel ih =>
    intro n s h
    rw [scan]
    cases hn : s.order[n]? with
    | some i => exact (visitAll_goesOn h _).bind (ih (n + 1))
    | none =>
      cases hw : s.waiting with
      | nil => exact h
      | cons id rest => exact (trace_goesOn h hw).bind (ih n)

theorem complete_goesOn (mem : Memory) (roots : List Root) :
    GoesOn mem ((start (mem.collections + 1) mem).complete roots) :=
  (visitAll_goesOn (charts_start mem fun _ => True) roots).bind fun t h =>
    scan_goesOn t.scanBound 0 t h

end Survey

end ObjectMachine

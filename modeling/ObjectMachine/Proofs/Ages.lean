import ObjectMachine.Proofs.Occupancy

/-!
# Ages and epochs

The collector notes in the header of an object that it has been moved, how often, and,
while it is at work, where to; in a context it notes the last collection that reached
it. These notes are made at different moments of a collection, on old objects and on
copies, and some contexts miss collections. A census keeps the birth of every object
beside the memory, so that what the notes say can be compared with what has happened.
-/

namespace ObjectMachine

namespace Header

def notes (h : Header) : Bool × UInt8 × Option Nat := (h.moved, h.age, h.forward)

/-- The notes of an object that has come through `n` collections: the age stays at 255
once it is there, and no new place is left over. -/
structure Survived (h : Header) (n : Nat) : Prop where
  age : h.age.toNat = min 255 n
  moved : h.moved = true ↔ 1 ≤ n
  forward : h.forward = none

theorem survived_new (classRef : Value) : (new classRef).Survived 0 := ⟨rfl, by simp [new], rfl⟩

variable {h h' : Header} {n : Nat}

theorem Survived.congr (hs : h.Survived n) (hnotes : h'.notes = h.notes) : h'.Survived n := by
  simp only [notes, Prod.mk.injEq] at hnotes
  obtain ⟨hmoved, hage, hforward⟩ := hnotes
  exact ⟨hage ▸ hs.age, hmoved ▸ hs.moved, hforward ▸ hs.forward⟩

theorem toNat_age_survivor (h : Header) :
    h.survivor.age.toNat = min 255 (h.age.toNat + 1) := by
  have hlt := h.age.toNat_lt
  unfold survivor
  split_ifs with hold
  · rw [hold]
    rfl
  · have hne : h.age.toNat ≠ 255 := fun heq => hold (UInt8.toNat_inj.mp heq)
    rw [UInt8.toNat_add]
    change (h.age.toNat + 1) % 256 = _
    omega

theorem Survived.survivor (hs : h.Survived n) : h.survivor.Survived (n + 1) where
  age := by
    have hage := hs.age
    rw [toNat_age_survivor]
    omega
  moved := by simp [Header.survivor]
  forward := rfl

end Header

theorem HeapObject.notes_mapEdges (o : HeapObject) (f : Value → Value) :
    (o.mapEdges f).header.notes = o.header.notes := by
  rw [mapEdges_eq]
  rfl

namespace Memory

variable {mem : Memory} {roots : List Root}

/-- What a collection that ends leaves is laid out from a complete survey. -/
theorem complete_of_collect {c : Collection} (hfresh : mem.Unmarked)
    (hc : mem.collect roots = .ok c) :
    Survey.Complete mem roots c.survey ∧ mem.GraphCopy roots c.survey.place c ∧
      c.memory.objects = c.survey.survivors := by
  have hspec := Survey.complete_spec (hfresh.unmarkedFrom roots)
  cases hs : (Survey.start (mem.collections + 1) mem).complete roots with
  | error fault =>
    rw [collect_of_fault hs] at hc
    cases hc
  | ok s =>
    rw [hs] at hspec
    rw [collect_of_complete hs] at hc
    split_ifs at hc with hgrow hlimit
    · cases hc
      exact ⟨hspec, hspec.graphCopy _ _, rfl⟩
    · cases hc
      exact ⟨hspec, hspec.graphCopy _ _, rfl⟩

/-- Anything may happen to a memory between two calls, except that what the collector has
noted stays, and that a new context carries no note yet. -/
structure Edited (mem mem' : Memory) : Prop where
  collections : mem'.collections = mem.collections
  headers : mem'.objects.map (fun o => o.header.notes) = mem.objects.map fun o => o.header.notes
  epochs : ∀ (id : ContextId) (x' : Context), mem'.contexts[id]? = some x' →
    x'.epoch = 0 ∨ ∃ x, mem.contexts[id]? = some x ∧ x'.epoch = x.epoch

theorem edited_addContext (mem : Memory) {x : Context} (hx : x.epoch = 0) :
    mem.Edited (mem.addContext x) where
  collections := rfl
  headers := rfl
  epochs id x' hx' := by
    rw [addContext_contexts, Array.getElem?_push] at hx'
    split_ifs at hx' with hid
    · cases hx'
      exact .inl hx
    · exact .inr ⟨x', hx', rfl⟩

theorem edited_modifyContext (mem : Memory) (id : ContextId) {f : Context → Context}
    (hf : ∀ x, (f x).epoch = x.epoch) : mem.Edited (mem.modifyContext id f) where
  collections := rfl
  headers := rfl
  epochs id' x' hx' := by
    change (mem.contexts.modify id f)[id']? = some x' at hx'
    rw [Array.getElem?_modify] at hx'
    split_ifs at hx' with hid
    · obtain ⟨x, hx, rfl⟩ := Option.map_eq_some_iff.mp hx'
      exact .inr ⟨x, hx, hf x⟩
    · exact .inr ⟨x', hx', rfl⟩

theorem edited_modifyBody (mem : Memory) (v : Value) (f : Body → Body) :
    mem.Edited (mem.modifyBody v f) where
  collections := by cases v <;> rfl
  headers := by
    cases v with
    | pointer i =>
      apply Array.ext_getElem?
      intro k
      simp only [modifyBody, modifyObject, Array.getElem?_map, Array.getElem?_modify]
      split_ifs
      · rw [Option.map_map]
        rfl
      · rfl
    | _ => rfl
  epochs id x' hx' := by
    rw [modifyBody, modifyObject_contexts] at hx'
    exact .inr ⟨x', hx', rfl⟩

end Memory

/-- A memory, and for each of its objects how many collections there had been when it was
allocated. -/
structure Census where
  memory : Memory
  births : Array Nat

namespace Census

/-- The births of the objects that an allocation or a collection keeps, in their new order. -/
def keptBirths (z : Census) : Option Collection → Array Nat
  | none => z.births
  | some c => c.survey.order.map fun i => z.births[i]?.getD 0

/-- What can happen to a memory: an allocation of a new object or a collection, with any
roots, and edits between them. -/
inductive Step (z : Census) : Census → Prop
  | allocate {roots : List Root} {classRef : Value} {body : Body} {a : Allocation} :
      z.memory.allocate roots (.new classRef body) = .ok a →
      Step z ⟨a.memory, (z.keptBirths a.collection).push a.memory.collections⟩
  | collect {roots : List Root} {c : Collection} : z.memory.collect roots = .ok c →
      Step z ⟨c.memory, z.keptBirths (some c)⟩
  | edit {mem' : Memory} : z.memory.Edited mem' → Step z ⟨mem', z.births⟩

/-- A number of steps, one after the other. -/
def Run : Census → Census → Prop := Relation.ReflTransGen Step

/-- What the collector has noted is what has happened. -/
structure Accurate (z : Census) : Prop where
  size : z.births.size = z.memory.objects.size
  headers : ∀ (i : Nat) (o : HeapObject) (birth : Nat), z.memory.objects[i]? = some o →
    z.births[i]? = some birth →
    birth ≤ z.memory.collections ∧ o.header.Survived (z.memory.collections - birth)
  epochs : z.memory.EpochsPast

/-- The collection `c` from `roots` finds no context that it seems to have reached before:
each one within reach is marked and its edges follow, every object within reach is copied,
and the copy has the birth of the original. -/
structure MarksAfresh (z : Census) (roots : List Root) (c : Collection) : Prop where
  marks : ∀ (id : ContextId) (x : Context), z.memory.Reaches roots (.context id) →
    z.memory.contexts[id]? = some x →
    (x.mark (z.memory.collections + 1)).1 = true ∧
      c.memory.contexts[id]? =
        some ((x.mark (z.memory.collections + 1)).2.mapEdges c.survey.relocate)
  copies : z.memory.GraphCopy roots c.survey.place c
  births : ∀ i : Nat, z.memory.Reaches roots (.value (.pointer i)) →
    (z.keptBirths (some c))[c.survey.place i]? = z.births[i]?

theorem accurate_new {s : Settings} {start : Memory} (h : Memory.new s = .ok start) :
    (Census.mk start #[]).Accurate := by
  unfold Memory.new at h
  cases hproblem : s.problem? with
  | some p =>
    rw [hproblem] at h
    cases h
  | none =>
    rw [hproblem] at h
    cases h
    exact ⟨rfl, by simp, by simp [Memory.EpochsPast]⟩

namespace Accurate

variable {z z' : Census} (h : z.Accurate)

include h

/-- A new object has been through no collection. -/
theorem append {o : HeapObject} (ho : o.header.Survived 0) :
    (Census.mk (z.memory.append o) (z.births.push z.memory.collections)).Accurate where
  size := by simp [h.size]
  headers i p birth hp hbirth := by
    rw [Memory.append_objects, Array.getElem?_push] at hp
    rw [Array.getElem?_push, h.size] at hbirth
    split_ifs at hp hbirth with hi
    · cases hp
      cases hbirth
      exact ⟨le_rfl, by simpa [Memory.append] using ho⟩
    · exact h.headers i p birth hp hbirth
  epochs := h.epochs

theorem getElem?_keptBirths {roots : List Root} {c : Collection}
    (hs : Survey.Complete z.memory roots c.survey) {i k : Nat}
    (hk : c.survey.order[k]? = some i) : (z.keptBirths (some c))[k]? = z.births[i]? := by
  have hi := hs.charts.lt_size (Array.mem_iff_getElem?.mpr ⟨k, hk⟩)
  rw [← h.size] at hi
  simp [keptBirths, hk, hi]

/-- A collection makes every object that it keeps older by one. -/
theorem collect {roots : List Root} {c : Collection} (hc : z.memory.collect roots = .ok c) :
    (Census.mk c.memory (z.keptBirths (some c))).Accurate := by
  obtain ⟨hs, hcopy, hobjects⟩ := Memory.complete_of_collect h.epochs.unmarked hc
  refine ⟨?_, ?_, hcopy.epochsPast h.epochs⟩
  · simp [keptBirths, hobjects, Survey.survivors]
  · intro k o' birth ho' hbirth
    dsimp only at ho' hbirth ⊢
    rw [hobjects] at ho'
    have hlt : k < c.survey.order.size := by
      simpa [Survey.survivors] using (Array.getElem?_eq_some_iff.mp ho').1
    -- the object at `k` is the copy of the one that was met as the `k`-th
    have hk := Array.getElem?_eq_getElem hlt
    have hmet := Array.mem_iff_getElem?.mpr ⟨k, hk⟩
    have ho := Array.getElem?_eq_getElem (hs.charts.lt_size hmet)
    have hplaced := hs.survivors_place ((hs.order _).mp hmet) ho
    rw [hs.charts.place_eq hk, ho'] at hplaced
    cases hplaced
    rw [h.getElem?_keptBirths hs hk] at hbirth
    obtain ⟨hle, hsurvived⟩ := h.headers _ _ birth ho hbirth
    rw [hcopy.collections, Nat.sub_add_comm hle]
    exact ⟨Nat.le_succ_of_le hle, hsurvived.survivor.congr (HeapObject.notes_mapEdges _ _)⟩

theorem edit {mem' : Memory} (hedit : z.memory.Edited mem') :
    (Census.mk mem' z.births).Accurate where
  size := by
    have hsize := congrArg Array.size hedit.headers
    simp only [Array.size_map] at hsize
    exact h.size.trans hsize.symm
  headers i o' birth ho' hbirth := by
    have hnotes := congrArg (·[i]?) hedit.headers
    dsimp only at ho' hbirth hnotes ⊢
    rw [Array.getElem?_map, Array.getElem?_map, ho', Option.map_some] at hnotes
    obtain ⟨o, ho, hnotes⟩ := Option.map_eq_some_iff.mp hnotes.symm
    obtain ⟨hle, hsurvived⟩ := h.headers i o birth ho hbirth
    rw [hedit.collections]
    exact ⟨hle, hsurvived.congr hnotes.symm⟩
  epochs id x' hx' := by
    change x'.epoch ≤ mem'.collections
    rw [hedit.collections]
    rcases hedit.epochs id x' hx' with hnew | ⟨x, hx, hsame⟩
    · omega
    · exact hsame ▸ h.epochs id x hx

theorem step (hstep : Step z z') : z'.Accurate := by
  cases hstep with
  | @allocate roots classRef body a ha =>
    rw [← Memory.allocateBy_rounded] at ha
    rcases Memory.allocateBy_inv ha with ⟨-, hnone, hmem⟩ | ⟨c, hc, hsome, hmem⟩
    · rw [hnone, hmem]
      exact h.append (Header.survived_new classRef)
    · rw [hsome, hmem]
      apply (h.collect hc).append
      exact (Header.survived_new classRef).congr (HeapObject.notes_mapEdges _ _)
  | collect hc => exact h.collect hc
  | edit hedit => exact h.edit hedit

theorem run (hrun : Run z z') : z'.Accurate := by
  induction hrun with
  | refl => exact h
  | tail _ hstep ih => exact ih.step hstep

theorem marksAfresh {roots : List Root} {c : Collection} (hc : z.memory.collect roots = .ok c) :
    z.MarksAfresh roots c := by
  obtain ⟨hs, hcopy, -⟩ := Memory.complete_of_collect h.epochs.unmarked hc
  refine ⟨?_, hcopy, fun i hi => h.getElem?_keptBirths hs (hs.order_place hi)⟩
  intro id x hid hx
  have hmark : x.mark (z.memory.collections + 1) =
      (true, { x with epoch := z.memory.collections + 1 }) :=
    if_neg (h.epochs.unmarked id x hx)
  rw [hmark, hcopy.contexts id x hid hx, Context.mapEdges_eq, Survey.relocate_eq_rename]
  exact ⟨rfl, rfl⟩

end Accurate

/-- Whatever is allocated and collected, with whatever roots, the notes of the collector
are right between any two calls: an object has the age of the collections since its birth,
up to 255, is flagged as moved exactly when there has been one, and has no new place left
over; no context is ahead of the collections. So the next collection, forced or before an
allocation, marks every context within its reach afresh. -/
theorem notes_tell_what_happened {s : Settings} {start : Memory} {z : Census}
    (hnew : Memory.new s = .ok start) (hrun : Run ⟨start, #[]⟩ z) :
    z.Accurate ∧
      (∀ roots c, z.memory.collect roots = .ok c → z.MarksAfresh roots c) ∧
      ∀ roots o a c, z.memory.allocate roots o = .ok a → a.collection = some c →
        z.MarksAfresh (roots ++ o.roots) c := by
  have hz := (accurate_new hnew).run hrun
  refine ⟨hz, fun roots c hc => hz.marksAfresh hc, ?_⟩
  intro roots o a c ha hcollection
  rw [← Memory.allocateBy_rounded] at ha
  rcases Memory.allocateBy_inv ha with ⟨-, hnone, -⟩ | ⟨c', hc, hsome, -⟩
  · rw [hnone] at hcollection
    cases hcollection
  · rw [hsome] at hcollection
    cases hcollection
    exact hz.marksAfresh hc

/-- The first object is an array that refers to itself. -/
def tied (mem : Memory) : Memory := mem.modifyBody (.pointer 0) fun _ => .array #[.pointer 0]

/-- The first context has the first object on its stack. -/
def held (mem : Memory) : Memory := mem.modifyContext 0 fun x => x.push (.pointer 0)

/-- An array is put into a memory for one object and made to refer to itself. It survives a
collection that does not reach the only context, a second one, before the allocation of
a string, that finds it through that context, and a third one together with the string. -/
theorem array_outlives_three_collections :
    ∃ start z, Memory.new Memory.single = .ok start ∧ Run ⟨start, #[]⟩ z ∧
      z.memory.collections = 3 ∧ z.memory.objects.toList.map (fun o => o.header.age) = [1, 3] ∧
      z.memory.contexts.toList.map Context.epoch = [3] ∧ z.Accurate := by
  let start : Memory := ⟨Memory.single, 1, #[], 0, #[]⟩
  have hnew : Memory.new Memory.single = .ok start := rfl
  have htie : ∀ mem : Memory, mem.Edited (tied mem) := fun mem => mem.edited_modifyBody _ _
  have hhold : ∀ mem : Memory, mem.Edited (held mem) := fun mem =>
    mem.edited_modifyContext _ fun _ => rfl
  have htest : ((start.addContext default).allocate [] (.new .nil (.array #[.nil]))).toOption.any
      (fun a => ((tied a.memory).collect [.value a.value]).toOption.any fun c =>
        ((held c.memory).allocate [.context 0] (.new .nil (.string "young"))).toOption.any fun b =>
          (b.memory.collect [.context 0, .value b.value]).toOption.any fun d =>
            decide (d.memory.collections = 3 ∧
              d.memory.objects.toList.map (fun o => o.header.age) = [1, 3] ∧
              d.memory.contexts.toList.map Context.epoch = [3])) = true := by
    decide +kernel
  obtain ⟨a, ha, htest⟩ := exists_ok_of_any htest
  obtain ⟨c, hc, htest⟩ := exists_ok_of_any htest
  obtain ⟨b, hb, htest⟩ := exists_ok_of_any htest
  obtain ⟨d, hd, htest⟩ := exists_ok_of_any htest
  obtain ⟨hcollections, hages, hepochs⟩ := of_decide_eq_true htest
  have hcontext := Relation.ReflTransGen.single (Step.edit (z := ⟨start, #[]⟩)
    (start.edited_addContext (x := default) rfl))
  have hplaced := hcontext.tail (.allocate ha)
  have htied := hplaced.tail (.edit (htie _))
  have hfirst := htied.tail (.collect hc)
  have hheld := hfirst.tail (.edit (hhold _))
  have hsecond := hheld.tail (.allocate hb)
  have hthird := hsecond.tail (.collect hd)
  exact ⟨start, _, hnew, hthird, hcollections, hages, hepochs,
    (notes_tell_what_happened hnew hthird).1⟩

end Census

end ObjectMachine

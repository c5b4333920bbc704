import ObjectMachine.Proofs.Doubles
import ObjectMachine.Proofs.GraphCopy
import ObjectMachine.Proofs.Keeping
import Mathlib.Logic.Relation

/-!
# How full a memory gets

An allocation collects first when the objects fill a given part of the capacity, and
a collection grows the capacity when the survivors fill another part of it. The two
parts have nothing to do with each other: a collection may free nothing and not grow
either, and the new object is put in all the same. The next collection then finds
more objects than there is room for, and has to grow. So there is never more than one
object too many.
-/

namespace ObjectMachine

/-- How the two thresholds are read: whether an allocation collects first, and whether
so many live objects make a memory grow. -/
structure Reading where
  collects : Memory → Bool
  grows : Memory → Nat → Bool

namespace Reading

/-- The thresholds in double precision, as the memory reads them. -/
def rounded : Reading := ⟨Memory.shouldCollect, Memory.shouldGrow⟩

/-- The thresholds as the rational numbers that they are. -/
def exact : Reading where
  collects mem :=
    (mem.capacity : ℚ) * mem.settings.collectThreshold.magnitude ≤ mem.objects.size
  grows mem live := (mem.capacity : ℚ) * mem.settings.growThreshold.magnitude < live

/-- All that is used of a reading: a full memory collects, and one that more objects
survive than it has room for grows. -/
structure SoundAt (R : Reading) (mem : Memory) : Prop where
  collects : mem.capacity ≤ mem.objects.size → R.collects mem = true
  grows : ∀ live, mem.capacity < live → R.grows mem live = true

end Reading

namespace Settings

/-- What is checked of settings. -/
structure Accepted (s : Settings) : Prop where
  capacity : 0 < s.initialCapacity
  collectThreshold : s.collectThreshold.isFraction = true
  growThreshold : s.growThreshold.isFraction = true
  growthFactor : 2 ≤ s.growthFactor

theorem accepted_of_problem? {s : Settings} (h : s.problem? = none) : s.Accepted := by
  unfold problem? at h
  split_ifs at h with hcapacity hfractions hfactor
  simp only [Bool.or_eq_true, Bool.not_eq_true', not_or, Bool.not_eq_false] at hfractions
  exact ⟨Nat.pos_of_ne_zero hcapacity, hfractions.1, hfractions.2, Nat.le_of_not_lt hfactor⟩

end Settings

namespace Reading

variable {mem : Memory}

theorem exact_soundAt (h : mem.settings.Accepted) : exact.SoundAt mem where
  collects hfull := by
    have hpart := Binary64.magnitude_le_one h.collectThreshold
    have hfull : (mem.capacity : ℚ) ≤ mem.objects.size := by exact_mod_cast hfull
    apply decide_eq_true
    exact (mul_le_of_le_one_right (by positivity) hpart).trans hfull
  grows live hlive := by
    have hpart := Binary64.magnitude_le_one h.growThreshold
    have hlive : (mem.capacity : ℚ) < live := by exact_mod_cast hlive
    apply decide_eq_true
    exact (mul_le_of_le_one_right (by positivity) hpart).trans_lt hlive

/-- Rounding does no harm while capacities are counted exactly. -/
theorem rounded_soundAt (h : mem.settings.Accepted) (hcapacity : mem.capacity < 0x20000000000000) :
    rounded.SoundAt mem where
  collects hfull := by
    apply decide_eq_true
    exact (Binary64.scaledPart_le hcapacity h.collectThreshold).trans
      (Binary64.le_scaledCount hcapacity.le hfull)
  grows live hlive := by
    apply decide_eq_true
    calc Binary64.scaledPart mem.capacity mem.settings.growThreshold
        ≤ mem.capacity * 2 ^ (-mem.settings.growThreshold.scale).toNat :=
          Binary64.scaledPart_le hcapacity h.growThreshold
      _ < (mem.capacity + 1) * 2 ^ (-mem.settings.growThreshold.scale).toNat :=
          Nat.mul_lt_mul_of_pos_right (Nat.lt_succ_self _) (Nat.two_pow_pos _)
      _ ≤ Binary64.scaledCount live mem.settings.growThreshold :=
          Binary64.le_scaledCount hcapacity hlive

end Reading

namespace Memory

section

variable (R : Reading) (mem : Memory) (roots : List Root)

def collectBy : Except Fault Collection := do
  let s ← (Survey.start (mem.collections + 1) mem).complete roots
  mem.layOut s (R.grows mem s.order.size)

def allocateBy (o : HeapObject) : Except Fault Allocation := do
  if R.collects mem then
    let c ← mem.collectBy R (roots ++ o.roots)
    return ⟨.pointer c.memory.objects.size, c.memory.append (o.mapEdges c.survey.relocate), c⟩
  else
    return ⟨.pointer mem.objects.size, mem.append o, none⟩

theorem collectBy_rounded : mem.collectBy .rounded roots = mem.collect roots := rfl

theorem allocateBy_rounded (o : HeapObject) :
    mem.allocateBy .rounded roots o = mem.allocate roots o := rfl

end

variable {R : Reading} {mem mem' : Memory} {roots : List Root} {s : Settings}

theorem layOut_inv {found : Survey} {grow : Bool} {c : Collection}
    (h : mem.layOut found grow = .ok c) :
    c.memory.settings = mem.settings ∧ c.memory.objects = found.survivors ∧
      c.memory.capacity =
        if grow then mem.capacity * mem.settings.growthFactor else mem.capacity := by
  unfold layOut at h
  dsimp only at h
  split_ifs at h with hgrow hlimit
  · cases h
    exact ⟨rfl, rfl, (if_pos hgrow).symm⟩
  · cases h
    exact ⟨rfl, rfl, (if_neg hgrow).symm⟩

/-- What a collection does to the number of objects and to the capacity. -/
theorem collectBy_inv {c : Collection} (h : mem.collectBy R roots = .ok c) :
    c.memory.settings = mem.settings ∧ c.memory.objects.size ≤ mem.objects.size ∧
      c.memory.capacity =
        if R.grows mem c.memory.objects.size then mem.capacity * mem.settings.growthFactor
        else mem.capacity := by
  unfold collectBy at h
  have hsurvey := Survey.complete_goesOn mem roots
  cases hs : (Survey.start (mem.collections + 1) mem).complete roots with
  | error f =>
    rw [hs] at h
    cases h
  | ok found =>
    rw [hs] at h hsurvey
    obtain ⟨hsettings, hobjects, hcapacity⟩ := layOut_inv h
    have hsize : c.memory.objects.size = found.order.size := by simp [hobjects, Survey.survivors]
    rw [hsize]
    exact ⟨hsettings, hsurvey.size_order_le, hcapacity⟩

/-- Why a call stops: at a reference outside the memory, or at a capacity that is too
large to grow. -/
def StopsAt (mem : Memory) (f : Fault) : Prop :=
  (∃ i, mem.objects.size ≤ i ∧ f = .danglingReference (.pointer i)) ∨
    f = .multiplicationOverflow ∧ mem.CapacityOverflow

theorem stopsAt_of_collectBy {f : Fault} (h : mem.collectBy R roots = .error f) :
    mem.StopsAt f := by
  unfold collectBy at h
  have hsurvey := Survey.complete_goesOn mem roots
  cases hs : (Survey.start (mem.collections + 1) mem).complete roots with
  | error f =>
    rw [hs] at h hsurvey
    cases h
    obtain ⟨i, -, hi, hf⟩ := hsurvey
    exact .inl ⟨i, hi, hf⟩
  | ok found =>
    rw [hs] at h
    change mem.layOut found _ = _ at h
    unfold layOut at h
    dsimp only at h
    split_ifs at h with hgrow hlimit
    cases h
    exact .inr ⟨rfl, hlimit⟩

theorem allocateBy_of_not_collects (h : R.collects mem = false) (o : HeapObject) :
    mem.allocateBy R roots o = .ok ⟨.pointer mem.objects.size, mem.append o, none⟩ := by
  rw [allocateBy, h]
  rfl

theorem allocateBy_of_collects (h : R.collects mem = true) (o : HeapObject) :
    mem.allocateBy R roots o = (mem.collectBy R (roots ++ o.roots)).map fun c =>
      ⟨.pointer c.memory.objects.size, c.memory.append (o.mapEdges c.survey.relocate), c⟩ := by
  rw [allocateBy, if_pos h]
  cases mem.collectBy R (roots ++ o.roots) <;> rfl

theorem allocateBy_inv {o : HeapObject} {a : Allocation} (h : mem.allocateBy R roots o = .ok a) :
    (R.collects mem = false ∧ a.collection = none ∧ a.memory = mem.append o) ∨
      ∃ c, mem.collectBy R (roots ++ o.roots) = .ok c ∧ a.collection = some c ∧
        a.memory = c.memory.append (o.mapEdges c.survey.relocate) := by
  cases hfull : R.collects mem with
  | false =>
    rw [allocateBy_of_not_collects hfull] at h
    cases h
    exact .inl ⟨rfl, rfl, rfl⟩
  | true =>
    rw [allocateBy_of_collects hfull] at h
    cases hc : mem.collectBy R (roots ++ o.roots) with
    | error f =>
      rw [hc] at h
      cases h
    | ok c =>
      rw [hc] at h
      cases h
      exact .inr ⟨c, rfl, rfl, rfl⟩

theorem stopsAt_of_allocateBy {o : HeapObject} {f : Fault}
    (h : mem.allocateBy R roots o = .error f) : mem.StopsAt f := by
  cases hfull : R.collects mem with
  | false =>
    rw [allocateBy_of_not_collects hfull] at h
    cases h
  | true =>
    rw [allocateBy_of_collects hfull] at h
    cases hc : mem.collectBy R (roots ++ o.roots) with
    | error f =>
      rw [hc] at h
      cases h
      exact stopsAt_of_collectBy hc
    | ok c =>
      rw [hc] at h
      cases h

/-- What can happen to a memory: an allocation or a collection with any roots, and
between them any change to what objects and contexts hold. -/
inductive Step (R : Reading) (mem : Memory) : Memory → Prop
  | allocate {roots : List Root} {o : HeapObject} {a : Allocation} :
      mem.allocateBy R roots o = .ok a → Step R mem a.memory
  | collect {roots : List Root} {c : Collection} :
      mem.collectBy R roots = .ok c → Step R mem c.memory
  | edit {mem' : Memory} : mem'.settings = mem.settings → mem'.capacity = mem.capacity →
      mem'.objects.size = mem.objects.size → Step R mem mem'

def Run (R : Reading) : Memory → Memory → Prop := Relation.ReflTransGen (Step R)

/-- At most one object more than there is room for, and room that comes from the
initial capacity by growth alone. -/
structure Occupied (s : Settings) (mem : Memory) : Prop where
  settings : mem.settings = s
  size : mem.objects.size ≤ mem.capacity + 1
  capacity : ∃ k, mem.capacity = s.initialCapacity * s.growthFactor ^ k

/-- The collection leaves room for all objects it keeps and takes no room away. What
it keeps is no more than the capacity that growth would give. -/
structure MakesRoom (mem : Memory) (c : Collection) : Prop where
  size : c.memory.objects.size ≤ c.memory.capacity
  capacity : mem.capacity ≤ c.memory.capacity
  grown : c.memory.objects.size ≤ mem.capacity * mem.settings.growthFactor

theorem occupied_new {start : Memory} (h : Memory.new s = .ok start) :
    s.Accepted ∧ start.Occupied s := by
  unfold Memory.new at h
  cases hproblem : s.problem? with
  | some p =>
    rw [hproblem] at h
    cases h
  | none =>
    rw [hproblem] at h
    cases h
    exact ⟨Settings.accepted_of_problem? hproblem, rfl, by simp, 0, by simp⟩

section

variable (hs : s.Accepted)

include hs

theorem collectBy_capacity_le (hsettings : mem.settings = s) {c : Collection}
    (hc : mem.collectBy R roots = .ok c) : mem.capacity ≤ c.memory.capacity := by
  have hfactor := hs.growthFactor
  rw [← hsettings] at hfactor
  rw [(collectBy_inv hc).2.2]
  split_ifs
  · exact Nat.le_mul_of_pos_right _ (by omega)
  · exact le_rfl

theorem Step.capacity_le (hsettings : mem.settings = s) (hstep : Step R mem mem') :
    mem'.settings = s ∧ mem.capacity ≤ mem'.capacity := by
  cases hstep with
  | allocate ha =>
    rcases allocateBy_inv ha with ⟨-, -, hmem⟩ | ⟨c, hc, -, hmem⟩
    · rw [hmem]
      exact ⟨hsettings, le_rfl⟩
    · rw [hmem]
      exact ⟨(collectBy_inv hc).1.trans hsettings, collectBy_capacity_le hs hsettings hc⟩
  | collect hc =>
    exact ⟨(collectBy_inv hc).1.trans hsettings, collectBy_capacity_le hs hsettings hc⟩
  | edit hsame hcapacity _ => exact ⟨hsame.trans hsettings, hcapacity.ge⟩

theorem Run.capacity_le (hsettings : mem.settings = s) (hrun : Run R mem mem') :
    mem'.settings = s ∧ mem.capacity ≤ mem'.capacity := by
  induction hrun with
  | refl => exact ⟨hsettings, le_rfl⟩
  | tail _ hstep ih =>
    obtain ⟨hsame, hle⟩ := hstep.capacity_le hs ih.1
    exact ⟨hsame, ih.2.trans hle⟩

namespace Occupied

variable (h : mem.Occupied s)

include h

theorem capacity_pos : 0 < mem.capacity := by
  obtain ⟨k, hk⟩ := h.capacity
  have hfactor := hs.growthFactor
  rw [hk]
  exact Nat.mul_pos hs.capacity (Nat.pow_pos (by omega))

/-- A capacity that is positive at least doubles, so it outgrows the one object more. -/
theorem room : mem.capacity + 1 ≤ mem.capacity * mem.settings.growthFactor := by
  have hpos := h.capacity_pos hs
  have hfactor := hs.growthFactor
  rw [← h.settings] at hfactor
  calc mem.capacity + 1 ≤ mem.capacity * 2 := by omega
    _ ≤ mem.capacity * mem.settings.growthFactor := Nat.mul_le_mul_left _ hfactor

section

variable (hsound : R.SoundAt mem)

include hsound

theorem makesRoom {c : Collection} (hc : mem.collectBy R roots = .ok c) : mem.MakesRoom c := by
  obtain ⟨-, hsize, hcapacity⟩ := collectBy_inv hc
  have hroom := (hsize.trans h.size).trans (h.room hs)
  refine ⟨?_, collectBy_capacity_le hs h.settings hc, hroom⟩
  rw [hcapacity]
  split_ifs with hgrow
  · exact hroom
  · by_contra hlt
    exact hgrow (hsound.grows _ (not_le.mp hlt))

theorem collectBy {c : Collection} (hc : mem.collectBy R roots = .ok c) :
    c.memory.Occupied s := by
  obtain ⟨hsettings, -, hcapacity⟩ := collectBy_inv hc
  obtain ⟨k, hk⟩ := h.capacity
  refine ⟨hsettings.trans h.settings, Nat.le_succ_of_le (h.makesRoom hs hsound hc).size, ?_⟩
  rw [hcapacity]
  split_ifs
  · exact ⟨k + 1, by rw [hk, h.settings, Nat.pow_succ, Nat.mul_assoc]⟩
  · exact ⟨k, hk⟩

theorem step (hstep : Step R mem mem') : mem'.Occupied s := by
  cases hstep with
  | allocate ha =>
    rcases allocateBy_inv ha with ⟨hnot, -, hmem⟩ | ⟨c, hc, -, hmem⟩
    · -- nothing was collected, so the memory was not full
      have hless : mem.objects.size < mem.capacity := by
        by_contra hge
        rw [hsound.collects (not_lt.mp hge)] at hnot
        cases hnot
      rw [hmem]
      refine ⟨h.settings, ?_, h.capacity⟩
      simp only [append, Array.size_push]
      omega
    · -- the collection has left room for what it kept, and one object more is bound to fit
      have hkept := h.collectBy hs hsound hc
      rw [hmem]
      refine ⟨hkept.settings, ?_, hkept.capacity⟩
      simpa [append] using (h.makesRoom hs hsound hc).size
  | collect hc => exact h.collectBy hs hsound hc
  | edit hsettings hcapacity hsize =>
    refine ⟨hsettings.trans h.settings, ?_, ?_⟩
    · rw [hsize, hcapacity]
      exact h.size
    · rw [hcapacity]
      exact h.capacity

end

/-- A run keeps the bounds while the reading is sound, up to the capacity it ends with. -/
theorem run (hrun : Run R mem mem')
    (hsound : ∀ m : Memory, m.settings = s → m.capacity ≤ mem'.capacity → R.SoundAt m) :
    mem'.Occupied s := by
  induction hrun with
  | refl => exact h
  | @tail m m' hrun hstep ih =>
    obtain ⟨hsettings, -⟩ := Run.capacity_le hs h.settings hrun
    obtain ⟨-, hle⟩ := hstep.capacity_le hs hsettings
    have hm : m.Occupied s := ih fun k hk hcapacity => hsound k hk (hcapacity.trans hle)
    exact hm.step hs (hsound m hsettings hle) hstep

end Occupied

end

/-- Whatever is allocated and collected, with whatever roots, a memory holds at most
one object more than its capacity, and no more than that right after a collection.
The capacity is the initial one grown a number of times, and never shrinks. What a
collection keeps never exceeds the capacity that growth would give, and a call fails
only at a dangling reference or when the capacity overflows. All this holds of
thresholds read as numbers, and of the rounded reading as long as the capacity itself
is not rounded. -/
theorem objects_stay_within_capacity {start : Memory} (hnew : Memory.new s = .ok start)
    (hrun : Run R start mem)
    (hreading : R = .exact ∨ R = .rounded ∧ mem.capacity < 0x20000000000000) :
    mem.Occupied s ∧ R.SoundAt mem ∧
      (∀ mem', Run R mem mem' → mem.capacity ≤ mem'.capacity) ∧
      (∀ roots c, mem.collectBy R roots = .ok c → mem.MakesRoom c) ∧
      (∀ roots o a c, mem.allocateBy R roots o = .ok a → a.collection = some c →
        mem.MakesRoom c) ∧
      ∀ roots o f, mem.collectBy R roots = .error f ∨ mem.allocateBy R roots o = .error f →
        mem.StopsAt f := by
  obtain ⟨hs, hstart⟩ := occupied_new hnew
  have hsound : ∀ m : Memory, m.settings = s → m.capacity ≤ mem.capacity → R.SoundAt m := by
    rintro m rfl hle
    rcases hreading with rfl | ⟨rfl, hcapacity⟩
    · exact Reading.exact_soundAt hs
    · exact Reading.rounded_soundAt hs (hle.trans_lt hcapacity)
  have hmem := hstart.run hs hrun hsound
  have hsoundAt := hsound mem hmem.settings le_rfl
  refine ⟨hmem, hsoundAt, ?_, ?_, ?_, ?_⟩
  · exact fun mem' hrun' => (Run.capacity_le hs hmem.settings hrun').2
  · exact fun roots c hc => hmem.makesRoom hs hsoundAt hc
  · intro roots o a c ha hcollection
    rcases allocateBy_inv ha with ⟨-, hnone, -⟩ | ⟨c', hc, hsome, -⟩
    · rw [hnone] at hcollection
      cases hcollection
    · rw [hsome] at hcollection
      cases hcollection
      exact hmem.makesRoom hs hsoundAt hc
  · rintro roots o f (hc | ha)
    · exact stopsAt_of_collectBy hc
    · exact stopsAt_of_allocateBy ha

/-- Room for one object, collected when full and grown when more than full. -/
def single : Settings := ⟨1, ⟨0x3FF0000000000000⟩, ⟨0x3FF0000000000000⟩, 2⟩

/-- The first object fills the memory and survives, so that the second one is put
beside it. When both survive, the memory grows. -/
theorem single_memory_holds_two_objects :
    ∃ start mem c, Memory.new single = .ok start ∧ Run .rounded start mem ∧
      mem.objects.size = 2 ∧ mem.capacity = 1 ∧ mem.Occupied single ∧
      mem.collect [.value (.pointer 0), .value (.pointer 1)] = .ok c ∧
      c.memory.capacity = 2 ∧ mem.MakesRoom c := by
  let start : Memory := ⟨single, 1, #[], 0, #[]⟩
  have hnew : Memory.new single = .ok start := rfl
  have htest : (start.allocate [] (.new .nil (.string "first"))).toOption.any (fun a =>
      (a.memory.allocate [.value a.value] (.new .nil (.string "second"))).toOption.any fun b =>
        (b.memory.collect [.value (.pointer 0), .value (.pointer 1)]).toOption.any fun c =>
          decide (b.memory.objects.size = 2 ∧ b.memory.capacity = 1 ∧
            c.memory.capacity = 2)) = true := by
    decide +kernel
  obtain ⟨a, ha, htest⟩ := exists_ok_of_any htest
  obtain ⟨b, hb, htest⟩ := exists_ok_of_any htest
  obtain ⟨c, hc, htest⟩ := exists_ok_of_any htest
  obtain ⟨hsize, hcapacity, hgrown⟩ := of_decide_eq_true htest
  rw [← allocateBy_rounded] at ha hb
  rw [← collectBy_rounded] at hc
  have hrun : Run .rounded start b.memory := .tail (.single (.allocate ha)) (.allocate hb)
  have hsmall : b.memory.capacity < 0x20000000000000 := by
    rw [hcapacity]
    decide
  obtain ⟨hoccupied, -, -, hroom, -⟩ :=
    objects_stay_within_capacity hnew hrun (.inr ⟨rfl, hsmall⟩)
  exact ⟨start, b.memory, c, hnew, hrun, hsize, hcapacity, hoccupied, hc, hgrown, hroom _ c hc⟩

end Memory

end ObjectMachine

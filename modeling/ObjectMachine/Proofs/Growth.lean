import ObjectMachine.Proofs.FirstClasses
import ObjectMachine.Proofs.IndexedConstruction

/-!
# How far a fresh memory grows

An allocation brings one object and at most one collection, and a collection
drops objects and grows the capacity at most once. After `n` allocations there
are therefore at most `n` objects, and the capacity is the initial one grown at
most `n` times. Setting up a machine takes at most `setUpAllocations` of them, so
its capacity overflows only where so few objects can ask for so much room.
-/

namespace ObjectMachine

open ObjectMachine.Action

namespace Settings

variable (s : Settings)

/-- The capacity after so many growths. -/
def grown : Nat → Nat
  | 0 => s.initialCapacity
  | k + 1 => grown k * s.growthFactor

/-- Fewer than `n` growths lead to a capacity that is still too small for fewer than
`n` objects, and the next one would not fit. -/
def Outgrows (n : Nat) : Prop :=
  ∃ k < n, capacityLimit ≤ s.grown (k + 1) ∧
    ∃ live < n, Binary64.scaledPart (s.grown k) s.growThreshold <
      Binary64.scaledCount live s.growThreshold

instance (n : Nat) : Decidable (s.Outgrows n) :=
  inferInstanceAs (Decidable (∃ k < n, _ ∧ ∃ live < n, _))

variable {s}

theorem Outgrows.mono {n n' : Nat} (h : s.Outgrows n) (hle : n ≤ n') : s.Outgrows n' := by
  obtain ⟨k, hk, hlimit, live, hlive, hgrow⟩ := h
  exact ⟨k, hk.trans_le hle, hlimit, live, hlive.trans_le hle, hgrow⟩

end Settings

/-- The memory has these settings and is what at most `n` allocations can leave. -/
structure Memory.Within (s : Settings) (n : Nat) (mem : Memory) : Prop where
  settings : mem.settings = s
  capacity : ∃ k ≤ n, mem.capacity = s.grown k
  size : mem.objects.size ≤ n
  epochs : mem.EpochsPast

namespace Memory.Within

variable {s : Settings} {n n' : Nat} {mem : Memory}

theorem mono (h : mem.Within s n) (hle : n ≤ n') : mem.Within s n' := by
  obtain ⟨k, hk, hcapacity⟩ := h.capacity
  exact ⟨h.settings, ⟨k, hk.trans hle, hcapacity⟩, h.size.trans hle, h.epochs⟩

theorem withObjects (h : mem.Within s n) {objects : Array HeapObject}
    (hsize : objects.size ≤ mem.objects.size) : { mem with objects }.Within s n :=
  ⟨h.settings, h.capacity, hsize.trans h.size, h.epochs⟩

theorem append (h : mem.Within s n) (o : HeapObject) : (mem.append o).Within s (n + 1) := by
  obtain ⟨k, hk, hcapacity⟩ := h.capacity
  refine ⟨h.settings, ⟨k, Nat.le_succ_of_le hk, hcapacity⟩, ?_, h.epochs⟩
  simpa using h.size

/-- After a collection there are not more objects and one growth more at most, unless
that growth is too large. -/
theorem collect (h : mem.Within s n) (roots : List Root) :
    (∀ c, mem.collect roots = .ok c → c.memory.Within s (n + 1) ∧ c.memory.objects.size ≤ n) ∧
      (mem.collect roots = .error .multiplicationOverflow → s.Outgrows (n + 1)) := by
  obtain ⟨k, hk, hcapacity⟩ := h.capacity
  have hspec := Survey.complete_spec (h.epochs.unmarked.unmarkedFrom roots)
  cases hs : (Survey.start (mem.collections + 1) mem).complete roots with
  | error f =>
    rw [hs] at hspec
    obtain ⟨i, -, -, rfl⟩ := hspec
    rw [collect_of_fault hs]
    refine ⟨fun c hc => ?_, fun hf => ?_⟩
    · cases hc
    · cases hf
  | ok found =>
    rw [hs] at hspec
    have hlive : found.order.size ≤ n := hspec.charts.size_order_le.trans h.size
    have hgrown : mem.capacity * mem.settings.growthFactor = s.grown (k + 1) := by
      rw [hcapacity, h.settings, Settings.grown]
    have hkept : ∀ {capacity j : Nat}, j ≤ n + 1 → capacity = s.grown j →
        Memory.Within s (n + 1) ⟨mem.settings, capacity, found.survivors, mem.collections + 1,
          found.relocatedContexts⟩ ∧ found.survivors.size ≤ n := by
      intro capacity j hj hroom
      have hsize : found.survivors.size ≤ n := by simpa [Survey.survivors] using hlive
      exact ⟨⟨h.settings, ⟨j, hj, hroom⟩, Nat.le_succ_of_le hsize,
        (hspec.graphCopy capacity []).epochsPast h.epochs⟩, hsize⟩
    rw [collect_of_complete hs]
    -- the survivors ask for room that does not fit, get it, or need none
    split_ifs with hgrow hlimit
    · refine ⟨fun c hc => ?_, fun _ => ?_⟩
      · cases hc
      · refine ⟨k, Nat.lt_succ_of_le hk, hgrown ▸ hlimit, _, Nat.lt_succ_of_le hlive, ?_⟩
        rw [← hcapacity, ← h.settings]
        exact of_decide_eq_true hgrow
    · refine ⟨fun c hc => ?_, fun hf => ?_⟩
      · cases hc
        exact hkept (Nat.succ_le_succ hk) hgrown
      · cases hf
    · refine ⟨fun c hc => ?_, fun hf => ?_⟩
      · cases hc
        exact hkept (Nat.le_succ_of_le hk) hcapacity
      · cases hf

end Memory.Within

/-- A result that so many allocations can have: the machine is within them, or the
capacity has overflowed within them, or something else has stopped. -/
inductive Spent {α : Type} (s : Settings) (n : Nat) : EStateM.Result Stop Machine α → Prop
  | ok {a : α} {m : Machine} : m.memory.Within s n → Spent s n (.ok a m)
  | stop {e : Stop} {m : Machine} : (e = .fault .multiplicationOverflow → s.Outgrows n) →
      Spent s n (.error e m)

/-- The action makes at most `n` allocations. -/
def Spends {α : Type} (s : Settings) (n : Nat) (x : Action α) : Prop :=
  ∀ used m, m.memory.Within s used → Spent s (used + n) (x m)

namespace Spends

variable {α β γ : Type} {s : Settings} {n k : Nat} {x : Action α} {f : α → Action β}

protected theorem pure (a : α) : Spends s 0 (pure a) := fun _ _ hm => .ok hm

theorem fail {e : Fault} (he : e ≠ .multiplicationOverflow) :
    Spends s n (Action.fail e : Action α) :=
  fun _ _ _ => .stop fun h => absurd (Stop.fault.inj h) he

theorem mono (hx : Spends s n x) (hle : n ≤ k) : Spends s k x := by
  intro used m hm
  have hle : used + n ≤ used + k := Nat.add_le_add_left hle used
  have h := hx used m hm
  generalize x m = r at h
  cases h with
  | ok hm' => exact .ok (hm'.mono hle)
  | stop hs => exact .stop fun he => (hs he).mono hle

protected theorem bind (hx : Spends s n x) (hf : ∀ a, Spends s k (f a)) :
    Spends s (k + n) (x >>= f) := by
  intro used m hm
  have h := hx used m hm
  generalize hr : x m = r at h
  cases h with
  | @ok a m' hm' =>
    rw [bind_ok hr, Nat.add_comm k, ← Nat.add_assoc]
    exact hf a (used + n) m' hm'
  | stop hs =>
    rw [bind_error hr]
    exact .stop fun he => (hs he).mono (by omega)

theorem bind_free (hx : Spends s n x) (hf : ∀ a, Spends s 0 (f a)) : Spends s n (x >>= f) := by
  simpa using hx.bind hf

theorem get_bind {f : Machine → Action β} (hf : ∀ m, Spends s n (f m)) : Spends s n (get >>= f) :=
  fun used m hm => hf m used m hm

theorem ofExcept {r : Except Fault α} (hr : r ≠ .error .multiplicationOverflow) :
    Spends s 0 (Action.ofExcept r) := by
  cases r with
  | ok a => exact .pure a
  | error e => exact fail fun he => hr (congrArg Except.error he)

theorem change_bind {g : Machine → Machine} {f : Unit → Action β}
    (hg : ∀ {m : Machine} {n : Nat}, m.memory.Within s n → (g m).memory.Within s n)
    (hf : Spends s n (f ())) : Spends s n (modify g >>= f) :=
  fun used m hm => hf used (g m) (hg hm)

theorem change {g : Machine → Machine}
    (hg : ∀ {m : Machine} {n : Nat}, m.memory.Within s n → (g m).memory.Within s n) :
    Spends s 0 (modify g) :=
  fun _ _ hm => .ok (hg hm)

theorem forM {l : List γ} {g : γ → Action Unit} (hg : ∀ e ∈ l, Spends s n (g e)) :
    Spends s (l.length * n) (l.forM g) := by
  induction l with
  | nil => exact (Spends.pure ()).mono (Nat.zero_le _)
  | cons e rest ih =>
    have hrest := ih fun e' he' => hg e' (List.mem_cons_of_mem _ he')
    rw [List.length_cons, Nat.succ_mul]
    exact (hg e (List.mem_cons_self ..)).bind fun _ => hrest

protected theorem allocate (o : HeapObject) : Spends s 1 (allocate o) := by
  intro used m hm
  obtain ⟨hkept, hover⟩ := hm.collect (m.roots ++ o.roots)
  unfold ObjectMachine.allocate
  split_ifs
  · cases hc : m.memory.collect (m.roots ++ o.roots) with
    | error f =>
      refine .stop fun hf => hover ?_
      rw [hc, Stop.fault.inj hf]
    | ok c =>
      -- the growth and the new object belong to the same allocation
      obtain ⟨hwithin, hsize⟩ := hkept c hc
      exact .ok ⟨hwithin.settings, hwithin.capacity, by simpa using hsize, hwithin.epochs⟩
  · exact .ok (hm.append o)

protected theorem intern (name : String) : Spends s 1 (intern name) := by
  apply get_bind
  intro m
  cases m.symbols.get? name with
  | some v => exact (Spends.pure v).mono (Nat.zero_le 1)
  | none =>
    apply get_bind
    intro m
    apply (Spends.allocate _).bind
    exact fun v => change_bind (fun hm => hm) (.pure v)

protected theorem newClass (name : String) (superclass : Value) (ownVariables : List String) :
    Spends s 2 (newClass name superclass ownVariables) := by
  apply change_bind
  · exact fun hm => hm
  apply get_bind
  intro m
  apply (Spends.allocate _).bind
  intro methods
  apply Spends.bind (n := 0)
  · exact get_bind fun m => change_bind (fun hm => hm) (.pure _)
  intro superclass
  apply get_bind
  intro m
  apply (Spends.allocate _).bind
  exact fun v => change_bind (fun hm => hm) (.pure v)

end Spends

theorem Machine.body_ne_overflow (m : Machine) (v : Value) :
    m.body v ≠ .error .multiplicationOverflow := by
  unfold body
  cases m.memory.body? v <;> simp

/-- Two allocations for every core class and for every core method. -/
def setUpAllocations : Nat := 2 * coreNames.length + 2 * (primitiveMethods.length + 2)

def Literal.isMade : Literal → Bool
  | .value _ => false
  | .symbol _ | .string _ => true

namespace Spends

variable {s : Settings}

protected theorem defineMethod (classRef : Value) (selector : String) (method : Value) :
    Spends s 0 (defineMethod classRef selector method) := by
  apply get_bind
  intro m
  apply (ofExcept (m.body_ne_overflow classRef)).bind
  intro body
  cases body with
  | classInfo c =>
    apply (ofExcept (m.body_ne_overflow c.methods)).bind
    intro body
    cases body with
    | dictionary d =>
      apply change
      intro m n hm
      cases c.methods with
      | pointer i => exact hm.withObjects (Nat.le_of_eq Array.size_modify)
      | _ => exact hm
    | _ => exact fail (by simp)
  | _ => exact fail (by simp)

protected theorem fill (literals : List Literal) (place : Nat) :
    Spends s (literals.countP Literal.isMade) (Draft.fill literals place) := by
  induction literals generalizing place with
  | nil => exact .pure ()
  | cons literal rest ih =>
    cases literal with
    | value v => exact ih _
    | symbol name =>
      rw [List.countP_cons_of_pos rfl]
      apply (Spends.intern name).bind
      intro v
      apply change_bind
      · exact fun hm => hm
      · exact ih _
    | string text =>
      rw [List.countP_cons_of_pos rfl]
      apply Spends.bind (n := 1)
      · exact get_bind fun m => .allocate _
      intro v
      apply change_bind
      · exact fun hm => hm
      · exact ih _

protected theorem build (d : Draft) :
    Spends s (2 + d.literals.toList.countP Literal.isMade) d.build := by
  apply get_bind
  intro m
  apply change_bind
  · exact fun hm => hm
  apply (Spends.fill _ _).bind
  intro _
  apply (Spends.intern _).bind
  intro selector
  apply get_bind
  intro m
  apply Spends.bind (n := 1)
  · exact get_bind fun m => .allocate _
  · exact fun v => change_bind (fun hm => hm) (.pure v)

protected theorem install (d : Draft) :
    Spends s (2 + d.literals.toList.countP Literal.isMade) d.install := by
  apply (Spends.build d).bind_free
  intro v
  apply get_bind
  intro m
  apply (ofExcept (m.body_ne_overflow v)).bind
  intro body
  cases body with
  | method c =>
    apply (Spends.defineMethod _ _ _).bind
    exact fun _ => change_bind (fun hm => hm) (.pure v)
  | _ => exact fail (by simp)

theorem addCoreClass (name : String) (superclass : CoreClasses → Value)
    (note : CoreClasses → Value → CoreClasses) :
    Spends s 2 (addCoreClass name superclass note) := by
  apply get_bind
  intro m
  apply (Spends.newClass _ _ _).bind
  exact fun v => change fun hm => hm

theorem installPrimitive (className selector : String) (primitive : Nat) :
    Spends s 2 (installPrimitive className selector primitive) := by
  apply get_bind
  intro m
  apply bind_free
  · exact (Spends.install _).mono (Nat.le_refl 2)
  · exact fun _ => .pure ()

theorem installConstant (className selector : String) (v : Value) :
    Spends s 2 (installConstant className selector v) := by
  apply get_bind
  intro m
  apply bind_free
  · have hdraft := Spends.install (s := s) (((Draft.new
      ((m.globals.get? className).getD .nil) selector).push (.value v)).emit .returnTop)
    rwa [Draft.constant_eq] at hdraft ⊢
  · exact fun _ => .pure ()

theorem addCoreClasses : Spends s 26 addCoreClasses := by
  repeat apply (addCoreClass _ _ _).bind; intro _
  exact addCoreClass _ _ _

theorem installCoreMethods : Spends s 58 installCoreMethods := by
  apply Spends.bind (n := 54)
  · have hrows := forM (s := s) (l := primitiveMethods) fun e _ => installPrimitive e.1 e.2.1 e.2.2
    exact hrows.mono (by decide)
  intro _
  apply (installConstant _ _ _).bind
  exact fun _ => installConstant _ _ _

protected theorem setUp : Spends s setUpAllocations setUp := by
  apply Spends.mono (n := 84) _ (by decide)
  apply addCoreClasses.bind
  intro _
  apply change_bind
  · exact fun hm => hm.withObjects (Nat.le_of_eq Array.size_map)
  apply installCoreMethods.bind_free
  intro _
  apply get_bind
  exact fun m => change fun hm => hm

end Spends

/-- The only way in which the capacity of a fresh machine overflows. -/
theorem outgrows_of_bootstrap {settings : Settings} {maxDepth : Nat}
    (h : bootstrap settings maxDepth = .error (.fault .multiplicationOverflow)) :
    settings.Outgrows setUpAllocations := by
  unfold bootstrap at h
  split at h
  case h_1 f hnew =>
    unfold Machine.new Memory.new at hnew
    split at hnew
    · cases hnew
      cases h
    · cases hnew
  case h_2 m hnew =>
    have hm : m.memory.Within settings 0 := by
      rw [Machine.eq_of_new hnew]
      exact ⟨rfl, ⟨0, Nat.le_refl 0, rfl⟩, Nat.le_refl 0, fun id c hc => absurd hc (by simp)⟩
    have hspent := Spends.setUp 0 m hm
    split at h
    case h_1 => cases h
    case h_2 e m' hset =>
      rw [hset] at hspent
      cases hspent with
      | stop hover =>
        rw [Nat.zero_add] at hover
        exact hover (Except.error.inj h)

end ObjectMachine

import ObjectMachine.Proofs.IndexedRuns
import ObjectMachine.Proofs.Trails

/-!
# What running code leaves alone

Running code writes to slots, elements and bytes of objects, and that is all it
changes of what is there. The names and values that the machine knows stay, and so
do the class, the shape and the size of every object, and everything that classes,
methods, blocks, dictionaries, strings and symbols hold. Collections on the way move
objects; what is left of them has gone where the trail of the run says.
-/

namespace ObjectMachine

open ObjectMachine.Action

def Body.extent : Body → Nat
  | slots values | array values => values.size
  | bytes data => data.size
  | _ => 0

theorem Body.extent_map (b : Body) (f : Value → Value) : (b.map f).extent = b.extent := by
  cases b with
  | slots values | array values => exact Array.size_map
  | _ => rfl

theorem Body.isFixed_eq_of_kind {b b' : Body} (h : b'.kind = b.kind) : b'.isFixed = b.isFixed := by
  cases b <;> cases b' <;> first | rfl | cases h

theorem Body.Rewrites.kind_eq {g : Body → Body} (hg : Rewrites g) (b : Body) :
    (g b).kind = b.kind := by
  cases hg <;> cases b <;> rfl

theorem Body.Rewrites.extent_eq {g : Body → Body} (hg : Rewrites g) (b : Body) :
    (g b).extent = b.extent := by
  cases hg with
  | slot place v =>
    cases b with
    | slots values => simp [setSlot, extent]
    | _ => rfl
  | element place v =>
    cases b with
    | array elements => simp [setElement, extent]
    | _ => rfl
  | byte place byte =>
    cases b with
    | bytes data => simp [setByte, extent]
    | _ => rfl

/-- What stays the same of an object, with references going where `d` says. -/
structure HeapObject.Retains (d : Displacement) (o o' : HeapObject) : Prop where
  kind : o'.body.kind = o.body.kind
  extent : o'.body.extent = o.body.extent
  classKept : d.Keeps o.header.classRef
  classRef : o'.header.classRef = o.header.classRef.rename d.place
  /-- What a fixed body refers to is there as long as the object. -/
  edgesKept : o.body.isFixed = true → ∀ v ∈ o.body.edges, d.Keeps v
  fixed : o.body.isFixed = true → o'.body = o.body.map (Value.rename d.place)

/-- The roots and the structure of all objects that are left stay the same. -/
structure KeepsStructure (d : Displacement) (m m' : Machine) : Prop
    extends RootsFollow d m m' where
  injective : Set.InjOn d.place {i | d.survives i}
  objects : ∀ (i : Nat) o, d.survives i → m.memory.objects[i]? = some o →
    ∃ o', m'.memory.objects[d.place i]? = some o' ∧ o.Retains d o'

namespace HeapObject.Retains

theorem trans {d e : Displacement} {o o₁ o₂ : HeapObject} (h : o.Retains d o₁)
    (h' : o₁.Retains e o₂) : o.Retains (d.andThen e) o₂ := by
  have hfixed : o.body.isFixed = true → o₁.body.isFixed = true := by
    rw [Body.isFixed_eq_of_kind h.kind]
    exact id
  constructor
  · exact h'.kind.trans h.kind
  · exact h'.extent.trans h.extent
  · rw [Displacement.keeps_andThen, ← h.classRef]
    exact ⟨h.classKept, h'.classKept⟩
  · rw [h'.classRef, h.classRef, Displacement.rename_andThen]
    rfl
  · intro hbody v hv
    rw [Displacement.keeps_andThen]
    refine ⟨h.edgesKept hbody v hv, h'.edgesKept (hfixed hbody) _ ?_⟩
    rw [h.fixed hbody, Body.edges_map]
    exact List.mem_map_of_mem hv
  · intro hbody
    rw [h'.fixed (hfixed hbody), h.fixed hbody, Body.map_map, Displacement.rename_andThen]

theorem still {o o' : HeapObject} (hheader : o'.header = o.header)
    (hkind : o'.body.kind = o.body.kind) (hextent : o'.body.extent = o.body.extent)
    (hfixed : o.body.isFixed = true → o'.body = o.body) : o.Retains .still o' where
  kind := hkind
  extent := hextent
  classKept := Displacement.keeps_still _
  classRef := by rw [hheader, Displacement.still, Value.rename_id]; rfl
  edgesKept _ v _ := Displacement.keeps_still v
  fixed hbody := by rw [hfixed hbody, Displacement.still, Value.rename_id, Body.map_id]

end HeapObject.Retains

namespace KeepsStructure

variable {m m₁ m' : Machine} {d e : Displacement}

theorem trans (h : KeepsStructure d m m₁) (h' : KeepsStructure e m₁ m') :
    KeepsStructure (d.andThen e) m m' := by
  constructor
  · exact h.toRootsFollow.trans h'.toRootsFollow
  · rintro i ⟨hi, hi'⟩ j ⟨hj, hj'⟩ heq
    exact h.injective hi hj (h'.injective hi' hj' heq)
  · rintro i o ⟨hi, hi'⟩ ho
    obtain ⟨o₁, ho₁, hretains⟩ := h.objects i o hi ho
    obtain ⟨o₂, ho₂, hretains'⟩ := h'.objects _ o₁ hi' ho₁
    exact ⟨o₂, ho₂, hretains.trans hretains'⟩

theorem inPlace (hroots : RootsFollow .still m m') (hobjects : ∀ (i : Nat) o,
      m.memory.objects[i]? = some o →
      ∃ o', m'.memory.objects[i]? = some o' ∧ o.Retains .still o') :
    KeepsStructure .still m m' where
  toRootsFollow := hroots
  injective := Set.injOn_id _
  objects i o _ ho := hobjects i o ho

theorem still (hroots : RootsFollow .still m m')
    (hobjects : m'.memory.objects = m.memory.objects) : KeepsStructure .still m m' := by
  apply inPlace hroots
  intro i o ho
  rw [hobjects]
  exact ⟨o, ho, .still rfl rfl rfl fun _ => rfl⟩

theorem write (hroots : RootsFollow .still m m') (v : Value) {g : Body → Body}
    (hg : Body.Rewrites g) (hobjects : m'.memory.objects = (m.memory.modifyBody v g).objects) :
    KeepsStructure .still m m' := by
  apply inPlace hroots
  intro i o ho
  rw [hobjects, Memory.getElem?_modifyBody, ho]
  split_ifs
  · refine ⟨_, rfl, .still rfl (hg.kind_eq o.body) (hg.extent_eq o.body) ?_⟩
    exact fun hfixed => hg.eq_self (.inl hfixed)
  · exact ⟨o, rfl, .still rfl rfl rfl fun _ => rfl⟩

theorem shifted {kept : Root → Prop} (h : Shifted kept d m m') : KeepsStructure d m m' := by
  constructor
  · exact h.rootsFollow
  · intro i hi j hj heq
    exact h.injective ((h.survives i).mp hi) ((h.survives j).mp hj) heq
  · intro i o hi ho
    have hkept := (h.survives i).mp hi
    have hedges : ∀ v ∈ o.edges, d.Keeps v := by
      intro v hv
      apply h.keeps
      apply h.closed _ hkept
      rw [Memory.mem_next_pointer ho]
      exact (o.value_mem_roots v).mpr hv
    obtain ⟨header, hclass, ho'⟩ := h.objects i o hkept ho
    refine ⟨_, ho', Body.kind_map .., Body.extent_map .., ?_, hclass, ?_, fun _ => rfl⟩
    · exact hedges _ (List.mem_cons_self ..)
    · exact fun _ v hv => hedges v (List.mem_cons_of_mem _ hv)

theorem places {o : HeapObject} {v : Value} (hp : Places m o d v m')
    (hepochs : m.memory.EpochsPast) : KeepsStructure d m m' := by
  obtain ⟨kept, m₁, hshifted, -, -, rfl⟩ := hp.shifted hepochs
  have hmoved := shifted hshifted
  refine ⟨hp.rootsFollow hepochs, hmoved.injective, ?_⟩
  intro i o hi ho
  obtain ⟨o', ho', hretains⟩ := hmoved.objects i o hi ho
  have hplace := (Array.getElem?_eq_some_iff.mp ho').1
  exact ⟨o', (m₁.memory.object?_append_old _ hplace).trans ho', hretains⟩

end KeepsStructure

section

variable {m m' : Machine} {d : Displacement}

theorem Act.keepsStructure (h : Act m d m') (hepochs : m.memory.EpochsPast) :
    KeepsStructure d m m' := by
  have hroots := h.rootsFollow hepochs
  cases h with
  | write v hg => exact .write hroots v hg rfl
  | create _ hplaces => exact .places hplaces hepochs
  | leave =>
    apply KeepsStructure.still hroots
    rw [Machine.leave]
    cases m.active <;> rfl
  | _ => exact .still hroots rfl

/-- What every act keeps is kept all the way. -/
theorem Trail.keepsStructure (h : Trail Act m d m') (hepochs : m.memory.EpochsPast) :
    KeepsStructure d m m' := by
  induction h with
  | refl => exact .still (.still m) rfl
  | tail htrail hact ih =>
    have hepochs₁ := htrail.keeps (fun _ _ _ hact hepochs => hact.epochs hepochs) hepochs
    exact ih.trans (hact.keepsStructure hepochs₁)

end

/-- The operations that only run code: they bring in none. -/
def Operation.onlyRuns : Operation → Bool
  | send _ _ _ _ | executeMethod _ _ _ _ | callBlock _ _ _ => true
  | _ => false

theorem Operation.acts_linked {op : Operation} (hop : op.onlyRuns = true) (m : Machine) :
    Linked Act m (after op.run m) := by
  have hlaunch : ∃ fuel start, op.Launches m fuel start m := by
    cases op with
    | send fuel receiver selector args => exact ⟨fuel, _, .send ..⟩
    | executeMethod fuel method receiver args => exact ⟨fuel, _, .executeMethod ..⟩
    | callBlock fuel block args => exact ⟨fuel, _, .callBlock ..⟩
    | _ => cases hop
  obtain ⟨fuel, start, hlaunch⟩ := hlaunch
  rw [after_eq, hlaunch.run_eq]
  exact launch_linked hlaunch.linked

/-- A program leaves a trail of its acts, and however it ends, it has changed nothing
of what is left but slots, elements and bytes. -/
theorem running_keeps_structure {m : Machine} (h : Occurs (fun _ _ => True) m) {op : Operation}
    (hop : op.onlyRuns = true) :
    (∃ d, Trail Act m d (after op.run m)) ∧
      ∀ d, Trail Act m d (after op.run m) → KeepsStructure d m (after op.run m) :=
  ⟨op.acts_linked hop m, fun _ htrail => htrail.keepsStructure h.epochs⟩

/-- A fresh machine and one more method nearly fill this much. -/
def Settings.snug : Settings := { Settings.tight with initialCapacity := 94 }

/-- The countdown collects on its way. -/
theorem countdown_keeps_structure : ∃ m d, Occurs (fun _ _ => True) m ∧
    m.memory.collections < (after Operation.countdown.run m).memory.collections ∧
    Trail Act m d (after Operation.countdown.run m) ∧
    KeepsStructure d m (after Operation.countdown.run m) := by
  have hboots : boots .snug 5 (fun m =>
      let m := after (Operation.installCountdown m).run m
      decide (m.memory.collections < (after Operation.countdown.run m).memory.collections)) =
        true := by decide +kernel
  obtain ⟨m, hboot, hcollects⟩ := exists_of_boots hboots
  have hm : Occurs (fun _ _ => True) (after (Operation.installCountdown m).run m) :=
    .attained (.operated (.boot hboot) trivial)
  have hop : Operation.countdown.onlyRuns = true := rfl
  obtain ⟨⟨d, htrail⟩, hkeeps⟩ := running_keeps_structure hm hop
  exact ⟨_, d, hm, of_decide_eq_true hcollects, htrail, hkeeps d htrail⟩

end ObjectMachine

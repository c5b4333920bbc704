import ObjectMachine.Proofs.Inheritance
import ObjectMachine.Proofs.Interning

/-!
# Supplies

What building a method does to memory: objects are placed and names are entered, and the
scratch stack holds what still needs to be kept. Wherever collections fall in between,
the objects that were there before are conveyed as they are, and what is placed is fresh.
-/

namespace ObjectMachine

open ObjectMachine.Action

/-- A step of building: an object is placed, perhaps as the symbol of its name, or the
scratch stack changes. -/
inductive Supplies : Machine → Displacement → Machine → Prop
  | place {m m' : Machine} {o : HeapObject} {d : Displacement} {v : Value} :
      (∀ name, o.body ≠ .symbol name) → Places m o d v m' → Supplies m d m'
  | name {m m' : Machine} {name : String} {d : Displacement} {v : Value} :
      m.symbols.get? name = none → Places m (.new m.core.symbol (.symbol name)) d v m' →
      Supplies m d { m' with symbols := m'.symbols.insert name v }
  | stack (m : Machine) (values : Array Value) : Supplies m .still { m with scratch := values }

theorem Supplies.change {m m' : Machine} {d : Displacement} (h : Supplies m d m') :
    Change (fun b => ∀ name, b ≠ .symbol name) m d m' := by
  cases h with
  | place ho hp => exact .make (fun _ => ho) hp
  | name hname hp => exact .intern hname hp
  | stack values => exact .reroot ⟨rfl, rfl, rfl, rfl, rfl⟩

/-- Every object that survives is where the displacement says, its edges moved along, and
no two have met. -/
structure Conveys (d : Displacement) (m m' : Machine) : Prop where
  body? : ∀ v b, d.Keeps v → m.memory.body? v = some b →
    m'.memory.body? (v.rename d.place) = some (b.map (Value.rename d.place))
  apart : ∀ v u b b', d.Keeps v → d.Keeps u → m.memory.body? v = some b →
    m.memory.body? u = some b' → v.rename d.place = u.rename d.place → v = u

/-- No object of `m` has become this one. -/
def Fresh (d : Displacement) (m : Machine) (u : Value) : Prop :=
  ∀ v b, d.Keeps v → m.memory.body? v = some b → u ≠ v.rename d.place

section

variable {m m₁ m' : Machine} {d e : Displacement}

theorem Shifted.kept_of_body? {kept : Root → Prop} (h : Shifted kept d m m') {v : Value} {b : Body}
    (hv : d.Keeps v) (hb : m.memory.body? v = some b) : kept (.value v) := by
  cases v with
  | pointer i => exact (h.survives i).mp (hv i rfl)
  | _ => cases hb

namespace Conveys

theorem still (hbody : m'.memory.body? = m.memory.body?) : Conveys .still m m' := by
  have hrename : Value.rename Displacement.still.place = id := Value.rename_id
  constructor
  · intro v b _ hb
    rw [hrename, Body.map_id, hbody]
    exact hb
  · intro v u _ _ _ _ _ _ heq
    rwa [hrename] at heq

theorem trans (h : Conveys d m m₁) (h' : Conveys e m₁ m') : Conveys (d.andThen e) m m' := by
  have hrename := d.rename_andThen e
  constructor
  · intro v b hv hb
    obtain ⟨hv, hv'⟩ := Displacement.keeps_andThen.mp hv
    rw [hrename]
    have hmoved := h'.body? _ _ hv' (h.body? v b hv hb)
    rwa [Body.map_map] at hmoved
  · intro v u b b' hv hu hb hb' heq
    obtain ⟨hv, hv'⟩ := Displacement.keeps_andThen.mp hv
    obtain ⟨hu, hu'⟩ := Displacement.keeps_andThen.mp hu
    rw [hrename] at heq
    have hmet := h'.apart _ _ _ _ hv' hu' (h.body? v b hv hb) (h.body? u b' hu hb') heq
    exact h.apart v u b b' hv hu hb hb' hmet

/-- What is fresh stays so when it moves. -/
theorem fresh_trans (h : Conveys d m m₁) (h' : Conveys e m₁ m') {u : Value} {b : Body}
    (hfresh : Fresh d m u) (hu : e.Keeps u) (hb : m₁.memory.body? u = some b) :
    Fresh (d.andThen e) m (u.rename e.place) := by
  intro v b' hv hb' heq
  obtain ⟨hv, hv'⟩ := Displacement.keeps_andThen.mp hv
  rw [d.rename_andThen e] at heq
  exact hfresh v b' hv hb' (h'.apart _ _ _ _ hu hv' hb (h.body? v b' hv hb') heq)

/-- What is fresh later is fresh from the start. -/
theorem fresh_of_later (h : Conveys d m m₁) {u : Value} (hfresh : Fresh e m₁ u) :
    Fresh (d.andThen e) m u := by
  intro v b hv hb
  obtain ⟨hv, hv'⟩ := Displacement.keeps_andThen.mp hv
  rw [d.rename_andThen e]
  exact hfresh _ _ hv' (h.body? v b hv hb)

end Conveys

section

variable {o : HeapObject} {v : Value} (hp : Places m o d v m') (hepochs : m.memory.EpochsPast)

include hp hepochs

theorem Places.conveys : Conveys d m m' := by
  obtain ⟨kept, m₁, hshifted, -, -, rfl⟩ := hp.shifted hepochs
  constructor
  · intro u b hu hb
    apply Memory.body?_append
    rw [hshifted.body?_rename hu, hb, Option.map_some]
  · intro u w b b' hu hw hb hb' heq
    exact hshifted.toRelocated.eq_of_rename (hshifted.kept_of_body? hu hb)
      (hshifted.kept_of_body? hw hb') heq

theorem Places.body : m'.memory.body? v = some (o.body.map (Value.rename d.place)) := by
  obtain ⟨kept, m₁, -, -, rfl, rfl⟩ := hp.shifted hepochs
  rw [Machine.append_memory, Memory.body?, Machine.nextPlace, Memory.object?_append_new,
    Option.map_some, HeapObject.mapEdges_body]

/-- The new object is beyond all that were there. -/
theorem Places.fresh : Fresh d m v := by
  obtain ⟨kept, m₁, hshifted, -, rfl, rfl⟩ := hp.shifted hepochs
  intro u b hu hb heq
  have hlive := Memory.live_of_body? (hshifted.toRelocated.body? (hshifted.kept_of_body? hu hb) hb)
  rw [← heq] at hlive
  exact absurd hlive (Nat.lt_irrefl _)

end

theorem Supplies.conveys (h : Supplies m d m') (hepochs : m.memory.EpochsPast) :
    Conveys d m m' := by
  cases h with
  | place _ hp => exact hp.conveys hepochs
  | name _ hp =>
    have hconveys := hp.conveys hepochs
    exact ⟨hconveys.body?, hconveys.apart⟩
  | stack values => exact .still rfl

theorem Trail.supplied (h : Trail Supplies m d m') (hepochs : m.memory.EpochsPast) :
    m'.memory.EpochsPast ∧ Conveys d m m' := by
  induction h with
  | refl => exact ⟨hepochs, .still rfl⟩
  | tail _ hstep ih =>
    obtain ⟨hepochs₁, hconveys⟩ := ih
    exact ⟨hstep.change.epochs hepochs₁, hconveys.trans (hstep.conveys hepochs₁)⟩

end

/-- The scratch stack is the old one, moved. -/
structure ScratchFollows (d : Displacement) (m m' : Machine) : Prop where
  kept : ∀ v ∈ m.scratch, d.Keeps v
  scratch : m'.scratch = m.scratch.map (Value.rename d.place)

theorem RootsFollow.scratchFollows {d : Displacement} {m m' : Machine} (h : RootsFollow d m m') :
    ScratchFollows d m m' :=
  ⟨fun v hv => h.kept v (Machine.value_mem_roots.mpr (.inr (.inr (.inr hv)))), h.scratch⟩

namespace ScratchFollows

variable {m m' : Machine} {d : Displacement}

theorem still (h : m'.scratch = m.scratch) : ScratchFollows .still m m' := by
  refine ⟨fun v _ => Displacement.keeps_still v, ?_⟩
  rw [h, show Value.rename Displacement.still.place = id from Value.rename_id, Array.map_id]

theorem getElem? (h : ScratchFollows d m m') {k : Nat} {v : Value} (hv : m.scratch[k]? = some v) :
    d.Keeps v ∧ m'.scratch[k]? = some (v.rename d.place) := by
  refine ⟨h.kept v (Array.mem_of_getElem? hv), ?_⟩
  rw [h.scratch, Array.getElem?_map, hv, Option.map_some]

end ScratchFollows

section

variable {m : Machine}

/-- In an intact machine an object finds its place, or the memory cannot grow. -/
theorem Machine.Intact.places {discipline : Discipline} (hm : m.Intact discipline) {o : HeapObject}
    (ho : ∀ inUse, m.IntactFor discipline inUse → o.Intact discipline (m.memory.view inUse)) :
    OutOfCapacity (allocate o m) ∨
      ∃ d v m', allocate o m = .ok v m' ∧ Places m o d v m' := by
  have hrange : ∀ r, m.memory.Reaches (m.roots ++ o.roots) r → m.memory.InRange r := by
    obtain ⟨inUse, h⟩ := hm
    intro r hr
    refine Memory.Intact.inRange_of_held (h.memory.held_of_reaches ?_ hr)
    intro s hs
    rcases List.mem_append.mp hs with hs | hs
    · exact h.roots s hs
    · exact (ho inUse h).held s hs
  rcases allocate_moves hrange hm.epochs with ⟨herror, hfull⟩ | ⟨_, _, _, -, -, hok⟩
  · left
    rw [herror]
    exact ⟨rfl, hfull⟩
  · rcases allocate_places o m with ⟨d, v, m', hp, hok'⟩ | ⟨f, -, herror⟩
    · exact .inr ⟨d, v, m', hok', hp⟩
    · rw [herror] at hok
      cases hok

/-- What is made for the host, symbols apart. -/
theorem Made.supplies (hm : m.Intact .free) {o : HeapObject} (ho : Made .free m o)
    (hsymbol : ∀ name, o.body ≠ .symbol name) :
    OutOfCapacity (allocate o m) ∨ ∃ d v m', allocate o m = .ok v m' ∧ m'.Intact .free ∧
      Supplies m d m' ∧ ScratchFollows d m m' ∧
      m'.memory.body? v = some (o.body.map (Value.rename d.place)) ∧ Fresh d m v := by
  rcases hm.places (fun _ h => ho.intact h) with hfull | ⟨d, v, m', hok, hp⟩
  · exact .inl hfull
  · exact .inr ⟨d, v, m', hok, (Move.allocate ho hok).intact hm, .place hsymbol hp,
      (hp.rootsFollow hm.epochs).scratchFollows, hp.body hm.epochs, hp.fresh hm.epochs⟩

theorem newMethod_supplies (hm : m.Intact .free) {c : Method}
    (hselector : m.memory.Live c.selector) (howner : m.memory.Live c.owner)
    (hliterals : ∀ v ∈ c.literals, m.memory.Live v) :
    OutOfCapacity (newMethod c m) ∨ ∃ d v m', newMethod c m = .ok v m' ∧ m'.Intact .free ∧
      Supplies m d m' ∧ ScratchFollows d m m' ∧
      m'.memory.body? v = some ((Body.method c).map (Value.rename d.place)) ∧ Fresh d m v :=
  (Made.method c (by simp) hselector howner hliterals).supplies hm (by simp [HeapObject.new])

theorem intern_supplies (hm : m.Intact .free) (name : String) :
    OutOfCapacity (intern name m) ∨ ∃ d v m', intern name m = .ok v m' ∧ m'.Intact .free ∧
      Trail Supplies m d m' ∧ ScratchFollows d m m' ∧ m'.symbols.get? name = some v := by
  cases hname : m.symbols.get? name with
  | some v =>
    exact .inr ⟨.still, v, m, intern_of_get? hname, hm, .refl m, .still rfl, hname⟩
  | none =>
    have hintern : intern name m =
        (allocate (.new m.core.symbol (.symbol name)) >>= fun v => do
          modify fun m => { m with symbols := m.symbols.insert name v }
          return v) m := by
      rw [intern, bind_get, hname]
      rfl
    rcases hm.places (fun _ h => h.symbol (by simp) name) with hfull | ⟨d, v, m', hok, hp⟩
    · left
      rw [hintern]
      exact hfull.bind
    · right
      have hfollow := (hp.rootsFollow hm.epochs).scratchFollows
      refine ⟨d, v, { m' with symbols := m'.symbols.insert name v }, ?_, ?_, .one (.name hname hp),
        ⟨hfollow.kept, hfollow.scratch⟩, ?_⟩
      · rw [hintern, bind_ok hok]
        rfl
      · exact (Move.intern (by simp) hname hok).intact hm
      · rw [Dictionary.get?_insert, if_pos rfl]

end

end ObjectMachine

import ObjectMachine.Proofs.HostOperations
import ObjectMachine.Proofs.Lineage

/-!
# The classes of objects and the slots of instances

An object whose shape belongs to a core class has that class, and classes and
instances are laid out as their lineages say. Making objects establishes this,
writing to them keeps it, and so do collections, also while the first classes are
made. An instruction therefore reaches a slot of an instance exactly if its index
is below the number of variables that the class and its superclasses declare.
-/

namespace ObjectMachine

open ObjectMachine.Action

/-- The class that all objects of a shape have, where they have one. -/
def CoreClasses.ofKind? (core : CoreClasses) : BodyKind → Option Value
  | .method => some core.method
  | .block => some core.block
  | .array => some core.array
  | .bytes => some core.byteArray
  | .dictionary => some core.dictionary
  | .string => some core.string
  | .symbol => some core.symbol
  | .slots | .classInfo | .husk => Option.none

theorem CoreClasses.ofKind?_map (core : CoreClasses) (g : Value → Value) (kind : BodyKind) :
    (core.map g).ofKind? kind = (core.ofKind? kind).map g := by
  cases kind <;> rfl

/-- An object of a shape that belongs to a core class has that class; while the
first classes are made, it may have none. -/
def HeapObject.Sorted (core : CoreClasses) (early : Prop) (o : HeapObject) : Prop :=
  ∀ v, core.ofKind? o.body.kind = some v →
    o.header.classRef = v ∨ early ∧ o.header.classRef = .nil

theorem HeapObject.Sorted.of_map {core : CoreClasses} {early : Prop} {o o' : HeapObject}
    {f : Nat → Nat} (h : o.Sorted core early) (hkind : o'.body.kind = o.body.kind)
    (hclass : o'.header.classRef = o.header.classRef.rename f) :
    o'.Sorted (core.map (Value.rename f)) early := by
  intro v hv
  rw [hkind, CoreClasses.ofKind?_map] at hv
  obtain ⟨u, hu, rfl⟩ := Option.map_eq_some_iff.mp hv
  rw [hclass]
  rcases h u hu with hcore | ⟨hearly, hnil⟩
  · exact .inl (congrArg _ hcore)
  · exact .inr ⟨hearly, by rw [hnil]; rfl⟩

/-- A laid-out machine whose objects have the classes of their shapes. -/
structure Machine.Ordered (early : Prop) (m : Machine) : Prop where
  memory : m.memory.LaidOut
  sorted : ∀ (i : Nat) (o : HeapObject), m.memory.objects[i]? = some o → o.Sorted m.core early

theorem Machine.Intact.headersLive {d : Discipline} {m : Machine} (h : m.Intact d) :
    m.memory.HeadersLive := by
  obtain ⟨inUse, h⟩ := h
  intro i o ho
  exact (m.memory.held_iff_live inUse _).mp
    ((h.memory.objects i o ho).held _ ((o.value_mem_roots _).mpr (List.mem_cons_self ..)))

theorem Machine.Intact.epochs {d : Discipline} {m : Machine} (h : m.Intact d) :
    m.memory.EpochsPast := by
  obtain ⟨inUse, h⟩ := h
  exact h.memory.epochs

namespace Machine.Ordered

variable {early : Prop} {m m' : Machine}

theorem congr (h : m.Ordered early) (hobjects : m'.memory.objects = m.memory.objects)
    (hcore : m'.core = m.core) : m'.Ordered early := by
  refine ⟨h.memory.congr hobjects, fun i o ho => ?_⟩
  rw [hobjects] at ho
  rw [hcore]
  exact h.sorted i o ho

theorem modifyBody (h : m.Ordered early) {v : Value} {g : Body → Body}
    (hg : ∀ b, m.memory.body? v = some b → b.Akin (g b)) :
    Machine.Ordered early { m with memory := m.memory.modifyBody v g } := by
  refine ⟨h.memory.modifyBody hg, fun i o' ho' u hu => ?_⟩
  obtain ⟨o, ho, hheader, hakin⟩ := Memory.exists_of_modifyBody hg ho'
  rw [hakin.kind_eq] at hu
  rw [hheader]
  exact h.sorted i o ho u hu

theorem relocated {kept : Root → Prop} {f : Nat → Nat} (h : m.Ordered early)
    (hheaders : m.memory.HeadersLive) (hm' : Relocated kept f m m') : m'.Ordered early := by
  refine ⟨hm'.laidOut h.memory hheaders, fun k o' ho' => ?_⟩
  obtain ⟨i, o, -, ho, hclass, hbody⟩ := hm'.exists_object ho'
  rw [hm'.core]
  exact (h.sorted i o ho).of_map (by rw [hbody, Body.kind_map]) hclass

end Machine.Ordered

/-- What is known of a new object before it is placed. -/
structure HeapObject.Fresh (m : Machine) (o : HeapObject) : Prop where
  sorted : o.Sorted m.core False
  classes : ∀ c, o.body = .classInfo c → m.memory.Bears c.superclass ∧
    c.instanceSize = m.memory.instanceSize c.superclass + c.ownVariables.length
  instances : ∀ values c, o.body = .slots values →
    m.memory.body? o.header.classRef = some (.classInfo c) → values.size = c.instanceSize

namespace HeapObject.Fresh

variable {m : Machine}

theorem of_kind {classRef v : Value} {body : Body}
    (hkind : m.core.ofKind? body.kind = some v) (hclass : classRef = v) :
    (HeapObject.new classRef body).Fresh m := by
  refine ⟨fun u hu => .inl ?_, fun c hc => ?_, fun values c hslots => ?_⟩
  · exact hclass.trans (Option.some.inj (hkind.symm.trans hu))
  · obtain rfl : body = .classInfo c := hc
    cases hkind
  · obtain rfl : body = .slots values := hslots
    cases hkind

theorem of_slots {classRef : Value} {values : Array Value}
    (hsize : ∀ c, m.memory.body? classRef = some (.classInfo c) → values.size = c.instanceSize) :
    (HeapObject.new classRef (.slots values)).Fresh m := by
  constructor
  · intro v hv
    cases hv
  · intro c hc
    cases hc
  · rintro _ c ⟨⟩ hc
    exact hsize c hc

theorem of_classInfo {c : ClassInfo} (hbears : m.memory.Bears c.superclass)
    (hsize : c.instanceSize = m.memory.instanceSize c.superclass + c.ownVariables.length) :
    (HeapObject.new .nil (.classInfo c)).Fresh m := by
  constructor
  · intro v hv
    cases hv
  · rintro _ ⟨⟩
    exact ⟨hbears, hsize⟩
  · intro values c' hslots
    cases hslots

theorem blank (m : Machine) (classRef : Value) (size : Nat) : (m.blank classRef size).Fresh m := by
  unfold Machine.blank
  split_ifs with harray hbytes hstring hdictionary
  · exact of_kind rfl harray
  · exact of_kind rfl hbytes
  · exact of_kind rfl hstring
  · exact of_kind rfl hdictionary
  · split
    case h_1 c hc =>
      apply of_slots
      intro c' hc'
      rw [hc'] at hc
      cases hc
      exact Array.size_replicate
    case h_2 hnone => exact of_slots fun c hc => absurd hc (hnone c)

/-- A new object stays what it is when the machine moves before it is placed. -/
theorem relocated {m' : Machine} {kept : Root → Prop} {f : Nat → Nat} {o : HeapObject}
    (h : o.Fresh m) (hm' : Relocated kept f m m') (hkept : ∀ r ∈ o.roots, kept r)
    (hlive : m.memory.Live o.header.classRef) : (o.mapEdges (Value.rename f)).Fresh m' := by
  have hedge : ∀ v ∈ o.edges, kept (.value v) := fun v hv => hkept _ ((o.value_mem_roots v).mpr hv)
  constructor
  · rw [hm'.core]
    exact h.sorted.of_map (by simp) (by simp)
  · intro c' hc'
    rw [mapEdges_body] at hc'
    cases hb : o.body with
    | classInfo c =>
      rw [hb] at hc'
      cases hc'
      obtain ⟨hbears, hsize⟩ := h.classes c hb
      have hsuper : kept (.value c.superclass) :=
        hedge _ (List.mem_cons_of_mem _ (by rw [hb]; simp [Body.edges]))
      obtain ⟨hbears', hinherited⟩ := hm'.bears hsuper hbears
      exact ⟨hbears', by rw [hinherited]; exact hsize⟩
    | _ =>
      rw [hb] at hc'
      cases hc'
  · intro values' c' hslots hc'
    rw [mapEdges_body] at hslots
    rw [mapEdges_classRef] at hc'
    cases hb : o.body with
    | slots values =>
      rw [hb] at hslots
      cases hslots
      obtain ⟨c, hc, hsize⟩ := hm'.class_of_live (hedge _ (List.mem_cons_self ..)) hlive hc'
      rw [Array.size_map, hsize]
      exact h.instances values c hb hc
    | _ =>
      rw [hb] at hslots
      cases hslots

end HeapObject.Fresh

theorem Made.fresh {d : Discipline} (hd : d.layers) {m : Machine} {o : HeapObject}
    (h : Made d m o) : o.Fresh m := by
  cases h with
  | classInfo c _ hbears hsize => exact .of_classInfo (hbears hd) hsize
  | blank classRef size => exact .blank m classRef size
  | _ => exact .of_kind rfl rfl

namespace Machine.Ordered

variable {early : Prop} {m m' : Machine}

theorem append (h : m.Ordered early) (hheaders : m.memory.HeadersLive) {o : HeapObject}
    (ho : o.Fresh m) (hlive : m.memory.Live o.header.classRef) : (m.append o).Ordered early := by
  refine ⟨h.memory.append hheaders hlive ho.classes ho.instances, fun i o' ho' => ?_⟩
  have ho' : (m.memory.objects.push o)[i]? = some o' := ho'
  rw [Array.getElem?_push] at ho'
  split_ifs at ho'
  · obtain rfl := Option.some.inj ho'
    exact fun v hv => (ho.sorted v hv).imp_right fun hnever => hnever.1.elim
  · exact h.sorted i o' ho'

theorem allocate (h : m.Ordered early) (hepochs : m.memory.EpochsPast)
    (hheaders : m.memory.HeadersLive) {o : HeapObject} (ho : o.Fresh m)
    (hlive : m.memory.Live o.header.classRef) {v : Value}
    (hok : ObjectMachine.allocate o m = .ok v m') : m'.Ordered early := by
  have hrules := allocate_rules hepochs o
  rw [hok] at hrules
  cases hrules with
  | @placed kept f m₁ hm₁ hkept =>
    have hclass : kept (.value o.header.classRef) :=
      hkept _ ((o.value_mem_roots _).mpr (List.mem_cons_self ..))
    refine (h.relocated hheaders hm₁).append (hm₁.headersLive hheaders)
      (ho.relocated hm₁ hkept hlive) ?_
    rw [HeapObject.mapEdges_classRef]
    exact hm₁.live hclass hlive

theorem leave (h : m.Ordered early) : m.leave.Ordered early := by
  unfold Machine.leave
  cases m.active with
  | none => exact h
  | some id => exact h.congr rfl rfl

end Machine.Ordered

theorem Move.ordered {d : Discipline} (hd : d.layers) {m m' : Machine} (hmove : Move d m m')
    (hintact : m.Intact d) {early : Prop} (h : m.Ordered early) : m'.Ordered early := by
  have hheaders := hintact.headersLive
  have hepochs := hintact.epochs
  obtain ⟨inUse, hfor⟩ := hintact
  cases hmove with
  | record | operate | temporary | enter | attempt | scratch | global => exact h.congr rfl rfl
  | leave => exact h.leave
  | write target f hf => exact h.modifyBody fun b hb => (hf b hb).akin
  | define target entries selector method hb =>
    apply h.modifyBody
    intro b hb'
    rw [hb] at hb'
    cases hb'
    exact .dictionary _ _
  | @allocate _ o v hmade hok =>
    have hlive : m.memory.Live o.header.classRef := (m.memory.held_iff_live inUse _).mp
      ((hmade.intact hfor).held _ ((o.value_mem_roots _).mpr (List.mem_cons_self ..)))
    exact h.allocate hepochs hheaders (hmade.fresh hd) hlive hok
  | intern _ _ hok =>
    have hlive : m.memory.Live m.core.symbol := hfor.live_of_core (by simp [CoreClasses.values])
    exact (h.allocate hepochs hheaders (.of_kind rfl rfl) hlive hok).congr rfl rfl
  | collect hok =>
    unfold collectGarbage at hok
    split at hok
    case h_1 => cases hok
    case h_2 c hc =>
      cases hok
      rw [← List.append_nil m.roots] at hc
      exact h.relocated hheaders (.collected hepochs hc)

theorem Path.ordered {d : Discipline} (hd : d.layers) {m m' : Machine} (hpath : Path d m m')
    (hintact : m.Intact d) {early : Prop} (h : m.Ordered early) : m'.Ordered early := by
  induction hpath with
  | refl => exact h
  | tail hpath hmove ih => exact hmove.ordered hd (Path.intact hpath hintact) ih

/-- The first `n` core classes have been made, and the objects so far are in order. -/
structure Founding (n : Nat) (m : Machine) : Prop where
  booting : Booting n m
  ordered : m.Ordered True

theorem Machine.new_founding {settings : Settings} {maxDepth : Nat} {m : Machine}
    (h : Machine.new settings maxDepth = .ok m) : Founding 0 m := by
  refine ⟨Machine.new_booting h, ?_⟩
  rw [Machine.eq_of_new h]
  refine ⟨⟨fun v c hc => ?_, fun i o values c ho => ?_⟩, fun i o ho => ?_⟩
  · cases v <;> cases hc
  · cases ho
  · cases ho

/-- The objects that there are while the first classes are made. -/
theorem Machine.Intact.kind_of_booting {m : Machine} (h : m.Intact .booting) {i : Nat}
    {o : HeapObject} (ho : m.memory.objects[i]? = some o) :
    o.body.kind = .classInfo ∨ o.body.kind = .dictionary := by
  obtain ⟨inUse, h⟩ := h
  exact (h.memory.objects i o ho).typed.early rfl

/-- Noting a core class makes a difference to dictionaries only. -/
theorem Machine.Ordered.withCore {m : Machine} (h : m.Ordered True) (hintact : m.Intact .booting)
    {core : CoreClasses} (hcore : core.dictionary = m.core.dictionary ∨ m.core.dictionary = .nil) :
    Machine.Ordered True { m with core } := by
  refine ⟨h.memory, fun i o ho v hv => ?_⟩
  rcases hintact.kind_of_booting ho with hkind | hkind
  · rw [hkind] at hv
    cases hv
  · rw [hkind] at hv
    cases hv
    rcases h.sorted i o ho m.core.dictionary (by rw [hkind]; rfl) with hclass | hnil
    · rcases hcore with hsame | hnone
      · exact .inl (hclass.trans hsame.symm)
      · exact .inr ⟨trivial, hclass.trans hnone⟩
    · exact .inr hnil

theorem addCoreClass_founding {n : Nat} {name : String} {superclass : CoreClasses → Value}
    {note : CoreClasses → Value → CoreClasses} (hn : n < 13) (hname : coreNames[n]? = some name)
    (hsuper : ∀ c, superclass c = .nil ∨ superclass c ∈ c.values)
    (hnote : ∀ c v, (note c v).values = c.values.set n v) :
    Leads (Founding n) (addCoreClass name superclass note) (Founding (n + 1)) := by
  intro m u m' hm hok
  refine ⟨addCoreClass_leads hname (coreNames_fresh n hn name hname) hsuper hnote m u m'
    hm.booting hok, ?_⟩
  obtain ⟨v, m₁, hr, hok⟩ := Action.ok_of_bind
    (show (newClass name (superclass m.core) [] >>= fun v =>
      modify fun m => { m with core := note m.core v }) m = .ok u m' from hok)
  cases hok
  obtain ⟨hlive, hbears⟩ := hm.booting.superclass (hsuper m.core)
  obtain ⟨hpath, -, m₀, hkeep, rfl⟩ :=
    (newClass_yields hm.booting.intact name hlive (fun _ => hbears) []).result hr
  have hordered := hpath.ordered rfl hm.booting.intact hm.ordered
  refine hordered.withCore (hpath.intact hm.booting.intact) ?_
  -- the class of dictionaries is the twelfth, and nil until it is noted
  have hread : ∀ c : CoreClasses, c.values[11]? = some c.dictionary := fun _ => rfl
  by_cases hlast : n = 11
  · subst hlast
    obtain ⟨g, hnil, hcore, -, -⟩ := hkeep.named
    right
    change m₀.core.dictionary = .nil
    have hpending : m.core.dictionary = .nil := hm.booting.pending _ (List.mem_cons_self ..)
    rw [hcore]
    exact (congrArg g hpending).trans hnil
  · left
    have hset := hread (note m₀.core v)
    rw [hnote, List.getElem?_set_ne hlast, hread] at hset
    exact (Option.some.inj hset).symm

theorem HeapObject.Sorted.adopt {core : CoreClasses} {o : HeapObject} (h : o.Sorted core True)
    (hkind : o.body.kind = .dictionary) :
    (o.adopt core.dictionary).header.classRef = core.dictionary := by
  obtain ⟨header, body⟩ := o
  cases body with
  | dictionary t =>
    simp only [HeapObject.adopt]
    split_ifs with hnil
    · rfl
    · rcases h core.dictionary rfl with hclass | ⟨-, hclass⟩
      · exact hclass
      · exact absurd (congrArg Value.isNil hclass) hnil
  | _ => cases hkind

theorem adoptDictionaries_founding :
    Leads (Founding 13) adoptDictionaries fun m => Furnished m ∧ m.Ordered False := by
  intro m a m' hm hok
  refine ⟨adoptDictionaries_leads m a m' hm.booting hok, ?_⟩
  cases hok
  have hobject : ∀ {i : Nat} {o' : HeapObject},
      (m.memory.objects.map fun o => o.adopt m.core.dictionary)[i]? = some o' →
      ∃ o, m.memory.objects[i]? = some o ∧ o.adopt m.core.dictionary = o' :=
    fun ho' => Option.map_eq_some_iff.mp (Array.getElem?_map ▸ ho')
  constructor
  · constructor
    · intro v c hc
      rw [m.body?_adopt] at hc
      obtain ⟨cs, hlineage, hsize⟩ := hm.ordered.memory.classes v c hc
      exact ⟨cs, hlineage.mono fun u c hu => (m.body?_adopt u).trans hu, hsize⟩
    · intro i o' values c ho' hslots
      obtain ⟨o, ho, rfl⟩ := hobject ho'
      rw [o.adopt_body] at hslots
      have hkind := hm.booting.intact.kind_of_booting ho
      rw [hslots] at hkind
      exact absurd hkind (by simp [Body.kind])
  · intro i o' ho' v hv
    obtain ⟨o, ho, rfl⟩ := hobject ho'
    rw [o.adopt_body] at hv
    left
    rcases hm.booting.intact.kind_of_booting ho with hkind | hkind
    · rw [hkind] at hv
      cases hv
    · rw [hkind] at hv
      cases hv
      exact (hm.ordered.sorted i o ho).adopt hkind

theorem ordered_outlivesInstalls : OutlivesInstalls (Machine.Ordered False) := by
  intro b m m' v hok hm hlive _ hordered
  have hintact : m.Intact .layered := hm.intact.relax rfl
  have hinstall : b.Installable .layered m := fun hstrict => by cases hstrict
  have hpath := ((b.install_yields (by simp) hintact hlive hinstall).result hok).1
  exact hpath.ordered rfl hintact hordered

theorem bootstrap_ordered {settings : Settings} {maxDepth : Nat} {m : Machine}
    (h : bootstrap settings maxDepth = .ok m) : m.Ordered False :=
  (bootstrap_leads Machine.new_founding addCoreClass_founding adoptDictionaries_founding
    ordered_outlivesInstalls (fun _ _ hm => hm.congr rfl rfl) h).2

theorem Reachable.ordered {m : Machine} (h : Reachable .layered m) : m.Ordered False := by
  have hkeep : ∀ {m m' : Machine}, Reachable .layered m → Path .layered m m' → m.Ordered False →
      m'.Ordered False :=
    fun hm hpath hordered => hpath.ordered rfl (hm.intact (by simp)) hordered
  induction h with
  | boot hboot => exact bootstrap_ordered hboot
  | answered hm hop hrun ih =>
    have hy := Operation.run_yields (by simp) (hm.intact (by simp)) hop
    rw [Yields, hrun] at hy
    exact hkeep hm hy.1 ih
  | stopped hm hop hrun ih =>
    have hy := Operation.run_yields (by simp) (hm.intact (by simp)) hop
    rw [Yields, hrun] at hy
    exact hkeep hm hy.1 ih

def Instruction.slot? : Instruction → Option Nat
  | pushInstanceVariable index | storeInstanceVariable index => some index.toNat
  | _ => none

section

variable {m : Machine} {id : ContextId} {c : Context} {code : Code} {literals : Array Value}
  {i : Instruction} {index : Nat}

/-- Reaching for a slot is decided by the number of slots. -/
theorem step_of_slot (hruns : m.Runs id c) (hprogram : m.program c.method = .ok (code, literals))
    (hfetch : code.fetch? c.pc = some (.ok i)) (hslot : i.slot? = some index)
    (hoperand : i.usesTop = true → c.stack.back? ≠ none) :
    (index < (m.memory.slots c.receiver).size ∧ ∃ m', step m = .ok none m') ∨
      (m.memory.slots c.receiver).size ≤ index ∧ ∃ m', step m =
        .error (.raised (.instanceVariableOutOfBounds index (m.memory.slots c.receiver).size))
          m' := by
  have hi : i ≠ .returnTop := by
    rintro rfl
    cases hslot
  rw [step_eq hruns hprogram hfetch hi]
  have hrules : Carries _ id (c.past i) code literals i _ :=
    execute_rules (hruns.setContext (c.past i)) hi
  generalize hr : execute code literals (c.past i).pc i (m.setContext id (c.past i)) = r at hrules
  cases i with
  | pushInstanceVariable place =>
    cases hslot
    cases hrules with
    | operated h =>
      cases h with
      | pushInstanceVariable hv =>
        exact .inl ⟨(Array.getElem?_eq_some_iff.mp hv).1, _, bind_ok hr⟩
    | refused h =>
      cases h with
      | pushInstanceVariable hsize => exact .inr ⟨hsize, _, bind_error hr⟩
      | underflow htop => cases htop
  | storeInstanceVariable place =>
    cases hslot
    cases hrules with
    | operated h => cases h
    | slotStored _ hsize => exact .inl ⟨hsize, _, bind_ok hr⟩
    | refused h =>
      cases h with
      | storeInstanceVariable _ hsize => exact .inr ⟨hsize, _, bind_error hr⟩
      | underflow _ hempty => exact absurd hempty (hoperand rfl)
  | _ => cases hslot

/-- The next step of a machine is that of its active context. -/
theorem Machine.exists_of_upcoming? {e : Executed} (h : m.upcoming? = some e) :
    ∃ c code literals, m.Runs e.context c ∧ m.program c.method = .ok (code, literals) ∧
      code.fetch? c.pc = some (.ok e.instruction) := by
  unfold upcoming? at h
  simp only [Option.bind_eq_bind, Option.bind_eq_some_iff] at h
  obtain ⟨id, hid, c, hc, ⟨code, literals⟩, hprogram, h⟩ := h
  dsimp only at h
  split at h
  case h_1 i hfetch =>
    cases h
    refine ⟨c, code, literals, ⟨hid, hc⟩, ?_, hfetch⟩
    cases hp : m.program c.method with
    | ok p =>
      rw [hp] at hprogram
      cases hprogram
      rfl
    | error f =>
      rw [hp] at hprogram
      cases hprogram
  case h_2 => cases h

end

/-- The next step of `m` reaches for the slot `index` of an instance whose class has this
lineage, and the operand that it needs is there. -/
def Machine.ReachesSlot (m : Machine) (index : Nat) (cs : List ClassInfo) : Prop :=
  ∃ e context o values c, m.upcoming? = some e ∧ e.instruction.slot? = some index ∧
    m.memory.contexts[e.context]? = some context ∧
    (e.instruction.usesTop = true → context.stack.back? ≠ none) ∧
    m.memory.object? context.receiver = some o ∧ o.body = .slots values ∧
    m.memory.body? o.header.classRef = some (.classInfo c) ∧ m.memory.Lineage o.header.classRef cs

/-- The slot that the next step reaches for, and the lineage of the instance. -/
def Machine.slotReached? (m : Machine) : Option (Nat × List ClassInfo) := do
  let e ← m.upcoming?
  let index ← e.instruction.slot?
  let context ← m.memory.contexts[e.context]?
  if e.instruction.usesTop ∧ context.stack.back?.isNone then none
  else
    let o ← m.memory.object? context.receiver
    match o.body, m.memory.body? o.header.classRef with
    | .slots _, some (.classInfo _) =>
      let cs ← m.memory.lineage? m.memory.objects.size o.header.classRef
      return (index, cs)
    | _, _ => none

theorem Machine.reachesSlot_of_slotReached? {m : Machine} {index : Nat} {cs : List ClassInfo}
    (h : m.slotReached? = some (index, cs)) : m.ReachesSlot index cs := by
  unfold slotReached? at h
  simp only [Option.bind_eq_bind, Option.bind_eq_some_iff] at h
  obtain ⟨e, hnext, place, hplace, context, hcontext, h⟩ := h
  split_ifs at h with hoperand
  obtain ⟨o, ho, h⟩ := Option.bind_eq_some_iff.mp h
  split at h
  case h_1 values c hvalues hclass =>
    obtain ⟨cs, hlineage, h⟩ := Option.bind_eq_some_iff.mp h
    cases h
    refine ⟨e, context, o, values, c, hnext, hplace, hcontext, fun htop hnone => ?_, ho, hvalues,
      hclass, Memory.lineage_of_lineage? hlineage⟩
    exact hoperand ⟨htop, Option.isNone_iff_eq_none.mpr hnone⟩
  case h_2 => cases h

theorem Machine.ReachesSlot.step_iff {m : Machine} {index : Nat} {cs : List ClassInfo}
    (h : m.ReachesSlot index cs) (hm : m.memory.LaidOut) :
    ((∃ m', step m = .ok none m') ↔ index < slotCount cs) ∧
      (slotCount cs ≤ index → ∃ m', step m =
        .error (.raised (.instanceVariableOutOfBounds index (slotCount cs))) m') := by
  obtain ⟨e, c, o, values, info, hnext, hslot, hc, hoperand, ho, hvalues, hclass, hlineage⟩ := h
  obtain ⟨c', code, literals, hruns, hprogram, hfetch⟩ := exists_of_upcoming? hnext
  obtain rfl : c' = c := Option.some.inj (hruns.context.symm.trans hc)
  have hsize : (m.memory.slots c'.receiver).size = slotCount cs := by
    rw [Memory.slots, Memory.body?, ho, Option.map_some, hvalues]
    exact hm.size_eq ho hvalues hclass hlineage
  have hstep := step_of_slot hruns hprogram hfetch hslot hoperand
  rw [hsize] at hstep
  rcases hstep with ⟨hlt, m', hok⟩ | ⟨hle, m', herror⟩
  · exact ⟨⟨fun _ => hlt, fun _ => ⟨m', hok⟩⟩, fun hle => absurd hlt (Nat.not_lt.mpr hle)⟩
  · refine ⟨⟨?_, fun hlt => absurd hlt (Nat.not_lt.mpr hle)⟩, fun _ => ⟨m', herror⟩⟩
    rintro ⟨m'', hok⟩
    rw [herror] at hok
    cases hok

/-- The heap is typed and instances have the layout that their classes declare. Whatever a host
does with live values, making each class from a class or from nil: following superclasses ends at
nil, the size of a class is the number of variables declared on the way, an instance has as many
slots as its class says, and an object of a built-in shape has the core class of that shape. So an
instruction reaches a slot of an instance exactly if its index is below the number of declared
variables, and a variable has the same slot in every class below the one that declares it. -/
theorem heap_typed_and_instances_laid_out {m : Machine} (h : Reachable .layered m) :
    (∀ v c, m.memory.body? v = some (.classInfo c) →
      ∃ cs, m.memory.Lineage v (c :: cs) ∧ c.instanceSize = slotCount (c :: cs)) ∧
    (∀ (k : Nat) o values c, m.memory.objects[k]? = some o → o.body = .slots values →
      m.memory.body? o.header.classRef = some (.classInfo c) → values.size = c.instanceSize) ∧
    (∀ (k : Nat) o v, m.memory.objects[k]? = some o → m.core.ofKind? o.body.kind = some v →
      o.header.classRef = v) ∧
    (∀ index cs, m.ReachesSlot index cs →
      ((∃ m', step m = .ok none m') ↔ index < slotCount cs) ∧
      (slotCount cs ≤ index → ∃ m', step m =
        .error (.raised (.instanceVariableOutOfBounds index (slotCount cs))) m')) ∧
    ∀ v u cs cs', m.memory.Descends v u → m.memory.Lineage v cs → m.memory.Lineage u cs' →
      ∀ (k : Nat) name, (slotNames cs')[k]? = some name → (slotNames cs)[k]? = some name := by
  have hordered := h.ordered
  refine ⟨hordered.memory.lineage_of_class, hordered.memory.instances, ?_, ?_, ?_⟩
  · intro k o v ho hv
    exact (hordered.sorted k o ho v hv).resolve_right fun hearly => hearly.1
  · intro index cs hslot
    exact hslot.step_iff hordered.memory
  · intro v u cs cs' hdescends hv hu k name hname
    obtain ⟨rest, hnames⟩ := hv.slotNames_prefix hdescends hu
    rw [← hnames, List.getElem?_append_left (List.getElem?_eq_some_iff.mp hname).1, hname]

theorem Reachable.after {d : Discipline} {m : Machine} (h : Reachable d m) {op : Operation}
    (hop : op.Admitted d m) : Reachable d (after op.run m) := by
  rw [Action.after]
  cases hrun : op.run m with
  | ok v m' => exact .answered h hop hrun
  | error e m' => exact .stopped h hop hrun

theorem Operation.admitted_of_live {m : Machine} (op : Operation) {v : Value}
    (hvalues : op.values = [v]) (houter : op.outer? = none) (hlive : m.memory.Live v)
    (hlayers : op.Layers m) : op.Admitted .layered m := by
  refine ⟨⟨fun u hu => ?_, fun id hid => ?_⟩, ?_, fun _ => hlayers⟩
  · rw [hvalues, List.mem_singleton] at hu
    exact hu ▸ hlive
  · rw [houter] at hid
    cases hid
  · intro hstrict
    cases hstrict

def Machine.named (m : Machine) (name : String) : Value := (m.globals.get? name).getD .nil

def Operation.newPoint (m : Machine) : Operation := .newClass "Point" m.core.object ["x", "y"]

def Operation.newSpacePoint (m : Machine) : Operation :=
  .newClass "SpacePoint" (m.named "Point") ["z"]

def Operation.installZ (m : Machine) : Operation :=
  .install (((Draft.new (m.named "SpacePoint") "z").emit (.pushInstanceVariable 2)).emit .returnTop)

def Operation.newOrigin (m : Machine) : Operation := .newInstance (m.named "SpacePoint") 0

/-- A point in space is about to be asked for its third slot, which its class adds to the two
that it inherits. -/
theorem tight_machine_lays_out_points : ∃ m v u cs cs', Reachable .layered m ∧
    0 < m.memory.collections ∧ m.memory.Descends v u ∧
    m.memory.Lineage v cs ∧ slotNames cs = ["x", "y", "z"] ∧
    m.memory.Lineage u cs' ∧ slotNames cs' = ["x", "y"] ∧
    m.ReachesSlot 2 cs ∧ ∃ m', step m = .ok none m' := by
  have hboots : boots .tight 10 (fun m₀ =>
      let m₁ := after (Operation.newPoint m₀).run m₀
      let m₂ := after (Operation.newSpacePoint m₁).run m₁
      let m₃ := after (Operation.installZ m₂).run m₂
      Action.answers (Operation.newOrigin m₃).run m₃ fun v m₄ =>
        let m₅ := after (Operation.send 0 v "z" #[]).run m₄
        decide (m₀.isClass m₀.core.object ∧ m₁.isClass (m₁.named "Point") ∧
          m₂.isClass (m₂.named "SpacePoint") ∧ m₃.isClass (m₃.named "SpacePoint") ∧
          0 < m₅.memory.collections ∧
          m₅.slotReached?.map (fun r => (r.1, slotNames r.2, slotNames r.2.tail)) =
            some (2, ["x", "y", "z"], ["x", "y"]))) = true := by decide +kernel
  obtain ⟨m₀, hboot, htest⟩ := exists_of_boots hboots
  obtain ⟨v, m₄, horigin, htest⟩ := Action.exists_of_answers htest
  obtain ⟨hobject, hpoint, hspace, hspace', hcollected, hreached⟩ := of_decide_eq_true htest
  have hclass : ∀ {m : Machine} {v : Value}, m.isClass v = true → m.memory.Live v :=
    fun hv => Machine.HasClass.live (Primitive.isClass_stamp hv)
  have h₁ := Reachable.after (.boot hboot)
    (Operation.admitted_of_live (.newPoint m₀) rfl rfl (hclass hobject) (.inr hobject))
  have h₂ := h₁.after
    (Operation.admitted_of_live (.newSpacePoint _) rfl rfl (hclass hpoint) (.inr hpoint))
  have h₃ := h₂.after (Operation.admitted_of_live (.installZ _) rfl rfl (hclass hspace) trivial)
  have hnew := Operation.admitted_of_live (.newOrigin _) rfl rfl (hclass hspace') trivial
  have hlive := ((Operation.run_yields (by simp) (h₃.intact (by simp)) hnew).result horigin).2
  have h₅ := (Reachable.answered h₃ hnew horigin).after
    (Operation.admitted_of_live (.send 0 v "z" #[]) rfl rfl hlive trivial)
  obtain ⟨⟨index, cs⟩, hslot, hnames⟩ := Option.map_eq_some_iff.mp hreached
  obtain ⟨rfl, hnames, hinherited⟩ : index = 2 ∧ slotNames cs = ["x", "y", "z"] ∧
      slotNames cs.tail = ["x", "y"] := by simpa using hnames
  have hreaches := Machine.reachesSlot_of_slotReached? hslot
  obtain ⟨-, -, o, -, c, -, -, -, -, -, -, hc, hlineage⟩ := id hreaches
  have hcount : 2 < slotCount cs := by
    rw [← length_slotNames, hnames]
    decide
  have hstep := ((heap_typed_and_instances_laid_out h₅).2.2.2.1 2 cs hreaches).1.mpr hcount
  cases hlineage with
  | top => cases hnames
  | up hc' hlineage =>
    exact ⟨_, o.header.classRef, _, _, _, h₅, hcollected, .up .self hc', .up hc' hlineage, hnames,
      hlineage, hinherited, hreaches, hstep⟩

end ObjectMachine

import ObjectMachine.Proofs.IndexedConstruction
import ObjectMachine.Proofs.Moves

/-!
# Classes and what they stand on

A class stands on another class or on nil, so following superclasses ends at nil.
The classes on the way are its lineage. Memory is laid out when every class has
room for the variables of its lineage and every instance as many slots as its
class says: those of the highest class come first, which puts an inherited
variable into the same slot in every subclass. Writing to objects keeps that, and
collections move classes together with what they stand on.
-/

namespace ObjectMachine

/-- The classes from `v` up to nil, `v` itself first. -/
inductive Memory.Lineage (mem : Memory) : Value → List ClassInfo → Prop
  | top {v : Value} : v.isNil = true → Lineage mem v []
  | up {v : Value} {c : ClassInfo} {cs : List ClassInfo} : mem.body? v = some (.classInfo c) →
      Lineage mem c.superclass cs → Lineage mem v (c :: cs)

/-- One value is reached from the other by following superclasses. -/
inductive Memory.Descends (mem : Memory) (v : Value) : Value → Prop
  | self : Descends mem v v
  | up {u : Value} {c : ClassInfo} : Descends mem v u → mem.body? u = some (.classInfo c) →
      Descends mem v c.superclass

/-- How many variables the classes declare. -/
def slotCount : List ClassInfo → Nat
  | [] => 0
  | c :: cs => c.ownVariables.length + slotCount cs

/-- The variables that the classes declare, in the order of the slots. -/
def slotNames : List ClassInfo → List String
  | [] => []
  | c :: cs => slotNames cs ++ c.ownVariables

def Memory.lineage? (mem : Memory) : Nat → Value → Option (List ClassInfo)
  | 0, _ => none
  | fuel + 1, v =>
    if v.isNil then some []
    else
      match mem.body? v with
      | some (.classInfo c) => (mem.lineage? fuel c.superclass).map (c :: ·)
      | _ => none

theorem Memory.lineage_of_lineage? {mem : Memory} {fuel : Nat} {v : Value} {cs : List ClassInfo}
    (h : mem.lineage? fuel v = some cs) : mem.Lineage v cs := by
  induction fuel generalizing v cs with
  | zero => cases h
  | succ fuel ih =>
    rw [lineage?] at h
    split_ifs at h with hnil
    · cases h
      exact .top hnil
    · split at h
      case h_1 c hc =>
        obtain ⟨cs, hcs, rfl⟩ := Option.map_eq_some_iff.mp h
        exact .up hc (ih hcs)
      case h_2 => cases h

theorem length_slotNames (cs : List ClassInfo) : (slotNames cs).length = slotCount cs := by
  induction cs with
  | nil => rfl
  | cons c cs ih => simp [slotNames, slotCount, ih, Nat.add_comm]

namespace Memory.Lineage

variable {mem mem' : Memory} {v u : Value} {cs cs' : List ClassInfo}

theorem unique (h : mem.Lineage v cs) (h' : mem.Lineage v cs') : cs = cs' := by
  have hnot : ∀ {v : Value} {c : ClassInfo}, v.isNil = true →
      mem.body? v ≠ some (.classInfo c) := by
    intro v c hnil hc
    rw [mem.body?_of_immediate (Value.isPointer_of_isNil hnil)] at hc
    cases hc
  induction h generalizing cs' with
  | top hnil =>
    cases h' with
    | top => rfl
    | up hc => exact absurd hc (hnot hnil)
  | up hc _ ih =>
    cases h' with
    | top hnil => exact absurd hc (hnot hnil)
    | up hc' h' =>
      rw [hc] at hc'
      cases hc'
      rw [ih h']

/-- What stands where the classes stood decides nothing else. -/
theorem mono (hclasses : ∀ u c, mem.body? u = some (.classInfo c) →
      mem'.body? u = some (.classInfo c)) (h : mem.Lineage v cs) : mem'.Lineage v cs := by
  induction h with
  | top hnil => exact .top hnil
  | up hc _ ih => exact .up (hclasses _ _ hc) ih

/-- The variables of a class are the first ones of every class below it. -/
theorem slotNames_prefix (hdescends : mem.Descends v u) (h : mem.Lineage v cs)
    (h' : mem.Lineage u cs') : slotNames cs' <+: slotNames cs := by
  induction hdescends generalizing cs' with
  | self => rw [h.unique h']
  | up _ hc ih => exact (List.prefix_append _ _).trans (ih (.up hc h'))

end Memory.Lineage

/-- Every class has its size from its lineage, and its instances from it. -/
structure Memory.LaidOut (mem : Memory) : Prop where
  classes : ∀ (v : Value) (c : ClassInfo), mem.body? v = some (.classInfo c) →
    ∃ cs, mem.Lineage v cs ∧ c.instanceSize = slotCount cs
  instances : ∀ (i : Nat) (o : HeapObject) (values : Array Value) (c : ClassInfo),
    mem.objects[i]? = some o → o.body = .slots values →
    mem.body? o.header.classRef = some (.classInfo c) → values.size = c.instanceSize

def Memory.HeadersLive (mem : Memory) : Prop :=
  ∀ (i : Nat) (o : HeapObject), mem.objects[i]? = some o → mem.Live o.header.classRef

/-- A body that may take the place of another: a class stays what it is, and slots
keep their number. -/
inductive Body.Akin : Body → Body → Prop
  | same (b : Body) : Akin b b
  | slots {values values' : Array Value} : values'.size = values.size →
      Akin (.slots values) (.slots values')
  | array (elements elements' : Array Value) : Akin (.array elements) (.array elements')
  | bytes (bs bs' : Array UInt8) : Akin (.bytes bs) (.bytes bs')
  | dictionary (t t' : Dictionary) : Akin (.dictionary t) (.dictionary t')

namespace Body.Akin

variable {b b' : Body}

theorem kind_eq (h : b.Akin b') : b'.kind = b.kind := by
  cases h <;> rfl

theorem classInfo_iff (h : b.Akin b') (c : ClassInfo) : b' = .classInfo c ↔ b = .classInfo c := by
  cases h <;> simp

theorem of_slots {values' : Array Value} (h : b.Akin (.slots values')) :
    ∃ values, b = .slots values ∧ values.size = values'.size := by
  cases h with
  | same => exact ⟨values', rfl, rfl⟩
  | slots hsize => exact ⟨_, rfl, hsize.symm⟩

end Body.Akin

theorem Body.Writes.akin {P : Value → Prop} {b b' : Body} (h : b.Writes P b') : b.Akin b' := by
  cases h with
  | slot values i v => exact .slots (by simp)
  | element => exact .array _ _
  | byte => exact .bytes _ _
  | keep => exact .same _

namespace Memory

variable {mem : Memory}

theorem body?_pointer (mem : Memory) (i : Nat) :
    mem.body? (.pointer i) = (mem.objects[i]?).map HeapObject.body := rfl

/-- Writing a body that is akin moves no class. -/
theorem classInfo_modifyBody {v : Value} {g : Body → Body}
    (hg : ∀ b, mem.body? v = some b → b.Akin (g b)) (u : Value) (c : ClassInfo) :
    (mem.modifyBody v g).body? u = some (.classInfo c) ↔ mem.body? u = some (.classInfo c) := by
  cases u with
  | pointer i =>
    rw [body?_pointer, body?_pointer, getElem?_modifyBody]
    split_ifs with hv
    · cases ho : mem.objects[i]? with
      | none => simp
      | some o =>
        have hakin := hg o.body (by rw [hv, body?_pointer, ho]; rfl)
        simpa using hakin.classInfo_iff c
    · exact Iff.rfl
  | _ => exact Iff.rfl

/-- An object of the written memory was there before, with the same class. -/
theorem exists_of_modifyBody {v : Value} {g : Body → Body}
    (hg : ∀ b, mem.body? v = some b → b.Akin (g b)) {i : Nat} {o' : HeapObject}
    (ho' : (mem.modifyBody v g).objects[i]? = some o') :
    ∃ o, mem.objects[i]? = some o ∧ o'.header = o.header ∧ o.body.Akin o'.body := by
  rw [getElem?_modifyBody] at ho'
  split_ifs at ho' with hv
  · obtain ⟨o, ho, rfl⟩ := Option.map_eq_some_iff.mp ho'
    exact ⟨o, ho, rfl, hg o.body (by rw [hv, body?_pointer, ho]; rfl)⟩
  · exact ⟨o', ho', rfl, .same _⟩

namespace LaidOut

theorem congr {mem' : Memory} (h : mem.LaidOut) (hobjects : mem'.objects = mem.objects) :
    mem'.LaidOut := by
  have hbody : mem'.body? = mem.body? := by
    funext v
    cases v with
    | pointer i => rw [body?_pointer, body?_pointer, hobjects]
    | _ => rfl
  constructor
  · intro v c hc
    rw [hbody] at hc
    obtain ⟨cs, hlineage, hsize⟩ := h.classes v c hc
    exact ⟨cs, hlineage.mono fun u c hu => hbody ▸ hu, hsize⟩
  · intro i o values c ho hslots hc
    rw [hobjects] at ho
    rw [hbody] at hc
    exact h.instances i o values c ho hslots hc

theorem modifyBody (h : mem.LaidOut) {v : Value} {g : Body → Body}
    (hg : ∀ b, mem.body? v = some b → b.Akin (g b)) : (mem.modifyBody v g).LaidOut := by
  constructor
  · intro u c hc
    obtain ⟨cs, hlineage, hsize⟩ := h.classes u c ((classInfo_modifyBody hg u c).mp hc)
    exact ⟨cs, hlineage.mono fun u c => (classInfo_modifyBody hg u c).mpr, hsize⟩
  · intro i o' values' c ho' hslots hc
    obtain ⟨o, ho, hheader, hakin⟩ := exists_of_modifyBody hg ho'
    rw [hslots] at hakin
    obtain ⟨values, hbody, hsize⟩ := hakin.of_slots
    rw [hheader] at hc
    rw [← hsize]
    exact h.instances i o values c ho hbody ((classInfo_modifyBody hg _ c).mp hc)

theorem lineage_of_class (h : mem.LaidOut) (v : Value) (c : ClassInfo)
    (hc : mem.body? v = some (.classInfo c)) :
    ∃ cs, mem.Lineage v (c :: cs) ∧ c.instanceSize = slotCount (c :: cs) := by
  obtain ⟨cs, hlineage, hsize⟩ := h.classes v c hc
  cases hlineage with
  | top hnil =>
    rw [mem.body?_of_immediate (Value.isPointer_of_isNil hnil)] at hc
    cases hc
  | up hc' hlineage =>
    rw [hc] at hc'
    cases hc'
    exact ⟨_, .up hc hlineage, hsize⟩

/-- An instance has one slot for every variable of its lineage. -/
theorem size_eq (h : mem.LaidOut) {v : Value} {o : HeapObject} {values : Array Value}
    {c : ClassInfo} {cs : List ClassInfo} (ho : mem.object? v = some o)
    (hvalues : o.body = .slots values) (hc : mem.body? o.header.classRef = some (.classInfo c))
    (hlineage : mem.Lineage o.header.classRef cs) : values.size = slotCount cs := by
  obtain ⟨cs', hlineage', hsize⟩ := h.classes _ c hc
  rw [hlineage.unique hlineage', ← hsize]
  cases v with
  | pointer i => exact h.instances i o values c ho hvalues hc
  | _ => cases ho

/-- The size that a new class works out for itself is that of its lineage. -/
theorem lineage_of_bears (h : mem.LaidOut) {v : Value} (hv : mem.Bears v) :
    ∃ cs, mem.Lineage v cs ∧ mem.instanceSize v = slotCount cs := by
  rcases hv with hnil | ⟨s, hs, hclass⟩
  · refine ⟨[], .top hnil, ?_⟩
    rw [instanceSize, mem.body?_of_immediate (Value.isPointer_of_isNil hnil)]
    rfl
  · obtain ⟨b, hb, rfl⟩ := Option.map_eq_some_iff.mp hs
    cases b with
    | classInfo c =>
      obtain ⟨cs, hlineage, hsize⟩ := h.classes v c hb
      exact ⟨cs, hlineage, by rw [instanceSize, hb]; exact hsize⟩
    | _ => exact absurd hclass (by simp [Stamp.IsClass, Body.kind])

theorem append (h : mem.LaidOut) (hheaders : mem.HeadersLive) {o : HeapObject}
    (hlive : mem.Live o.header.classRef)
    (hclass : ∀ c, o.body = .classInfo c → mem.Bears c.superclass ∧
      c.instanceSize = mem.instanceSize c.superclass + c.ownVariables.length)
    (hslots : ∀ values c, o.body = .slots values →
      mem.body? o.header.classRef = some (.classInfo c) → values.size = c.instanceSize) :
    (mem.append o).LaidOut := by
  -- a class that is live in the old memory is not the new object
  have hold : ∀ {v : Value} {b : Body}, mem.Live v → (mem.append o).body? v = some b →
      mem.body? v = some b := by
    intro v b hv hb
    rcases body?_of_append hb with hb | ⟨rfl, -⟩
    · exact hb
    · exact absurd hv (Nat.lt_irrefl _)
  have hkeep : ∀ u c, mem.body? u = some (.classInfo c) →
      (mem.append o).body? u = some (.classInfo c) := fun u c hu => body?_append hu o
  constructor
  · intro v c hc
    rcases body?_of_append hc with hc' | ⟨rfl, hbody⟩
    · obtain ⟨cs, hlineage, hsize⟩ := h.classes v c hc'
      exact ⟨cs, hlineage.mono hkeep, hsize⟩
    · obtain ⟨hbears, hsize⟩ := hclass c hbody.symm
      obtain ⟨cs, hlineage, hinherited⟩ := h.lineage_of_bears hbears
      refine ⟨c :: cs, .up hc (hlineage.mono hkeep), ?_⟩
      rw [hsize, hinherited, slotCount, Nat.add_comm]
  · intro i o' values c ho' hbody hc
    rw [append_objects, Array.getElem?_push] at ho'
    split_ifs at ho' with hi
    · obtain rfl := Option.some.inj ho'
      exact hslots values c hbody (hold hlive hc)
    · exact h.instances i o' values c ho' hbody (hold (hheaders i o' ho') hc)

end LaidOut

end Memory

namespace Relocated

variable {kept : Root → Prop} {f : Nat → Nat} {m m' : Machine}

theorem lineage (h : Relocated kept f m m') {v : Value} {cs : List ClassInfo}
    (hlineage : m.memory.Lineage v cs) (hv : kept (.value v)) :
    ∃ cs', m'.memory.Lineage (v.rename f) cs' ∧ slotCount cs' = slotCount cs := by
  induction hlineage with
  | top hnil => exact ⟨[], .top (by rw [Value.isNil_rename, hnil]), rfl⟩
  | @up v c cs hc _ ih =>
    have hsuper := h.carries.closed v _ hv hc c.superclass (by simp [Body.edges])
    obtain ⟨cs', hlineage', hcount⟩ := ih hsuper
    exact ⟨_, .up (h.body? hv hc) hlineage', congrArg (c.ownVariables.length + ·) hcount⟩

/-- An object that is there after a collection was there before. -/
theorem exists_object (h : Relocated kept f m m') {k : Nat} {o' : HeapObject}
    (ho' : m'.memory.objects[k]? = some o') :
    ∃ i o, kept (.value (.pointer i)) ∧ m.memory.objects[i]? = some o ∧
      o'.header.classRef = o.header.classRef.rename f ∧ o'.body = o.body.map (Value.rename f) := by
  obtain ⟨i, o, hkept, ho, rfl⟩ := h.covered k o' ho'
  obtain ⟨header, hclass, hcopy⟩ := h.objects i o hkept ho
  rw [ho'] at hcopy
  cases hcopy
  exact ⟨i, o, hkept, ho, hclass, rfl⟩

theorem kept_classRef (h : Relocated kept f m m') {i : Nat} {o : HeapObject}
    (hkept : kept (.value (.pointer i))) (ho : m.memory.objects[i]? = some o) :
    kept (.value o.header.classRef) := by
  apply h.closed _ hkept
  rw [Memory.mem_next_pointer ho]
  exact (o.value_mem_roots _).mpr (List.mem_cons_self ..)

/-- Every class of the moved machine is a class that has moved. -/
theorem exists_class (h : Relocated kept f m m') {v' : Value} {c' : ClassInfo}
    (hc' : m'.memory.body? v' = some (.classInfo c')) :
    ∃ v c, kept (.value v) ∧ m.memory.body? v = some (.classInfo c) ∧ v' = v.rename f ∧
      c'.instanceSize = c.instanceSize := by
  obtain ⟨v, b, hkept, hb, rfl, hmap⟩ := h.exists_body? hc'
  cases b with
  | classInfo c =>
    cases hmap
    exact ⟨v, c, hkept, hb, rfl, rfl⟩
  | _ => cases hmap

theorem live (h : Relocated kept f m m') {v : Value} (hv : kept (.value v))
    (hlive : m.memory.Live v) : m'.memory.Live (v.rename f) := by
  cases v with
  | pointer i =>
    obtain ⟨header, -, ho'⟩ := h.objects i _ hv (Array.getElem?_eq_getElem hlive)
    exact Memory.live_of_object? ho'
  | _ => trivial

/-- A live value that has moved to a class was that class. -/
theorem class_of_live (h : Relocated kept f m m') {v : Value} {c' : ClassInfo}
    (hv : kept (.value v)) (hlive : m.memory.Live v)
    (hc' : m'.memory.body? (v.rename f) = some (.classInfo c')) :
    ∃ c, m.memory.body? v = some (.classInfo c) ∧ c'.instanceSize = c.instanceSize := by
  cases v with
  | pointer i =>
    obtain ⟨b, hb⟩ : ∃ b, m.memory.body? (.pointer i) = some b := by
      rw [Memory.body?_pointer, Array.getElem?_eq_getElem hlive]
      exact ⟨_, rfl⟩
    rw [h.body? hv hb] at hc'
    cases b with
    | classInfo c =>
      cases hc'
      exact ⟨c, hb, rfl⟩
    | _ => cases hc'
  | _ => cases hc'

/-- What can have subclasses still can, and passes on as many slots. -/
theorem bears (h : Relocated kept f m m') {v : Value} (hv : kept (.value v))
    (hbears : m.memory.Bears v) : m'.memory.Bears (v.rename f) ∧
      m'.memory.instanceSize (v.rename f) = m.memory.instanceSize v := by
  rcases hbears with hnil | ⟨s, hs, hclass⟩
  · have himmediate := Value.isPointer_of_isNil hnil
    rw [Value.rename_of_immediate himmediate]
    refine ⟨.inl hnil, ?_⟩
    rw [Memory.instanceSize, Memory.instanceSize, m.memory.body?_of_immediate himmediate,
      m'.memory.body?_of_immediate himmediate]
  · obtain ⟨b, hb, rfl⟩ := Option.map_eq_some_iff.mp hs
    have hb' := h.body? hv hb
    refine ⟨.inr ⟨_, Memory.stamp?_of_body? _ hb', by rwa [Body.stamp_map]⟩, ?_⟩
    cases b with
    | classInfo c =>
      rw [Memory.instanceSize, Memory.instanceSize, hb, hb']
      rfl
    | _ => exact absurd hclass (by simp [Stamp.IsClass, Body.kind])

theorem headersLive (h : Relocated kept f m m') (hm : m.memory.HeadersLive) :
    m'.memory.HeadersLive := by
  intro k o' ho'
  obtain ⟨i, o, hkept, ho, hclass, -⟩ := h.exists_object ho'
  rw [hclass]
  exact h.live (h.kept_classRef hkept ho) (hm i o ho)

theorem laidOut (h : Relocated kept f m m') (hm : m.memory.LaidOut)
    (hheaders : m.memory.HeadersLive) : m'.memory.LaidOut := by
  constructor
  · intro v' c' hc'
    obtain ⟨v, c, hkept, hc, rfl, hsize⟩ := h.exists_class hc'
    obtain ⟨cs, hlineage, hcount⟩ := hm.classes v c hc
    obtain ⟨cs', hlineage', hcount'⟩ := h.lineage hlineage hkept
    exact ⟨cs', hlineage', by rw [hsize, hcount, hcount']⟩
  · intro k o' values' c' ho' hslots hc'
    obtain ⟨i, o, hkept, ho, hclassRef, hbody⟩ := h.exists_object ho'
    rw [hslots] at hbody
    cases hb : o.body with
    | slots values =>
      rw [hb] at hbody
      cases hbody
      rw [hclassRef] at hc'
      obtain ⟨c, hc, hsize⟩ := h.class_of_live (h.kept_classRef hkept ho) (hheaders i o ho) hc'
      rw [Array.size_map, hsize]
      exact hm.instances i o values c ho hb hc
    | _ =>
      rw [hb] at hbody
      cases hbody

end Relocated

end ObjectMachine

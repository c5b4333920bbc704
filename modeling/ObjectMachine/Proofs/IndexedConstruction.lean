import ObjectMachine.Proofs.IndexedMachine

/-!
# Making well-indexed code

Collections move code together with everything that it needs, so machines stay
well indexed through them. The same holds for making objects, for building a
method from a well-indexed draft, and for setting up a machine. While a draft is
built its literals wait on the scratch stack, where collections move them too.
-/

namespace ObjectMachine

open ObjectMachine.Action

/-- A collection that succeeds has surveyed all that is reached and copied it. -/
theorem Memory.copy_of_collect {mem : Memory} {roots : List Root} {c : Collection}
    (hfresh : mem.Unmarked) (h : mem.collect roots = .ok c) :
    Survey.Complete mem roots c.survey ∧ mem.GraphCopy roots c.survey.place c := by
  have hspec := Survey.complete_spec (hfresh.unmarkedFrom roots)
  cases hs : (Survey.start (mem.collections + 1) mem).complete roots with
  | error f =>
    rw [collect_of_fault hs] at h
    cases h
  | ok s =>
    rw [hs] at hspec
    rw [collect_of_complete hs] at h
    split_ifs at h
    · cases h
      exact ⟨hspec, hspec.graphCopy _ _⟩
    · cases h
      exact ⟨hspec, hspec.graphCopy _ _⟩

/-- A collection that succeeds has met no dangling reference. -/
theorem Memory.inRange_of_collect {mem : Memory} {roots : List Root} {c : Collection}
    (hfresh : mem.Unmarked) (h : mem.collect roots = .ok c) :
    ∀ r, mem.Reaches roots r → mem.InRange r := by
  obtain ⟨hcomplete, -⟩ := copy_of_collect hfresh h
  intro r hr
  cases r with
  | context id => trivial
  | value v =>
    cases v with
    | pointer i => exact hcomplete.charts.lt_size ((hcomplete.order i).mpr hr)
    | _ => trivial

/-- The machine has moved, nothing else has come into its memory, and all its
contexts are where they were. -/
structure Relocated (kept : Root → Prop) (f : Nat → Nat) (m m' : Machine) : Prop
    extends Moved kept f m m' where
  covered : ∀ (k : Nat) o', m'.memory.objects[k]? = some o' →
    ∃ i o, kept (.value (.pointer i)) ∧ m.memory.objects[i]? = some o ∧ f i = k
  frames : m'.memory.contexts.map Context.frame = m.memory.contexts.map Context.frame

namespace Relocated

variable {kept : Root → Prop} {f : Nat → Nat} {m m' : Machine}

theorem refl (h : m.memory.EpochsPast) : Relocated (fun _ => True) id m m :=
  ⟨.still h, fun k o' ho' => ⟨k, o', trivial, ho', rfl⟩, rfl⟩

theorem collected (h : m.memory.EpochsPast) {pending : List Root} {c : Collection}
    (hc : m.memory.collect (m.roots ++ pending) = .ok c) :
    Relocated (m.memory.Reaches (m.roots ++ pending)) c.survey.place m (m.settle c) := by
  have hrange := Memory.inRange_of_collect h.unmarked hc
  obtain ⟨-, hcopy⟩ := Memory.copy_of_collect h.unmarked hc
  refine ⟨hcopy.moved h, ?_, Memory.frames_of_collect hc⟩
  intro k o' ho'
  have hk : k ∈ Set.Iio c.memory.objects.size := (Array.getElem?_eq_some_iff.mp ho').1
  obtain ⟨i, hi, hik⟩ := hcopy.bijection.surjOn hk
  exact ⟨i, _, hi, Array.getElem?_eq_getElem (hrange _ hi), hik⟩

variable (h : Relocated kept f m m')

include h

theorem frame_eq (id : ContextId) :
    (m'.memory.contexts[id]?).map Context.frame = (m.memory.contexts[id]?).map Context.frame := by
  rw [← Array.getElem?_map, h.frames, Array.getElem?_map]

theorem activity_eq : m'.activity = m.activity := by
  have hsenders := congrArg (Array.map Frame.sender) h.frames
  rw [Array.map_map, Array.map_map] at hsenders
  rw [Machine.activity, h.active, h.depth, h.maxDepth]
  exact congrArg (Activity.mk · _ _ _) hsenders

theorem body? {v : Value} {b : Body} (hv : kept (.value v)) (hb : m.memory.body? v = some b) :
    m'.memory.body? (v.rename f) = some (b.map (Value.rename f)) := by
  obtain ⟨o, ho, rfl⟩ := Option.map_eq_some_iff.mp hb
  cases v with
  | pointer i =>
    obtain ⟨header, -, ho'⟩ := h.objects i o hv ho
    exact congrArg (Option.map HeapObject.body) ho'
  | _ => cases ho

/-- Every body comes from one that was kept. -/
theorem exists_body? {v' : Value} {b' : Body} (hb' : m'.memory.body? v' = some b') :
    ∃ v b, kept (.value v) ∧ m.memory.body? v = some b ∧ v' = v.rename f ∧
      b' = b.map (Value.rename f) := by
  obtain ⟨o', ho', rfl⟩ := Option.map_eq_some_iff.mp hb'
  cases v' with
  | pointer k =>
    obtain ⟨i, o, hkept, ho, rfl⟩ := h.covered k o' ho'
    have hbody : m.memory.body? (.pointer i) = some o.body :=
      congrArg (Option.map HeapObject.body) ho
    have hcopy := h.body? hkept hbody
    rw [Value.rename_pointer, hb'] at hcopy
    exact ⟨.pointer i, o.body, hkept, hbody, rfl, Option.some.inj hcopy⟩
  | _ => cases ho'

theorem carries : m.memory.Carries f (fun v => kept (.value v)) m'.memory := by
  constructor
  · exact fun v b hv _ hb => h.body? hv hb
  · intro v b hv hb u hu
    obtain ⟨o, ho, rfl⟩ := Option.map_eq_some_iff.mp hb
    cases v with
    | pointer i =>
      apply h.closed _ hv
      rw [Memory.mem_next_pointer ho]
      exact (o.value_mem_roots u).mpr (List.mem_cons_of_mem _ hu)
    | _ => cases ho
  · intro id c hc
    have hframe := h.frame_eq id
    rw [hc] at hframe
    obtain ⟨c', hc', heq⟩ := Option.map_eq_some_iff.mp hframe
    exact ⟨c', hc', congrArg Frame.temporaryCount heq, congrArg Frame.outer heq⟩

theorem kept_of_running {id : ContextId} (hid : m.activity.Running id) : kept (.context id) := by
  induction hid with
  | active hid => exact h.roots _ (Machine.context_mem_roots.mpr hid)
  | @sender id id' _ hsender ih =>
    have hsender : (m.memory.contexts.map Context.sender)[id]? = some (some id') := hsender
    rw [Array.getElem?_map] at hsender
    obtain ⟨c, hc, hc'⟩ := Option.map_eq_some_iff.mp hsender
    apply h.closed _ ih
    rw [Memory.mem_next_context hc]
    exact (c.context_mem_roots id').mpr (.inl hc')

theorem indexed (hm : m.Indexed) : m'.Indexed := by
  apply hm.carry h.carries h.epochs
  · intro v' b' _ hb'
    right
    obtain ⟨v, b, hkept, hb, -, rfl⟩ := h.exists_body? hb'
    exact ⟨v, b, hkept, hb, rfl⟩
  · intro v' hv'
    right
    rw [h.symbols, Dictionary.values_map] at hv'
    obtain ⟨v, hv, rfl⟩ := List.mem_map.mp hv'
    exact ⟨v, hv, h.roots _ (Machine.value_mem_roots.mpr (.inr (.inr (.inl hv)))), rfl⟩
  · intro id hid
    rw [h.activity_eq] at hid
    obtain ⟨c, hc, -⟩ := hm.running id hid
    have hkept := h.kept_of_running hid
    obtain ⟨epoch, hc'⟩ := h.contexts id c hkept hc
    rw [Context.mapEdges_eq] at hc'
    refine ⟨_, hc', .inr ⟨hid, c, hc, ?_, rfl, rfl⟩⟩
    apply h.closed _ hkept
    rw [Memory.mem_next_context hc]
    exact (c.value_mem_roots _).mpr (List.mem_cons_self ..)

end Relocated

/-- How an allocation can end: a collection has failed, or the machine has moved and
has one more object. -/
inductive Allocates (m : Machine) (o : HeapObject) : EStateM.Result Stop Machine Value → Prop
  | failed {f : Fault} : Allocates m o (.error (.fault f) m.afterFailedCollection)
  | placed {kept : Root → Prop} {f : Nat → Nat} {m' : Machine} : Relocated kept f m m' →
      (∀ r ∈ o.roots, kept r) →
      Allocates m o (.ok m'.nextPlace (m'.append (o.mapEdges (Value.rename f))))

theorem allocate_rules {m : Machine} (h : m.memory.EpochsPast) (o : HeapObject) :
    Allocates m o (allocate o m) := by
  unfold allocate
  split_ifs
  · cases hc : m.memory.collect (m.roots ++ o.roots) with
    | error f => exact .failed
    | ok c =>
      dsimp only
      rw [c.survey.relocate_eq_rename]
      exact .placed (.collected h hc) fun r hr => .root (List.mem_append_right _ hr)
  · have hplaced := Allocates.placed (Relocated.refl h) (o := o) fun _ _ => trivial
    rwa [Value.rename_id, o.mapEdges_id] at hplaced

/-- A well-indexed machine with `size` values on the scratch stack, symbols at these
places. -/
structure Machine.Reserves (size : Nat) (places : Nat → Prop) (m : Machine) : Prop where
  indexed : m.Indexed
  size_eq : m.scratch.size = size
  symbols : ∀ place, places place → ∃ v, m.scratch[place]? = some v ∧ m.memory.IsSymbol v

section

variable {size : Nat} {places places' : Nat → Prop} {m m' : Machine}

namespace Machine.Reserves

theorem mono (h : m.Reserves size places) (hle : ∀ place, places' place → places place) :
    m.Reserves size places' :=
  ⟨h.indexed, h.size_eq, fun place hplace => h.symbols place (hle place hplace)⟩

theorem relocated {kept : Root → Prop} {f : Nat → Nat} (h : m.Reserves size places)
    (hm' : Relocated kept f m m') : m'.Reserves size places := by
  constructor
  · exact hm'.indexed h.indexed
  · rw [hm'.scratch, Array.size_map, h.size_eq]
  · intro place hplace
    obtain ⟨v, hv, hsymbol⟩ := h.symbols place hplace
    refine ⟨v.rename f, ?_, hm'.carries.isSymbol (hm'.roots _ ?_) hsymbol⟩
    · rw [hm'.scratch, Array.getElem?_map, hv]
      rfl
    · exact Machine.value_mem_roots.mpr (.inr (.inr (.inr (Array.mem_of_getElem? hv))))

theorem append (h : m.Reserves size places) {o : HeapObject} (ho : o.body.Indexed m.memory) :
    (m.append o).Reserves size places := by
  constructor
  · exact h.indexed.append ho
  · exact h.size_eq
  · intro place hplace
    obtain ⟨v, hv, hsymbol⟩ := h.symbols place hplace
    exact ⟨v, hv, (m.memory.keeps_append o).isSymbol hsymbol⟩

theorem of_indexed (h : m.Indexed) : m.Reserves m.scratch.size fun _ => False :=
  ⟨h, rfl, fun _ hplace => hplace.elim⟩

end Machine.Reserves

/-- The new object is found at its place, its edges moved. -/
theorem allocate_gives {o : HeapObject} (h : m.Reserves size places)
    (ho : o.body.Indexed m.memory) :
    Gives Machine.Indexed
      (fun v m' => m'.Reserves size places ∧ ∃ g, m'.memory.body? v = some (o.body.map g))
      (allocate o m) := by
  have hrules := allocate_rules h.indexed.epochs o
  generalize allocate o m = r at hrules
  cases hrules with
  | failed => exact .fault h.indexed.afterFailedCollection
  | @placed kept f m' hrelocated hkept =>
    have hbody : (o.body.map (Value.rename f)).Indexed m'.memory := by
      apply hrelocated.carries.body ho
      intro v hv
      exact hkept _ ((o.value_mem_roots v).mpr (List.mem_cons_of_mem _ hv))
    apply Gives.ok
    constructor
    · apply (h.relocated hrelocated).append
      rw [HeapObject.mapEdges_body]
      exact hbody
    · refine ⟨Value.rename f, ?_⟩
      rw [Machine.append_memory, Memory.body?, Machine.nextPlace, Memory.object?_append_new,
        Option.map_some, HeapObject.mapEdges_body]

theorem allocate_kept {o : HeapObject} (h : m.Indexed) (ho : o.body.Indexed m.memory) :
    Kept Machine.Indexed (allocate o m) :=
  (allocate_gives (.of_indexed h) ho).kept fun _ _ hm' => hm'.1.indexed

theorem Body.Indexed.of_lasts {mem : Memory} {b : Body} (h : b.lasts = false) :
    b.Indexed mem := by
  cases b with
  | method | block => cases h
  | _ => trivial

theorem intern_gives (h : m.Reserves size places) (name : String) :
    Gives Machine.Indexed (fun v m' => m'.Reserves size places ∧ m'.memory.IsSymbol v)
      (intern name m) := by
  rw [intern, bind_get]
  cases hfound : m.symbols.get? name with
  | some v =>
    apply Gives.ok
    exact ⟨h, h.indexed.symbols v (Dictionary.mem_values_of_get? hfound)⟩
  | none =>
    dsimp only
    rw [bind_get]
    apply (allocate_gives h (o := .new m.core.symbol (.symbol name)) trivial).bind
    rintro v m' ⟨hm', g, hbody⟩
    have hsymbol : m'.memory.IsSymbol v := ⟨name, hbody⟩
    rw [bind_modify]
    refine .ok ⟨⟨?_, hm'.size_eq, hm'.symbols⟩, hsymbol⟩
    refine hm'.indexed.withRoots rfl rfl ?_
    intro u hu
    rcases Dictionary.mem_values_insert _ hu with rfl | hold
    · exact .inl hsymbol
    · exact .inr hold

end

theorem Machine.body?_adopt (m : Machine) (v : Value) :
    ({ m.memory with objects := m.memory.objects.map fun o => o.adopt m.core.dictionary } :
      Memory).body? v = m.memory.body? v := by
  cases v with
  | pointer i =>
    simp only [Memory.body?, Memory.object?, Array.getElem?_map, Option.map_map]
    congr 1
    funext o
    simp only [Function.comp_apply, HeapObject.adopt]
    split
    · split_ifs <;> rfl
    · rfl
  | _ => rfl

/-- Only code asks for more than a well-indexed machine. -/
theorem Machine.indexed_stable : Stable Machine.Indexed where
  rerooted hm hm' := hm.withRoots hm'.memory hm'.activity_eq fun v hv => .inr (hm'.symbols ▸ hv)
  allocate o ho m hm := allocate_kept hm (.of_lasts ho)
  intern name m hm := (intern_gives (.of_indexed hm) name).kept fun _ _ hm' => hm'.1.indexed
  define {m v d} hm hd d' := by
    apply hm.write
    · intro b hb hlasts
      rw [hd] at hb
      cases hb
      cases hlasts
    · intro b _ hlasts
      cases hlasts
  adopt := by
    apply Upholds.modify
    intro m hm
    refine hm.withObjects rfl (Nat.le_refl _) rfl rfl ?_ ?_
    · intro v b _ hb
      rw [m.body?_adopt, hb]
    · intro v b _ hb
      rw [m.body?_adopt] at hb
      exact .inr hb

def Literal.Names (mem : Memory) : Literal → Prop
  | value v => mem.IsSymbol v
  | symbol _ => True
  | string _ => False

def Draft.WellIndexed (mem : Memory) (d : Draft) : Prop :=
  d.assembly.code.WellIndexed (Literal.Names mem) d.literals d.temporaries.length

section

variable {size : Nat} {places : Nat → Prop} {m : Machine}

theorem Machine.Reserves.set (h : m.Reserves size places) (place : Nat) (v : Value) :
    Reserves size (fun k => places k ∧ k ≠ place) { m with scratch := m.scratch.set! place v } := by
  constructor
  · exact h.indexed.withRoots rfl rfl fun _ hu => .inr hu
  · rw [← h.size_eq]
    exact Array.size_setIfInBounds
  · intro k hk
    obtain ⟨u, hu, hsymbol⟩ := h.symbols k hk.1
    exact ⟨u, (Array.getElem?_setIfInBounds_ne hk.2.symm).trans hu, hsymbol⟩

theorem Machine.Reserves.setSymbol (h : m.Reserves size places) {place : Nat} {v : Value}
    (hplace : place < size) (hv : m.memory.IsSymbol v) :
    Reserves size (fun k => places k ∨ k = place)
      { m with scratch := m.scratch.set! place v } := by
  obtain ⟨hindexed, hsize, hsymbols⟩ := h.set place v
  refine ⟨hindexed, hsize, ?_⟩
  intro k hk
  by_cases heq : k = place
  · subst heq
    refine ⟨v, Array.getElem?_setIfInBounds_self_of_lt ?_, hv⟩
    rwa [h.size_eq]
  · exact hsymbols k ⟨hk.resolve_right heq, heq⟩

/-- The places of symbols among literals that start at `place`. -/
def Literal.SymbolAt (literals : List Literal) (place k : Nat) : Prop :=
  ∃ j name, literals[j]? = some (.symbol name) ∧ k = place + j

theorem Literal.SymbolAt.of_cons {literal : Literal} {rest : List Literal} {place k : Nat}
    (h : SymbolAt (literal :: rest) place k) :
    (∃ name, literal = .symbol name ∧ k = place) ∨ SymbolAt rest (place + 1) k := by
  obtain ⟨j, name, hj, rfl⟩ := h
  cases j with
  | zero => exact .inl ⟨name, Option.some.inj hj, rfl⟩
  | succ j => exact .inr ⟨j, name, hj, by omega⟩

/-- Once the literals are filled in, the places of symbols hold symbols. Places that
held a symbol still do, as long as no string goes there. -/
theorem Draft.fill_gives {literals : List Literal} {place : Nat} (h : m.Reserves size places)
    (hsize : place + literals.length ≤ size)
    (hstrings : ∀ (k : Nat) s, literals[k]? = some (.string s) → ¬places (place + k)) :
    Gives Machine.Indexed
      (fun _ => Machine.Reserves size fun k => places k ∨ Literal.SymbolAt literals place k)
      (fill literals place m) := by
  induction literals generalizing place places m with
  | nil =>
    apply Gives.ok
    apply h.mono
    rintro k (hk | ⟨j, name, hj, -⟩)
    · exact hk
    · cases hj
  | cons literal rest ih =>
    have hsize' : place + 1 + rest.length ≤ size := by
      rw [List.length_cons] at hsize
      omega
    have hstrings' : ∀ (k : Nat) s, rest[k]? = some (.string s) → ¬places (place + 1 + k) := by
      intro k s hk
      have hnot := hstrings (k + 1) s hk
      rwa [show place + (k + 1) = place + 1 + k by omega] at hnot
    cases literal with
    | value v =>
      apply (ih h hsize' hstrings').imp
      intro _ m' hm'
      apply hm'.mono
      rintro k (hk | hk)
      · exact .inl hk
      · rcases hk.of_cons with ⟨name, hname, -⟩ | hk
        · cases hname
        · exact .inr hk
    | symbol name =>
      apply (intern_gives h name).bind
      rintro v m' ⟨hm', hv⟩
      rw [bind_modify]
      apply (ih (hm'.setSymbol (by omega) hv) hsize' _).imp
      · intro _ m'' hm''
        apply hm''.mono
        rintro k (hk | hk)
        · exact .inl (.inl hk)
        · rcases hk.of_cons with ⟨-, -, rfl⟩ | hk
          · exact .inl (.inr rfl)
          · exact .inr hk
      · rintro k s hk (hplace | hplace)
        · exact hstrings' k s hk hplace
        · omega
    | string s =>
      have hfree : ¬places place := hstrings 0 s rfl
      change Gives _ _ ((newString s >>= fun v => modify (fun m =>
        { m with scratch := m.scratch.set! place v }) >>= fun _ => fill rest (place + 1)) m)
      apply (allocate_gives h (o := .new m.core.string (.string s)) trivial).bind
      rintro v m' ⟨hm', -⟩
      rw [bind_modify]
      apply (ih (hm'.set place v) hsize' fun k s hk hplace => hstrings' k s hk hplace.1).imp
      intro _ m'' hm''
      apply hm''.mono
      rintro k (hk | hk)
      · exact .inl ⟨hk, fun heq => hfree (heq ▸ hk)⟩
      · rcases hk.of_cons with ⟨name, hname, -⟩ | hk
        · cases hname
        · exact .inr hk

namespace Draft

variable {d : Draft}

def GivenAt (d : Draft) (mem : Memory) (place k : Nat) : Prop :=
  ∃ j v, d.literals[j]? = some (.value v) ∧ mem.IsSymbol v ∧ k = place + j

/-- The class and the literals of a draft have been put on the scratch stack. -/
theorem begun (h : m.Indexed) (d : Draft) :
    Machine.Reserves (m.scratch.size + 1 + d.literals.size)
      (d.GivenAt m.memory (m.scratch.size + 1))
      { m with scratch := m.scratch.push d.owner ++ d.literals.map Literal.placeholder } := by
  constructor
  · exact h.withRoots rfl rfl fun _ hu => .inr hu
  · simp
  · rintro k ⟨j, v, hj, hv, rfl⟩
    refine ⟨v, ?_, hv⟩
    rw [Array.getElem?_append_right (by simp), Array.getElem?_map]
    simp [hj, Literal.placeholder]

/-- The literals of the method are those of the draft, symbols where they are named. -/
theorem wellIndexed_of_filled {mem : Memory} {mark : Nat} (hd : d.WellIndexed mem)
    (h : m.Reserves (mark + 1 + d.literals.size)
      fun k => d.GivenAt mem (mark + 1) k ∨ Literal.SymbolAt d.literals.toList (mark + 1) k) :
    d.assembly.code.WellIndexed m.memory.IsSymbol (m.scratch.extract (mark + 1) m.scratch.size)
      d.temporaries.length := by
  apply Code.WellIndexed.transfer hd
  · simp [h.size_eq]
  intro k l v hl hv hname
  have hplace : m.scratch[mark + 1 + k]? = some v := by
    rw [Array.getElem?_extract] at hv
    split_ifs at hv
    exact hv
  have hsymbol : ∃ u, m.scratch[mark + 1 + k]? = some u ∧ m.memory.IsSymbol u := by
    apply h.symbols
    cases l with
    | value u => exact .inl ⟨k, u, hl, hname, rfl⟩
    | symbol name => exact .inr ⟨k, name, by simpa using hl, rfl⟩
    | string s => exact hname.elim
  obtain ⟨u, hu, hsymbol⟩ := hsymbol
  rw [hplace] at hu
  cases hu
  exact hsymbol

theorem build_kept (h : m.Indexed) (hd : d.WellIndexed m.memory) :
    Kept Machine.Indexed (d.build m) := by
  have hstrings : ∀ (k : Nat) s, d.literals.toList[k]? = some (.string s) →
      ¬d.GivenAt m.memory (m.scratch.size + 1) (m.scratch.size + 1 + k) := by
    rintro k s hk ⟨j, v, hj, -, heq⟩
    obtain rfl : k = j := by omega
    rw [Array.getElem?_toList, hj] at hk
    cases hk
  have hfill := fill_gives (begun h d) (by simp) hstrings
  have hbuild : Gives Machine.Indexed (fun _ => Machine.Indexed) (d.build m) := by
    apply hfill.bind
    intro _ m₁ hm₁
    apply (intern_gives hm₁ d.selector).bind
    rintro selector m₂ ⟨hm₂, -⟩
    rw [bind_get]
    apply Gives.bind (x := newMethod _)
    · apply allocate_gives hm₂
      exact wellIndexed_of_filled hd hm₂
    rintro v m₃ ⟨hm₃, -⟩
    rw [bind_modify]
    exact .ok (hm₃.indexed.withRoots rfl rfl fun _ hu => .inr hu)
  exact hbuild.kept fun _ _ hm' => hm'

theorem install_kept (h : m.Indexed) (hd : d.WellIndexed m.memory) :
    Kept Machine.Indexed (d.install m) :=
  Machine.indexed_stable.install (build_kept h hd)

end Draft

end

theorem collectGarbage_kept : Upholds Machine.Indexed collectGarbage := by
  intro m hm
  unfold collectGarbage
  cases hc : m.memory.collect m.roots with
  | error f => exact .fault hm.afterFailedCollection
  | ok c =>
    rw [← List.append_nil m.roots] at hc
    exact .ok ((Relocated.collected hm.epochs hc).indexed hm)

theorem Draft.constant_eq (owner v : Value) (selector : String) :
    ((Draft.new owner selector).push (.value v)).emit .returnTop =
      ⟨owner, selector, #[.value v], [], none,
        ⟨Instruction.encode (.pushLiteral 0) ++ Instruction.encode .returnTop⟩⟩ := by
  simp [push, addLiteral, new, emit, Assembly.emit, Assembly.empty]

theorem setUp_kept : Upholds Machine.Indexed setUp := by
  apply Machine.indexed_stable.setUp
  · intro className selector primitive m hm
    apply Kept.bind (x := Draft.install _)
    · exact Draft.install_kept hm (Code.WellIndexed.nil _ _)
    · exact fun _ => .pure ()
  · intro className selector v m hm
    apply Kept.bind (x := Draft.install _)
    · apply Draft.install_kept hm
      rw [Draft.constant_eq]
      exact Code.WellIndexed.constant _ _
    · exact fun _ => .pure ()

theorem bootstrap_indexed {settings : Settings} {maxDepth : Nat} {m : Machine}
    (h : bootstrap settings maxDepth = .ok m) : m.Indexed := by
  apply bootstrap_keeps _ setUp_kept h
  constructor
  · intro id c hc
    simp at hc
  · intro v b hb
    cases v with
    | pointer i => simp [Memory.body?, Memory.object?] at hb
    | _ => cases hb
  · exact fun v hv => absurd hv List.not_mem_nil
  · intro id hid
    induction hid with
    | active hid => cases hid
    | sender _ hsender => simp [Machine.activity] at hsender

end ObjectMachine

import ObjectMachine.Proofs.HostOperations

/-!
# Sound references and sound dispatch

Two promises hold in every machine that a host can get to. No reference dangles,
as long as the host passes live values only. And dispatch always finds what it
looks for, as long as the host also names classes and primitives that exist: a
class for every value, a dictionary of methods in every class, and code in every
context that can still run.
-/

namespace ObjectMachine

namespace Machine

structure Closed (m : Machine) : Prop where
  roots : ∀ v, .value v ∈ m.roots → m.memory.Live v
  objects : ∀ (i : Nat) (o : HeapObject), m.memory.objects[i]? = some o →
    o.body ≠ .husk ∧ ∀ v ∈ o.edges, m.memory.Live v
  contexts : ∀ id, m.InUse id →
    ∃ c, m.memory.contexts[id]? = some c ∧ ∀ v ∈ c.edges, m.memory.Live v

/-- The root is live, or a context in use. -/
def Holds (m : Machine) : Root → Prop
  | .value v => m.memory.Live v
  | .context id => m.InUse id

/-- What dispatch relies on. -/
structure Dispatchable (m : Machine) : Prop where
  header : ∀ (i : Nat) (o : HeapObject), m.memory.objects[i]? = some o →
    o.body.kind ≠ .classInfo → m.isClass o.header.classRef
  methods : ∀ (v : Value) (c : ClassInfo), m.memory.body? v = some (.classInfo c) →
    ∃ t, m.memory.body? c.methods = some (.dictionary t) ∧
      ∀ entry ∈ t.values, ∃ method, m.memory.body? entry = some (.method method)
  code : ∀ id, m.InUse id → ∃ c, m.memory.contexts[id]? = some c ∧
    ((∃ method, m.memory.body? c.method = some (.method method)) ∨
      ∃ block, m.memory.body? c.method = some (.block block))

variable {d : Discipline} {m : Machine}

theorem Intact.closed (h : m.Intact d) : m.Closed := by
  obtain ⟨inUse, h⟩ := h
  have hlive : ∀ v, (m.memory.view inUse).Held (.value v) → m.memory.Live v :=
    fun v => (m.memory.held_iff_live inUse v).mp
  refine ⟨fun v hv => hlive v (h.roots _ hv), ?_, ?_⟩
  · intro i o ho
    have hintact := h.memory.objects i o ho
    exact ⟨hintact.whole, fun v hv => hlive v (hintact.held _ ((o.value_mem_roots v).mpr hv))⟩
  · intro id hid
    obtain ⟨c, hc, hintact⟩ := h.memory.contexts id (h.inUse_of hid)
    exact ⟨c, hc, fun v hv => hlive v (hintact.held _ ((c.value_mem_roots v).mpr hv))⟩

theorem Closed.verify (h : m.Closed) : m.memory.verify = .ok () := by
  have hnone : ∀ e ∈ m.memory.objects.toList.zipIdx,
      Memory.check m.memory.objects.size e.2 e.1 = none := by
    rintro ⟨o, i⟩ he
    have ho : m.memory.objects[i]? = some o := by
      rw [← Array.getElem?_toList]
      exact List.mk_mem_zipIdx_iff_getElem?.mp he
    obtain ⟨hwhole, hedges⟩ := h.objects i o ho
    have hedge : Memory.danglingEdge? m.memory.objects.size o = none := by
      refine List.find?_eq_none.mpr fun v hv => ?_
      cases v with
      | pointer k =>
        have hlt : k < m.memory.objects.size := hedges _ hv
        simpa using hlt
      | _ => simp
    unfold Memory.check
    split
    · next hb => exact absurd hb hwhole
    · rw [hedge]
      rfl
  unfold Memory.verify
  rw [List.filterMap_eq_nil_iff.mpr hnone]

theorem Intact.collect_ne_dangling (h : m.Intact d) {pending : List Root}
    (hpending : ∀ r ∈ pending, m.Holds r) (v : Value) :
    m.memory.collect (m.roots ++ pending) ≠ .error (.danglingReference v) := by
  obtain ⟨inUse, h⟩ := h
  have hheld : ∀ r ∈ pending, (m.memory.view inUse).Held r := by
    intro r hr
    cases r with
    | value v => exact (m.memory.held_iff_live inUse v).mpr (hpending _ hr)
    | context id => exact h.inUse_of (hpending _ hr)
  rcases h.settle pending hheld with hover | ⟨f, c, inUse', hc, -⟩
  · rw [hover]
    simp
  · rw [hc]
    simp

end Machine

/-- As long as a host passes live values only, no reference ever dangles: not in
the roots, the objects or the contexts in use. Memory passes its own check, the
next collection meets no dangling reference, and neither does any operation. -/
theorem no_reference_dangles {m : Machine} (h : Reachable .free m) :
    m.Closed ∧ m.memory.verify = .ok () ∧
      (∀ pending : List Root, (∀ r ∈ pending, m.Holds r) → ∀ v,
        m.memory.collect (m.roots ++ pending) ≠ .error (.danglingReference v)) ∧
      ∀ op : Operation, op.Admitted .free m → ∀ v m',
        op.run m ≠ .error (.fault (.danglingReference v)) m' := by
  have hintact := h.intact (by simp)
  refine ⟨hintact.closed, hintact.closed.verify, ?_, ?_⟩
  · exact fun pending hpending v => hintact.collect_ne_dangling hpending v
  · intro op hop v m' hrun
    exact Operation.not_excluded (by simp) hintact hop hrun trivial

/-- After a collection and a sum, a tight machine has no dangling reference. -/
theorem tight_machine_no_reference_dangles : ∃ m, Reachable .free m ∧ 0 < m.memory.collections ∧
    m.Closed ∧ m.memory.verify = .ok () := by
  obtain ⟨m, m', hboot, hsum, hcollected⟩ := tight_machine_adds
  have hreach : Reachable .free m' := .answered (.boot hboot) (Operation.sum_admitted _ m) hsum
  have hsound := no_reference_dangles hreach
  exact ⟨m', hreach, hcollected, hsound.1, hsound.2.1⟩

/-- A stamp tells the shape of a body. -/
theorem Memory.body?_of_stamp {mem : Memory} {v : Value} {s : Stamp}
    (h : mem.stamp? v = some s) : ∃ b, mem.body? v = some b ∧ b.kind = s.kind := by
  obtain ⟨b, hb, rfl⟩ := Option.map_eq_some_iff.mp h
  exact ⟨b, hb, (b.stamp_kind).symm⟩

namespace Body

variable {b : Body}

theorem kind_eq_dictionary : b.kind = .dictionary ↔ ∃ t, b = .dictionary t := by
  cases b <;> simp [kind]

theorem kind_eq_method : b.kind = .method ↔ ∃ c, b = .method c := by
  cases b <;> simp [kind]

theorem kind_eq_block : b.kind = .block ↔ ∃ c, b = .block c := by
  cases b <;> simp [kind]

end Body

theorem Machine.isClass_iff {m : Machine} {v : Value} : m.isClass v = true ↔ m.HasClass v := by
  refine ⟨Primitive.isClass_stamp, ?_⟩
  rintro ⟨s, hs, hclass⟩
  obtain ⟨b, hb, hkind⟩ := Memory.body?_of_stamp hs
  rw [hclass] at hkind
  unfold isClass
  rw [hb]
  cases b <;> simp [Body.kind] at hkind ⊢

namespace Machine

variable {m : Machine}

theorem Intact.dispatchable (h : m.Intact .strict) : m.Dispatchable := by
  obtain ⟨inUse, h⟩ := h
  refine ⟨?_, ?_, ?_⟩
  · intro i o ho hkind
    exact isClass_iff.mpr ((h.memory.objects i o ho).typed.header hkind)
  · intro v c hc
    obtain ⟨s, hs, hdictionary⟩ := h.wellTyped (by simp) hc
    obtain ⟨b, hb, hkind⟩ := Memory.body?_of_stamp hs
    obtain ⟨t, rfl⟩ := Body.kind_eq_dictionary.mp (hkind.trans hdictionary)
    refine ⟨t, hb, fun entry hentry => ?_⟩
    obtain ⟨s, hs, hmethod, -⟩ := h.wellTyped (by simp) hb entry hentry
    obtain ⟨b, hb, hkind⟩ := Memory.body?_of_stamp hs
    obtain ⟨method, rfl⟩ := Body.kind_eq_method.mp (hkind.trans hmethod)
    exact ⟨method, hb⟩
  · intro id hid
    obtain ⟨c, hc, hintact⟩ := h.memory.contexts id (h.inUse_of hid)
    obtain ⟨s, hs, hcode⟩ := hintact.code (by simp)
    obtain ⟨b, hb, hkind⟩ := Memory.body?_of_stamp hs
    refine ⟨c, hc, hcode.imp (fun hmethod => ?_) fun hblock => ?_⟩
    · obtain ⟨method, rfl⟩ := Body.kind_eq_method.mp (hkind.trans hmethod)
      exact ⟨method, hb⟩
    · obtain ⟨block, rfl⟩ := Body.kind_eq_block.mp (hkind.trans hblock)
      exact ⟨block, hb⟩

end Machine

/-- Nothing can go wrong but what the strict discipline excludes. -/
def OnlyBreaks {α : Type} (x : Except Fault α) : Prop := ∀ f, x = .error f → f.ExcludedBy .strict

theorem OnlyBreaks.ok {α : Type} (a : α) : OnlyBreaks (.ok a) := fun _ h => nomatch h

theorem OnlyBreaks.error {α : Type} {f : Fault} (h : f.ExcludedBy .strict) :
    OnlyBreaks (.error f : Except Fault α) := fun _ heq => Except.error.inj heq ▸ h

theorem OnlyBreaks.bind {α β : Type} {x : Except Fault α} {g : α → Except Fault β}
    (hx : OnlyBreaks x) (hg : ∀ a, OnlyBreaks (g a)) : OnlyBreaks (x >>= g) := by
  cases x with
  | ok a => exact hg a
  | error f => exact .error (hx f rfl)

theorem Grants.succeeds {α : Type} {P : α → Prop} {x : Except Fault α}
    (hx : Grants .strict P x) (hbreaks : OnlyBreaks x) : ∃ a, x = .ok a ∧ P a := by
  cases x with
  | ok a => exact ⟨a, rfl, hx⟩
  | error f => exact absurd (hbreaks f rfl) hx

namespace Machine

variable {m : Machine}

theorem body_onlyBreaks (m : Machine) (v : Value) : OnlyBreaks (m.body v) := by
  unfold body
  split
  · exact .ok _
  · exact .error rfl

theorem classOf_onlyBreaks (m : Machine) (v : Value) : OnlyBreaks (m.classOf v) := by
  unfold classOf
  split
  case h_6 =>
    split
    · exact .error rfl
    · split
      · exact .ok _
      · split_ifs
        · exact .error rfl
        · exact .ok _
  all_goals exact .ok _

theorem ownMethod?_onlyBreaks (m : Machine) (c : ClassInfo) (selector : String) :
    OnlyBreaks (m.ownMethod? c selector) := by
  refine (m.body_onlyBreaks c.methods).bind fun b => ?_
  split
  · exact .ok _
  · exact .error rfl

theorem lookupFrom_onlyBreaks (m : Machine) (selector : String) (fuel : Nat) (v : Value) :
    OnlyBreaks (m.lookupFrom selector fuel v) := by
  induction fuel generalizing v with
  | zero => exact .ok _
  | succ fuel ih =>
    unfold lookupFrom
    split
    · refine (m.ownMethod?_onlyBreaks _ selector).bind fun r => ?_
      cases r with
      | some method => exact .ok _
      | none => exact ih _
    · exact .ok _

theorem entry_onlyBreaks (m : Machine) (selector : String) (v : Value) :
    OnlyBreaks (m.entry selector v) := by
  refine (m.body_onlyBreaks v).bind fun b => ?_
  split
  · exact .ok _
  · exact .error rfl

theorem program_onlyBreaks (m : Machine) (v : Value) : OnlyBreaks (m.program v) := by
  refine (m.body_onlyBreaks v).bind fun b => ?_
  split
  · exact .ok _
  · exact .ok _
  · exact .error rfl

end Machine

/-- As long as a host also names classes and primitives that exist, dispatch
always finds what it looks for: a class for every live value, methods in
dictionaries along every chain of superclasses, and code in every context in
use. So no operation and no single step stops at a broken structure. -/
theorem dispatch_never_breaks {m : Machine} (h : Reachable .strict m) :
    m.Dispatchable ∧
      (∀ v, m.memory.Live v → ∃ c, m.classOf v = .ok c ∧ m.isClass c) ∧
      (∀ v selector, ∃ found, m.lookup v selector = .ok found ∧
        ∀ entry ∈ found, ∃ method, m.entry selector entry = .ok method) ∧
      (∀ id c, m.InUse id → m.memory.contexts[id]? = some c →
        ∃ program, m.program c.method = .ok program) ∧
      (∀ op : Operation, op.Admitted .strict m → ∀ f m', op.run m = .error (.fault f) m' →
        ¬f.ExcludedBy .strict) ∧
      ∀ f m', step m = .error (.fault f) m' → ¬f.ExcludedBy .strict := by
  have hintact := h.intact (by simp)
  refine ⟨hintact.dispatchable, ?_, ?_, ?_, ?_, ?_⟩
  · intro v hv
    obtain ⟨c, hc, -, hclass⟩ :=
      (Machine.classOf_grants hintact hv).succeeds (m.classOf_onlyBreaks v)
    exact ⟨c, hc, Machine.isClass_iff.mpr (hclass rfl)⟩
  · intro v selector
    obtain ⟨found, hfound, hentries⟩ := (Machine.lookupFrom_grants hintact selector _ v).succeeds
      (m.lookupFrom_onlyBreaks selector _ v)
    refine ⟨found, hfound, fun entry hentry => ?_⟩
    obtain ⟨method, hmethod, -⟩ :=
      (Machine.entry_grants selector (hentries entry hentry).2).succeeds
        (m.entry_onlyBreaks selector entry)
    exact ⟨method, hmethod⟩
  · intro id c hid hc
    have hcode : ∃ s, m.memory.stamp? c.method = some s ∧ s.IsCode := by
      obtain ⟨inUse, hfor⟩ := hintact
      obtain ⟨c', hc', hcontext⟩ := hfor.memory.contexts id (hfor.inUse_of hid)
      obtain rfl := Option.some.inj (hc.symm.trans hc')
      exact hcontext.code (by simp)
    obtain ⟨program, hprogram, -⟩ := (Machine.program_grants hintact fun _ => hcode).succeeds
      (m.program_onlyBreaks c.method)
    exact ⟨program, hprogram⟩
  · intro op hop f m' hrun
    exact Operation.not_excluded (by simp) hintact hop hrun
  · intro f m' hstep
    have hy := step_yields (by simp) hintact
    rw [Yields, hstep] at hy
    exact hy.2

theorem tight_machine_dispatch_never_breaks : ∃ m, Reachable .strict m ∧
    0 < m.memory.collections ∧ m.Dispatchable ∧
    ∀ f m', step m = .error (.fault f) m' → ¬f.ExcludedBy .strict := by
  obtain ⟨m, m', hboot, hsum, hcollected⟩ := tight_machine_adds
  have hreach : Reachable .strict m' := .answered (.boot hboot) (Operation.sum_admitted _ m) hsum
  have hsound := dispatch_never_breaks hreach
  exact ⟨m', hreach, hcollected, hsound.1, hsound.2.2.2.2.2⟩

end ObjectMachine

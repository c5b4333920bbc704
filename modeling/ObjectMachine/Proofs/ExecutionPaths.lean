import ObjectMachine.Proofs.ConstructionPaths

/-!
# Running code is a path

Dispatch, primitives and instructions are followed in the order in which the
machine carries them out. What is read from an intact machine is live, so every
value that is stored or passed on is; and where dispatch expects a class, a
method or code, the strict discipline grants it.
-/

namespace ObjectMachine

open ObjectMachine.Action

section

variable {d : Discipline} {m : Machine}

theorem Value.isPointer_of_isNil {v : Value} (h : v.isNil = true) : v.isPointer = false := by
  cases v with
  | pointer i => exact absurd h Bool.false_ne_true
  | _ => rfl

namespace Machine

theorem classOf_grants (h : m.Intact d) {v : Value} (hv : m.memory.Live v) :
    Grants d
      (fun c => m.memory.Live c ∧ (d = .strict → ∃ s, m.memory.stamp? c = some s ∧ s.IsClass))
      (m.classOf v) := by
  obtain ⟨inUse, h⟩ := h
  have hcore : ∀ c ∈ m.core.values,
      m.memory.Live c ∧ (d = .strict → ∃ s, m.memory.stamp? c = some s ∧ s.IsClass) := by
    intro c hc
    refine ⟨h.live_of_core hc, ?_⟩
    rintro rfl
    exact h.core c hc
  cases v with
  | integer n => exact hcore _ (by simp [CoreClasses.values])
  | float x => exact hcore _ (by simp [CoreClasses.values])
  | nil => exact hcore _ (by simp [CoreClasses.values])
  | reserved n => exact hcore _ (by simp [CoreClasses.values])
  | bool b => cases b <;> exact hcore _ (by simp [CoreClasses.values])
  | pointer i =>
    have ho := Array.getElem?_eq_getElem hv
    generalize m.memory.objects[i] = o at ho
    have hintact := h.memory.objects i o ho
    have hobject : m.memory.object? (.pointer i) = some o := ho
    simp only [classOf, hobject]
    split
    case h_1 c hb =>
      have hbody : m.memory.body? (.pointer i) = some (.classInfo c) := by
        simp [Memory.body?, hobject, hb]
      exact ⟨hv, fun _ => ⟨_, Memory.stamp?_of_body? _ hbody, rfl⟩⟩
    case h_2 b hb =>
      have hkind : o.body.kind ≠ .classInfo := by
        intro hk
        cases hbody : o.body <;> simp [hbody, Body.kind] at hk
        exact hb _ hbody
      have hclass := hintact.typed.header hkind
      split_ifs with hnil
      · rintro rfl
        obtain ⟨s, hs, -⟩ := hclass
        have hnone := m.memory.stamp?_immediate (Value.isPointer_of_isNil hnil)
        exact absurd (hnone.symm.trans hs) (by simp)
      · refine ⟨?_, by rintro rfl; exact hclass⟩
        exact (m.memory.held_iff_live inUse _).mp
          (hintact.held _ ((o.value_mem_roots _).mpr (by simp [HeapObject.edges])))

theorem ownMethod?_grants (h : m.Intact d) {v : Value} {c : ClassInfo}
    (hc : m.memory.body? v = some (.classInfo c)) (selector : String) :
    Grants d
      (fun r => ∀ method ∈ r, m.memory.Live method ∧
        (d = .strict → ∃ s, m.memory.stamp? method = some s ∧ s.IsKnownMethod))
      (m.ownMethod? c selector) := by
  have hdictionary : d = .strict → ∃ s, m.memory.stamp? c.methods = some s ∧ s.IsDictionary := by
    rintro rfl
    exact h.methods_dictionary hc
  refine Grants.bind (body_grants hdictionary) ?_
  rintro b ⟨hb, hdictionary⟩
  cases b with
  | dictionary entries =>
    intro method hm
    have hmem : method ∈ entries.values := Dictionary.mem_values_of_get? hm
    obtain ⟨inUse, h⟩ := h
    refine ⟨h.live_of_edge hb hmem, ?_⟩
    rintro rfl
    exact h.wellTyped rfl hb method hmem
  | _ => exact fun hd => absurd (hdictionary hd) (by simp [Stamp.IsDictionary, Body.kind])

theorem lookupFrom_grants (h : m.Intact d) (selector : String) (fuel : Nat) (v : Value) :
    Grants d
      (fun r => ∀ method ∈ r, m.memory.Live method ∧
        (d = .strict → ∃ s, m.memory.stamp? method = some s ∧ s.IsKnownMethod))
      (m.lookupFrom selector fuel v) := by
  induction fuel generalizing v with
  | zero => exact fun method hm => absurd hm (by simp)
  | succ fuel ih =>
    unfold lookupFrom
    split
    case h_1 c hc =>
      refine Grants.bind (ownMethod?_grants h hc selector) ?_
      intro r hr
      cases r with
      | some method => exact hr
      | none => exact ih c.superclass
    case h_2 => exact fun method hm => absurd hm (by simp)

end Machine

/-- What an effect would store, pass on or make is sound. -/
def Effect.Ready (d : Discipline) (m : Machine) : Effect → Prop
  | .decline => True
  | .answer v | .putElement _ _ v | .putByte _ _ _ v => m.memory.Live v
  | .create o => Made d m o
  | .call _ args => ∀ v ∈ args, m.memory.Live v

namespace Primitive

theorem number_grants (h : m.Intact d) {v : Value} (hv : m.memory.Live v) :
    Grants d (fun _ => True) (number m v) := by
  cases v with
  | pointer i =>
    refine Grants.bind (Machine.classOf_grants h hv) ?_
    intro c _
    split_ifs
    · exact id
    · trivial
  | _ => trivial

theorem integerOperands_grants (h : m.Intact d) {receiver arg : Value}
    (hr : m.memory.Live receiver) (ha : m.memory.Live arg) :
    Grants d (fun _ => True) (integerOperands m receiver arg) := by
  refine Grants.bind (number_grants h hr) ?_
  intro n _
  split
  · refine Grants.bind (number_grants h ha) ?_
    exact fun _ _ => trivial
  · trivial

theorem floatOperands_grants (h : m.Intact d) {receiver arg : Value}
    (hr : m.memory.Live receiver) (ha : m.memory.Live arg) :
    Grants d (fun _ => True) (floatOperands m receiver arg) := by
  refine Grants.bind (number_grants h hr) ?_
  intro n _
  split
  · trivial
  · refine Grants.bind (number_grants h ha) ?_
    exact fun _ _ => trivial

theorem floatEffect_grants (h : m.Intact d) {receiver arg : Value} (hr : m.memory.Live receiver)
    (ha : m.memory.Live arg) {f : Binary64 → Binary64 → Value}
    (hf : ∀ a b, m.memory.Live (f a b)) :
    Grants d (Effect.Ready d m) (floatEffect m f receiver arg) := by
  refine Grants.bind (floatOperands_grants h hr ha) ?_
  intro operands _
  cases operands with
  | none => trivial
  | some ab => exact hf ab.1 ab.2

theorem place_grants (what : Indexed) (index : Int) (length : Nat) :
    Grants d (fun _ => True) (place what index length) := by
  unfold place
  split_ifs
  · trivial
  · exact id

theorem live_of_ofInt? {mem : Memory} {n : Int} {v : Value} (h : Value.ofInt? n = some v) :
    mem.Live v := by
  obtain ⟨i, -, rfl⟩ := Option.map_eq_some_iff.mp h
  trivial

theorem whole_grants (n : Nat) : Grants d (Effect.Ready d m) (whole n) := by
  unfold whole Value.ofInt
  cases hn : Value.ofInt? n with
  | none => exact id
  | some v => exact live_of_ofInt? hn

theorem integerResult_grants (op : Arithmetic) (a b : Int) :
    Grants d (Effect.Ready d m) (integerResult op a b) := by
  unfold integerResult
  cases hn : Value.ofInt? (op.onInt a b) with
  | none => exact id
  | some v => exact live_of_ofInt? hn

theorem isClass_stamp {v : Value} (h : m.isClass v = true) :
    ∃ s, m.memory.stamp? v = some s ∧ s.IsClass := by
  unfold Machine.isClass at h
  split at h
  case h_1 c hc => exact ⟨_, Memory.stamp?_of_body? _ hc, rfl⟩
  case h_2 => exact absurd h Bool.false_ne_true

theorem effect_grants (hd : d ≠ .booting) (h : m.Intact d) (p : Primitive) {receiver : Value}
    {args : List Value} (hr : m.memory.Live receiver) (ha : ∀ v ∈ args, m.memory.Live v) :
    Grants d (Effect.Ready d m) (p.effect m receiver args) := by
  unfold effect
  split
  case h_1 op arg =>
    refine Grants.bind (integerOperands_grants h hr (ha arg (by simp))) ?_
    rintro (_ | ⟨a, b | b⟩) _
    · trivial
    · exact integerResult_grants op a b
    · trivial
  case h_2 op arg =>
    refine Grants.bind (integerOperands_grants h hr (ha arg (by simp))) ?_
    rintro (_ | ⟨a, b | b⟩) _ <;> trivial
  case h_3 op arg => exact floatEffect_grants h hr (ha arg (by simp)) fun _ _ => trivial
  case h_4 arg => exact floatEffect_grants h hr (ha arg (by simp)) fun _ _ => trivial
  case h_5 op arg => exact floatEffect_grants h hr (ha arg (by simp)) fun _ _ => trivial
  case h_6 =>
    refine Grants.bind (Machine.classOf_grants h hr) ?_
    exact fun c hc => hc.1
  case h_7 => exact Made.block _ hd (by simp) fun id hid => .active hid
  case h_8 =>
    split
    · exact fun v hv => absurd hv (Array.not_mem_empty v)
    · trivial
  case h_9 arg =>
    split
    · exact fun v hv => ha v (by simpa using hv)
    · trivial
  case h_10 =>
    split
    · exact whole_grants _
    · trivial
  case h_11 arg =>
    split
    · exact Made.string _ hd
    · trivial
  case h_12 index =>
    split
    case h_1 i elements hb =>
      refine Grants.bind (place_grants _ _ _) ?_
      intro k _
      cases hk : elements[k]? with
      | none => trivial
      | some v =>
        obtain ⟨inUse, h⟩ := h
        exact h.live_of_edge hb (Array.mem_toList_iff.mpr (Array.mem_of_getElem? hk))
    case h_2 => trivial
  case h_13 index v =>
    split
    · refine Grants.bind (place_grants _ _ _) ?_
      exact fun _ _ => ha v (by simp)
    · trivial
  case h_14 =>
    split
    · exact whole_grants _
    · trivial
  case h_15 index =>
    split
    · refine Grants.bind (place_grants _ _ _) ?_
      exact fun _ _ => trivial
    · trivial
  case h_16 index v =>
    split
    · refine Grants.bind (place_grants _ _ _) ?_
      intro _ _
      split_ifs
      · trivial
      · exact id
    · trivial
  case h_17 =>
    split
    · exact whole_grants _
    · trivial
  case h_18 =>
    split_ifs with hclass
    · exact Made.blank receiver 0 hd hr fun _ => isClass_stamp hclass
    · trivial
  case h_19 size =>
    split
    · split_ifs with hclass
      · exact Made.blank receiver _ hd hr fun _ => isClass_stamp hclass.2
      · trivial
    · trivial
  case h_20 => trivial

end Primitive

theorem Memory.live_of_objects {mem mem' : Memory} (h : mem'.objects = mem.objects) {v : Value}
    (hv : mem.Live v) : mem'.Live v := by
  cases v with
  | pointer i =>
    rw [Live, h]
    exact hv
  | _ => trivial

/-- The values of a context in use are live. -/
theorem Machine.Intact.live_of_context (h : m.Intact d) {id : ContextId} (hid : m.InUse id)
    {c : Context} (hc : m.memory.contexts[id]? = some c) {v : Value} (hv : v ∈ c.edges) :
    m.memory.Live v := by
  obtain ⟨inUse, h⟩ := h
  obtain ⟨c', hc', hintact⟩ := h.memory.contexts id (h.inUse_of hid)
  obtain rfl := Option.some.inj (hc.symm.trans hc')
  exact (m.memory.held_iff_live inUse v).mp (hintact.held _ ((c.value_mem_roots v).mpr hv))

theorem Machine.Intact.live_of_stack (h : m.Intact d) {id : ContextId} (hid : m.active = some id)
    {c : Context} (hc : m.memory.contexts[id]? = some c) {v : Value} (hv : v ∈ c.stack) :
    m.memory.Live v :=
  h.live_of_context (.active hid) hc (by simp [Context.edges, hv])

namespace Action

theorem activeId_yields :
    Yields d m (fun id m' => m' = m ∧ m.active = some id) activeId := by
  refine Yields.bind_get ?_
  split
  case h_1 id hid => exact .pure ⟨rfl, hid⟩
  case h_2 => exact .fail id

theorem active_yields :
    Yields d m
      (fun c m' => m' = m ∧ ∃ id, m.active = some id ∧ m.memory.contexts[id]? = some c)
      active := by
  refine Yields.bind activeId_yields ?_
  rintro id m' - ⟨rfl, hid⟩
  refine Yields.bind_get ?_
  split
  case h_1 c hc => exact .pure ⟨rfl, id, hid, hc⟩
  case h_2 => exact .fail fun h => h

theorem modifyActive_yields {f : Context → Context}
    (hf : ∀ id c, m.active = some id → m.memory.contexts[id]? = some c →
      ∃ stack pc, f c = { c with stack, pc } ∧ ∀ v ∈ stack, m.memory.Live v) :
    Yields d m (fun _ m' => m'.memory.objects = m.memory.objects) (modifyActive f) := by
  cases hid : m.active with
  | none =>
    have hstill : modifyActive f m = .ok () m := by
      change EStateM.Result.ok () _ = _
      simp only [hid]
    exact .of_ok hstill .refl rfl
  | some id =>
    have hchange : modifyActive f m = .ok () { m with memory := m.memory.modifyContext id f } := by
      change EStateM.Result.ok () _ = _
      simp only [hid]
    exact .of_ok hchange (.single (.operate m id f hid fun c hc => hf id c hid hc)) rfl

theorem push_yields (h : m.Intact d) {v : Value} (hv : m.memory.Live v) :
    Yields d m (fun _ m' => m'.memory.objects = m.memory.objects) (push v) := by
  refine modifyActive_yields fun id c hid hc => ⟨c.stack.push v, c.pc, rfl, fun u hu => ?_⟩
  rcases Array.mem_push.mp hu with hu | rfl
  · exact h.live_of_stack hid hc hu
  · exact hv

theorem top_yields (h : m.Intact d) :
    Yields d m (fun v m' => m' = m ∧ m.memory.Live v) top := by
  refine Yields.bind active_yields ?_
  rintro c m' - ⟨rfl, id, hid, hc⟩
  unfold Context.top
  split
  case h_1 v hback => exact .pure ⟨rfl, h.live_of_stack hid hc (Array.mem_of_back? hback)⟩
  case h_2 => exact .fail fun h => h

theorem pop_yields (h : m.Intact d) :
    Yields d m (fun v m' => m'.memory.objects = m.memory.objects ∧ m'.memory.Live v) pop := by
  refine Yields.bind (top_yields h) ?_
  rintro v m' - ⟨rfl, hv⟩
  refine Yields.bind (modifyActive_yields fun id c hid hc => ?_) ?_
  · exact ⟨c.stack.pop, c.pc, rfl, fun u hu => h.live_of_stack hid hc (mem_of_mem_pop hu)⟩
  · intro _ m₁ _ hobjects
    exact .pure ⟨hobjects, Memory.live_of_objects hobjects hv⟩

theorem popMany_grants (c : Context) (count : Nat) :
    Grants d (fun r => ∀ v ∈ r.1, v ∈ c.stack) (c.popMany count) := by
  unfold Context.popMany
  dsimp only
  split_ifs
  · exact id
  · exact fun v hv => mem_of_mem_extract hv

theorem popMany_yields (h : m.Intact d) (count : Nat) :
    Yields d m (fun vs m' => m'.memory.objects = m.memory.objects ∧ ∀ v ∈ vs, m'.memory.Live v)
      (popMany count) := by
  refine Yields.bind active_yields ?_
  rintro c m' - ⟨rfl, id, hid, hc⟩
  refine Yields.ofExcept (popMany_grants c count) ?_
  rintro ⟨vs, rest⟩ hvs
  refine Yields.bind (modifyActive_yields fun id c hid hc => ?_) ?_
  · exact ⟨c.stack.take (c.stack.size - count), c.pc, rfl,
      fun u hu => h.live_of_stack hid hc (mem_of_mem_extract hu)⟩
  · intro _ m₁ _ hobjects
    refine .pure ⟨hobjects, fun v hv => Memory.live_of_objects hobjects ?_⟩
    exact h.live_of_stack hid hc (hvs v hv)

end Action

theorem enter_yields {method receiver : Value} {args : Array Value} {outer : Option ContextId}
    (count : Nat) (hmethod : ∃ s, m.memory.stamp? method = some s ∧ s.IsCode)
    (hreceiver : m.memory.Live receiver) (hargs : ∀ v ∈ args, m.memory.Live v)
    (houter : ∀ id, outer = some id → m.InUse id) :
    Yields d m (fun _ _ => True) (enter method receiver args count outer) := by
  refine Yields.bind_get ?_
  split_ifs with hdepth
  · exact .bind_raise _
  · exact .move (.enter m method receiver args count outer (Nat.not_le.mp hdepth) hmethod
      hreceiver hargs houter) trivial

theorem enterMethod_yields {method receiver : Value} {args : Array Value}
    (hreceiver : m.memory.Live receiver) (hargs : ∀ v ∈ args, m.memory.Live v) :
    Yields d m (fun _ _ => True) (enterMethod method receiver args) := by
  refine Yields.bind_get ?_
  split
  case h_1 c hc =>
    exact enter_yields _ ⟨_, Memory.stamp?_of_body? _ hc, .inl rfl⟩ hreceiver hargs (by simp)
  case h_2 => exact .raise _

theorem enterBlock_yields {block : Value} {args : Array Value}
    (hargs : ∀ v ∈ args, m.memory.Live v) :
    Yields d m (fun _ _ => True) (enterBlock block args) := by
  refine Yields.bind_get ?_
  split
  case h_1 b hb =>
    refine enter_yields _ ⟨_, Memory.stamp?_of_body? _ hb, .inr rfl⟩ (Memory.live_of_body? hb)
      hargs fun id hid => ?_
    obtain ⟨o, ho, hbody⟩ := Option.map_eq_some_iff.mp hb
    cases block with
    | pointer i => exact .block ho (by rw [hbody]; exact hid)
    | _ => exact absurd ho (by simp [Memory.object?])
  case h_2 => exact .raise _

/-- An answer is live, and a primitive that declines has changed nothing. -/
def Reply.Sound (m m' : Machine) : Reply → Prop
  | .declined => m' = m
  | .answered v => m'.memory.Live v
  | .entered => True

/-- One element of an object is replaced, by a live value. -/
theorem write_yields {target : Value} {f : Body → Body}
    (hf : ∀ b, Body.Writes m.memory.Live b (f b)) :
    Yields d m (fun _ m' => ∀ v, m.memory.Live v → m'.memory.Live v)
      (modify fun m => { m with memory := m.memory.modifyBody target f }) := by
  refine .move (.write m target f fun b _ => hf b) fun v hv => ?_
  exact (Memory.live_congr (m.memory.stamp?_modifyBody fun b _ => (hf b).stamp_eq) v).mpr hv

theorem perform_yields (h : m.Intact d) {e : Effect} (he : e.Ready d m) :
    Yields d m (fun r m' => r.Sound m m') (perform e) := by
  cases e with
  | decline => exact .pure rfl
  | answer v => exact .pure he
  | putElement target place v =>
    refine Yields.bind (write_yields fun b => ?_) fun _ _ _ hlive => .pure (hlive v he)
    cases b with
    | array elements => exact .element elements place v he
    | _ => exact .keep _
  | putByte target place byte v =>
    refine Yields.bind (write_yields fun b => ?_) fun _ _ _ hlive => .pure (hlive v he)
    cases b with
    | bytes bs => exact .byte bs place byte
    | _ => exact .keep _
  | create o =>
    refine Yields.bind (allocate_yields h he) ?_
    rintro v m' - ⟨f, hnew⟩
    exact .pure hnew.live
  | call block args => exact Yields.bind (enterBlock_yields he) fun _ _ _ _ => .pure trivial

theorem tryPrimitive_yields (hd : d ≠ .booting) (h : m.Intact d) {index : Nat}
    (hindex : d = .strict → (Primitive.row? index).isSome) {receiver : Value} {args : Array Value}
    (hr : m.memory.Live receiver) (ha : ∀ v ∈ args, m.memory.Live v) :
    Yields d m (fun r m' => r.Sound m m') (tryPrimitive index receiver args) := by
  unfold tryPrimitive
  cases hrow : Primitive.row? index with
  | none => exact .fail fun hs => absurd (hindex hs) (by simp [hrow])
  | some row =>
    refine Yields.bind_get (Yields.ofExcept (row.primitive.effect_grants hd h hr
      fun v hv => ha v (Array.mem_toList_iff.mp hv)) ?_)
    exact fun e he => perform_yields h he

theorem Machine.resolve_grants (h : m.Intact d) {receiver : Value} (hr : m.memory.Live receiver)
    (selector : String) :
    Grants d
      (fun r => ∀ method ∈ r.2, m.memory.Live method ∧
        (d = .strict → ∃ s, m.memory.stamp? method = some s ∧ s.IsKnownMethod))
      (m.resolve receiver selector) := by
  refine Grants.bind (classOf_grants h hr) fun c _ => ?_
  refine Grants.bind (lookupFrom_grants h selector _ c) fun r hr => ?_
  exact hr

theorem Machine.entry_grants (selector : String) {v : Value}
    (hv : d = .strict → ∃ s, m.memory.stamp? v = some s ∧ s.IsKnownMethod) :
    Grants d
      (fun c => m.memory.body? v = some (.method c) ∧
        ∀ index ∈ c.primitive, d = .strict → (Primitive.row? index).isSome)
      (m.entry selector v) := by
  refine Grants.bind (body_grants hv) ?_
  rintro b ⟨hb, hknown⟩
  cases b with
  | method c => exact ⟨hb, fun index hi hd => (hknown hd).2 index hi⟩
  | _ => exact fun hd => absurd (hknown hd).1 (by simp [Body.kind])

theorem startSend_yields (hd : d ≠ .booting) (h : m.Intact d) {receiver : Value}
    {args : Array Value} (selector : String) (hr : m.memory.Live receiver)
    (ha : ∀ v ∈ args, m.memory.Live v) :
    Yields d m (fun r m' => ∀ v ∈ r, m'.memory.Live v) (startSend receiver selector args) := by
  refine Yields.bind_get (Yields.ofExcept (Machine.resolve_grants h hr selector) ?_)
  rintro ⟨classRef, found⟩ hfound
  refine Yields.bind_get ?_
  cases found with
  | none => exact .raise _
  | some method =>
    obtain ⟨-, hknown⟩ := hfound method rfl
    have hrecord := Move.record (d := d) m (.sent (m.className classRef) selector args.size)
    refine Yields.bind_move hrecord (Yields.bind_get ?_)
    refine Yields.ofExcept (Machine.entry_grants selector hknown) ?_
    rintro c ⟨hc, hprimitive⟩
    have hcode : ∃ s, m.memory.stamp? method = some s ∧ s.IsCode :=
      ⟨_, Memory.stamp?_of_body? _ hc, .inl rfl⟩
    split
    case h_1 =>
      refine Yields.bind (enter_yields _ hcode hr ha (by simp)) ?_
      exact fun _ _ _ _ => .pure (by simp)
    case h_2 index hi =>
      refine Yields.bind (tryPrimitive_yields hd (hrecord.intact h) (hprimitive index hi) hr ha) ?_
      intro reply m' _ hreply
      cases reply with
      | answered v =>
        refine .pure ?_
        rintro u ⟨⟩
        exact hreply
      | entered => exact .pure (by simp)
      | declined =>
        obtain rfl : m' = _ := hreply
        refine Yields.bind_move (.record _ _) ?_
        refine Yields.bind (enter_yields _ hcode hr ha (by simp)) ?_
        exact fun _ _ _ _ => .pure (by simp)

theorem Machine.Intact.live_of_slots (h : m.Intact d) {receiver v : Value}
    (hv : v ∈ m.memory.slots receiver) : m.memory.Live v := by
  obtain ⟨inUse, h⟩ := h
  unfold Memory.slots at hv
  split at hv
  case h_1 values hb => exact h.live_of_edge hb (Array.mem_toList_iff.mpr hv)
  case h_2 => exact absurd hv (Array.not_mem_empty v)

/-- Looking for a temporary stays within the contexts in use. -/
theorem Machine.InUse.home {index fuel : Nat} {id home : ContextId} (hid : m.InUse id)
    (hhome : m.memory.homeFrom index fuel id = some home) : m.InUse home := by
  induction fuel generalizing id with
  | zero => exact absurd hhome (by simp [Memory.homeFrom])
  | succ fuel ih =>
    unfold Memory.homeFrom at hhome
    split at hhome
    case h_1 => exact absurd hhome (by simp)
    case h_2 c hc =>
      split_ifs at hhome
      · exact Option.some.inj hhome ▸ hid
      · split at hhome
        case h_1 => exact absurd hhome (by simp)
        case h_2 outer houter => exact ih (.outer hid hc houter) hhome

theorem Machine.Intact.live_of_temporary (h : m.Intact d) {id : ContextId} (hid : m.InUse id)
    {index : Nat} {v : Value} (hv : m.memory.temporary? id index = some v) :
    m.memory.Live v := by
  simp only [Memory.temporary?, Option.bind_eq_bind, Option.bind_eq_some_iff] at hv
  obtain ⟨home, hhome, c, hc, hv⟩ := hv
  refine h.live_of_context (hid.home hhome) hc ?_
  simp [Context.edges, Array.mem_of_getElem? hv]

theorem literal_yields {literals : Array Value} (hl : ∀ v ∈ literals, m.memory.Live v)
    (index : Nat) :
    Yields d m (fun v m' => m' = m ∧ m.memory.Live v) (literal literals index) := by
  unfold literal
  split
  case h_1 v hv => exact .pure ⟨rfl, hl v (Array.mem_of_getElem? hv)⟩
  case h_2 => exact .raise _

theorem jumpTo_yields (h : m.Intact d) (target : Int) (length : Nat) :
    Yields d m (fun _ _ => True) (jumpTo target length) := by
  unfold jumpTo
  split_ifs
  · exact .bind_raise _
  · refine (modifyActive_yields fun id c hid hc => ?_).mono fun _ _ _ => trivial
    exact ⟨c.stack, target.toNat, rfl, fun v hv => h.live_of_stack hid hc hv⟩

section

variable (h : m.Intact d) (code : Code) {literals : Array Value} (next : Nat)

include h

theorem storeInstanceVariable_yields (index : UInt32) :
    Yields d m (fun _ _ => True) (execute code literals next (.storeInstanceVariable index)) := by
  refine Yields.bind active_yields ?_
  rintro c _ - ⟨rfl, -⟩
  refine Yields.bind (top_yields h) ?_
  rintro v _ - ⟨rfl, hv⟩
  refine Yields.bind_get ?_
  dsimp only
  split_ifs
  · exact .bind_raise _
  · refine (write_yields fun b => ?_).mono fun _ _ _ => trivial
    cases b with
    | slots values => exact .slot values _ v hv
    | _ => exact .keep _

theorem storeTemporary_yields (index : UInt32) :
    Yields d m (fun _ _ => True) (execute code literals next (.storeTemporary index)) := by
  refine Yields.bind (top_yields h) ?_
  rintro v _ - ⟨rfl, hv⟩
  refine Yields.bind_get (Yields.bind activeId_yields ?_)
  rintro id _ - ⟨rfl, -⟩
  split
  case h_1 home _ => exact .move (.temporary _ home _ v hv) trivial
  case h_2 => exact .raise _

theorem sendInstruction_yields (hd : d ≠ .booting) (hl : ∀ v ∈ literals, m.memory.Live v)
    (index argc : UInt32) :
    Yields d m (fun _ _ => True) (execute code literals next (.send index argc)) := by
  refine Yields.bind (literal_yields hl _) ?_
  rintro selector _ - ⟨rfl, -⟩
  refine Yields.bind_get ?_
  split
  case h_1 => exact .raise _
  case h_2 name _ =>
    refine Yields.bind (popMany_yields h _) ?_
    rintro args m₁ hpath ⟨-, hargs⟩
    have h₁ := hpath.intact h
    refine Yields.bind active_yields ?_
    rintro c _ - ⟨rfl, -⟩
    split_ifs
    · exact .bind_raise _
    · refine Yields.bind (pop_yields h₁) ?_
      rintro receiver m₂ hpath ⟨hobjects, hreceiver⟩
      have h₂ := hpath.intact h₁
      refine Yields.bind (startSend_yields hd h₂ name hreceiver
        fun v hv => Memory.live_of_objects hobjects (hargs v hv)) ?_
      intro answer m₃ hpath hanswer
      cases answer with
      | some v => exact (push_yields (hpath.intact h₂) (hanswer v rfl)).mono fun _ _ _ => trivial
      | none => exact .pure trivial

theorem jump_yields (kind : JumpKind) (offset : Int32) :
    Yields d m (fun _ _ => True) (execute code literals next (.jump kind offset)) := by
  cases kind with
  | always => exact jumpTo_yields h _ _
  | ifTrue =>
    refine Yields.bind (pop_yields h) ?_
    intro v m₁ hpath _
    split_ifs
    · exact jumpTo_yields (hpath.intact h) _ _
    · exact .pure trivial
  | ifFalse =>
    refine Yields.bind (pop_yields h) ?_
    intro v m₁ hpath _
    split_ifs
    · exact jumpTo_yields (hpath.intact h) _ _
    · exact .pure trivial

/-- The new block keeps the active context in use. -/
theorem createBlock_yields (hd : d ≠ .booting) (hl : ∀ v ∈ literals, m.memory.Live v)
    (body : Code) (count temporaries : UInt32) :
    Yields d m (fun _ _ => True)
      (execute code literals next (.createBlock body count temporaries)) := by
  dsimp only [execute]
  split_ifs
  · exact .bind_raise _
  · refine Yields.bind activeId_yields ?_
    rintro id _ - ⟨rfl, hid⟩
    refine Yields.bind (Yields.bind_get (allocate_yields h (.block _ hd ?_ ?_))) ?_
    · exact fun v hv => hl v (mem_of_mem_extract hv)
    · rintro id' ⟨⟩
      exact .active hid
    · rintro v m₁ hpath ⟨f, hnew⟩
      exact (push_yields (hpath.intact h) hnew.live).mono fun _ _ _ => trivial

theorem execute_yields (hd : d ≠ .booting) (hl : ∀ v ∈ literals, m.memory.Live v)
    (i : Instruction) : Yields d m (fun _ _ => True) (execute code literals next i) := by
  have hpush : ∀ {v}, m.memory.Live v → Yields d m (fun _ _ => True) (push v) :=
    fun hv => (push_yields h hv).mono fun _ _ _ => trivial
  cases i with
  | pushLiteral index =>
    refine Yields.bind (literal_yields hl _) ?_
    rintro v _ - ⟨rfl, hv⟩
    exact hpush hv
  | pushInstanceVariable index =>
    refine Yields.bind_get (Yields.bind active_yields ?_)
    rintro c _ - ⟨rfl, -⟩
    dsimp only
    split
    case h_1 v hv => exact hpush (h.live_of_slots (Array.mem_of_getElem? hv))
    case h_2 => exact .raise _
  | pushTemporary index =>
    refine Yields.bind_get (Yields.bind activeId_yields ?_)
    rintro id _ - ⟨rfl, hid⟩
    split
    case h_1 v hv => exact hpush (h.live_of_temporary (.active hid) hv)
    case h_2 => exact .raise _
  | pushSelf =>
    refine Yields.bind active_yields ?_
    rintro c _ - ⟨rfl, id, hid, hc⟩
    exact hpush (h.live_of_context (.active hid) hc (by simp [Context.edges]))
  | storeInstanceVariable index => exact storeInstanceVariable_yields h code next index
  | storeTemporary index => exact storeTemporary_yields h code next index
  | send index argc => exact sendInstruction_yields h code next hd hl index argc
  | returnTop => exact .pure trivial
  | jump kind offset => exact jump_yields h code next kind offset
  | pop => exact Yields.bind (pop_yields h) fun _ _ _ _ => .pure trivial
  | duplicate =>
    refine Yields.bind (top_yields h) ?_
    rintro v _ - ⟨rfl, hv⟩
    exact hpush hv
  | createBlock body count temporaries =>
    exact createBlock_yields h code next hd hl body count temporaries
  | executeBlock argc =>
    refine Yields.bind (popMany_yields h _) ?_
    rintro args m₁ hpath ⟨-, hargs⟩
    refine Yields.bind (pop_yields (hpath.intact h)) ?_
    rintro block m₂ - ⟨hobjects, -⟩
    exact enterBlock_yields fun v hv => Memory.live_of_objects hobjects (hargs v hv)

end

theorem Machine.leave_objects (m : Machine) : m.leave.memory.objects = m.memory.objects := by
  unfold leave
  split <;> rfl

theorem finish_yields (h : m.Intact d) :
    Yields d m (fun v m' => m'.memory.Live v) finish := by
  refine Yields.bind active_yields ?_
  rintro c _ - ⟨rfl, id, hid, hc⟩
  refine Yields.bind_move (.leave _) (.pure (Memory.live_of_objects (Machine.leave_objects _) ?_))
  unfold Context.result
  cases hback : c.stack.back? with
  | none => trivial
  | some v => exact h.live_of_stack hid hc (Array.mem_of_back? hback)

theorem Machine.program_grants (h : m.Intact d) {v : Value}
    (hcode : d = .strict → ∃ s, m.memory.stamp? v = some s ∧ s.IsCode) :
    Grants d (fun p => ∀ u ∈ p.2, m.memory.Live u) (m.program v) := by
  obtain ⟨inUse, h⟩ := h
  refine Grants.bind (body_grants hcode) ?_
  rintro b ⟨hb, hcode⟩
  cases b with
  | method c =>
    exact fun u hu => h.live_of_edge hb (by simp [Body.edges, show u ∈ c.literals from hu])
  | block b => exact fun u hu => h.live_of_edge hb (Array.mem_toList_iff.mpr hu)
  | _ => exact fun hd => absurd (hcode hd) (by simp [Stamp.IsCode, Body.kind])

theorem Machine.Intact.code_of_active (h : m.Intact d) (hd : d.typed) {id : ContextId}
    (hid : m.active = some id) {c : Context} (hc : m.memory.contexts[id]? = some c) :
    ∃ s, m.memory.stamp? c.method = some s ∧ s.IsCode := by
  obtain ⟨inUse, h⟩ := h
  obtain ⟨c', hc', hintact⟩ := h.active hid
  obtain rfl := Option.some.inj (hc.symm.trans hc')
  exact hintact.code hd

theorem step_yields (hd : d ≠ .booting) (h : m.Intact d) :
    Yields d m (fun r m' => ∀ v ∈ r, m'.memory.Live v) step := by
  have hfinish : ∀ {m}, m.Intact d →
      Yields d m (fun (r : Option Value) m' => ∀ v ∈ r, m'.memory.Live v)
        (finish >>= fun v => pure (some v)) := by
    intro m h
    refine Yields.bind (finish_yields h) ?_
    rintro v m' - hv
    refine .pure ?_
    rintro u ⟨⟩
    exact hv
  refine Yields.bind active_yields ?_
  rintro c m - ⟨rfl, id, hid, hc⟩
  refine Yields.bind_get ?_
  have hcode : d = .strict → ∃ s, m.memory.stamp? c.method = some s ∧ s.IsCode := by
    rintro rfl
    exact h.code_of_active rfl hid hc
  refine Yields.ofExcept (Machine.program_grants h hcode) ?_
  rintro ⟨code, literals⟩ hl
  dsimp only
  split
  case h_1 => exact hfinish h
  case h_2 e _ => exact .raise _
  case h_3 i _ =>
    refine Yields.bind (modifyActive_yields fun id c hid hc => ?_) ?_
    · exact ⟨c.stack, _, rfl, fun v hv => h.live_of_stack hid hc hv⟩
    · intro _ m₁ hpath hobjects
      have h₁ := hpath.intact h
      split_ifs
      · exact hfinish h₁
      · refine Yields.bind (execute_yields h₁ code _ hd
          (fun v hv => Memory.live_of_objects hobjects (hl v hv)) i) ?_
        exact fun _ _ _ _ => .pure (by simp)

theorem run_yields (hd : d ≠ .booting) (h : m.Intact d) (base fuel : Nat) :
    Yields d m (fun v m' => m'.memory.Live v) (run base fuel) := by
  induction fuel generalizing m with
  | zero => exact .of_error rfl .refl id
  | succ fuel ih =>
    refine Yields.bind (step_yields hd h) ?_
    intro r m₁ hpath hr
    have h₁ := hpath.intact h
    cases r with
    | none => exact ih h₁
    | some v =>
      refine Yields.bind_get ?_
      split_ifs
      · exact .pure (hr v rfl)
      · refine Yields.bind (push_yields h₁ (hr v rfl)) ?_
        exact fun _ m₂ hpath _ => ih (hpath.intact h₁)

theorem Machine.unwind_path (m : Machine) (base : Nat) : Path d m (m.unwind base) := by
  have hrepeat : ∀ k, Path d m (Nat.repeat leave k m) := by
    intro k
    induction k with
    | zero => exact .refl
    | succ k ih => exact ih.tail (.leave _)
  exact hrepeat (m.depth - base)

theorem protect_yields {α : Type} {A : α → Machine → Prop} {x : Action α} (hx : Yields d m A x) :
    Yields d m A (protect x) := by
  unfold Yields at hx
  split at hx
  case h_1 a m' hr =>
    refine .of_ok ?_ hx.1 hx.2
    simp only [protect, hr]
  case h_2 e m' hr =>
    cases e with
    | raised e =>
      refine .of_error ?_ (hx.1.trans (m'.unwind_path m.depth)) hx.2
      simp only [protect, hr]
    | _ =>
      refine .of_error ?_ hx.1 hx.2
      simp only [protect, hr]

theorem executeMethod_yields (hd : d ≠ .booting) (h : m.Intact d) (fuel : Nat)
    {method receiver : Value} {args : Array Value} (hr : m.memory.Live receiver)
    (ha : ∀ v ∈ args, m.memory.Live v) :
    Yields d m (fun v m' => m'.memory.Live v) (executeMethod fuel method receiver args) := by
  refine protect_yields (Yields.bind_get (Yields.bind (enterMethod_yields hr ha) ?_))
  exact fun _ m' hpath _ => run_yields hd (hpath.intact h) _ fuel

theorem callBlock_yields (hd : d ≠ .booting) (h : m.Intact d) (fuel : Nat) {block : Value}
    {args : Array Value} (ha : ∀ v ∈ args, m.memory.Live v) :
    Yields d m (fun v m' => m'.memory.Live v) (callBlock fuel block args) := by
  refine protect_yields (Yields.bind_get (Yields.bind (enterBlock_yields ha) ?_))
  exact fun _ m' hpath _ => run_yields hd (hpath.intact h) _ fuel

theorem evaluate_yields (hd : d ≠ .booting) (h : m.Intact d) (fuel : Nat) {b : Draft}
    (hb : b.Live m) : Yields d m (fun v m' => m'.memory.Live v) (evaluate fuel b) := by
  refine Yields.bind (b.build_yields hd h hb) ?_
  exact fun method m' hpath _ => executeMethod_yields hd (hpath.intact h) fuel trivial (by simp)

theorem send_yields (hd : d ≠ .booting) (h : m.Intact d) (fuel : Nat) {receiver : Value}
    {args : Array Value} (selector : String) (hr : m.memory.Live receiver)
    (ha : ∀ v ∈ args, m.memory.Live v) :
    Yields d m (fun v m' => m'.memory.Live v) (send fuel receiver selector args) := by
  refine protect_yields (Yields.bind_get (Yields.bind (startSend_yields hd h selector hr ha) ?_))
  intro answer m' hpath hanswer
  cases answer with
  | some v => exact .pure (hanswer v rfl)
  | none => exact run_yields hd (hpath.intact h) _ fuel

end

end ObjectMachine

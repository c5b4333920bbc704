import ObjectMachine.Proofs.Moves

/-!
# Making objects is a path

Every function that makes objects for the host is a path of moves. `Yields` is
what is shown of each: wherever it stops, a path leads there, what it answers is
described, and under the strict discipline it does not stop at a fault that only
a broken memory explains.
-/

namespace ObjectMachine

/-- A dangling reference is never met, and under the strict discipline nor is
any other fault that only a broken structure explains. -/
def Fault.ExcludedBy (d : Discipline) : Fault → Prop
  | .danglingReference _ => True
  | .notAnObject _ | .classOfDangling _ | .classless _ _ | .corruptMethods _ _
  | .defineOutsideClass _ | .defineInCorrupt _ | .entryNotMethod _ _ | .notCode _
  | .unknownPrimitive _ => d = .strict
  | _ => False

def Stop.ExcludedBy (d : Discipline) : Stop → Prop
  | .fault f => f.ExcludedBy d
  | _ => False

/-- From `m` a path leads to where the action ends, `A` holds of its answer, and
it does not end at a fault that the discipline excludes. -/
def Yields {α : Type} (d : Discipline) (m : Machine) (A : α → Machine → Prop) (x : Action α) :
    Prop :=
  match x m with
  | .ok a m' => Path d m m' ∧ A a m'
  | .error e m' => Path d m m' ∧ ¬e.ExcludedBy d

/-- What only reads the machine answers with `A`, or fails in a way that the discipline does
not exclude. -/
def Grants {α : Type} (d : Discipline) (A : α → Prop) : Except Fault α → Prop
  | .ok a => A a
  | .error f => ¬f.ExcludedBy d

namespace Yields

variable {α β : Type} {d : Discipline} {m m' : Machine}
  {A : α → Machine → Prop} {B : β → Machine → Prop} {x : Action α} {f : α → Action β}

theorem of_ok {a : α} (hx : x m = .ok a m') (hpath : Path d m m') (h : A a m') :
    Yields d m A x := by
  rw [Yields, hx]
  exact ⟨hpath, h⟩

theorem of_error {e : Stop} (hx : x m = .error e m') (hpath : Path d m m')
    (he : ¬e.ExcludedBy d) : Yields d m A x := by
  rw [Yields, hx]
  exact ⟨hpath, he⟩

protected theorem pure {a : α} (h : A a m) : Yields d m A (pure a) := of_ok rfl .refl h

theorem raise (e : RuntimeError) : Yields d m A (Action.raise e) := of_error rfl .refl id

theorem bind_raise (e : RuntimeError) : Yields d m B (Action.raise e >>= f) :=
  of_error rfl .refl id

theorem fail {e : Fault} (he : ¬e.ExcludedBy d) : Yields d m A (Action.fail e) :=
  of_error rfl .refl he

theorem mono {A' : α → Machine → Prop} (hx : Yields d m A x)
    (himp : ∀ a m', A a m' → A' a m') : Yields d m A' x := by
  unfold Yields at hx ⊢
  split
  case h_1 a m₁ hr =>
    rw [hr] at hx
    exact ⟨hx.1, himp a m₁ hx.2⟩
  case h_2 e m₁ hr =>
    rw [hr] at hx
    exact hx

protected theorem bind (hx : Yields d m A x)
    (hf : ∀ a m', Path d m m' → A a m' → Yields d m' B (f a)) : Yields d m B (x >>= f) := by
  unfold Yields at hx
  split at hx
  case h_1 a m₁ hr =>
    have hbind : (x >>= f) m = f a m₁ := by simp only [bind, EStateM.bind, hr]
    have hnext := hf a m₁ hx.1 hx.2
    unfold Yields at hnext ⊢
    rw [hbind]
    split
    · next hr => rw [hr] at hnext; exact ⟨hx.1.trans hnext.1, hnext.2⟩
    · next hr => rw [hr] at hnext; exact ⟨hx.1.trans hnext.1, hnext.2⟩
  case h_2 e m₁ hr =>
    have hbind : (x >>= f) m = .error e m₁ := by simp only [bind, EStateM.bind, hr]
    exact of_error hbind hx.1 hx.2

theorem bind_get {f : Machine → Action β} (h : Yields d m B (f m)) :
    Yields d m B (get >>= f) := h

theorem move {g : Machine → Machine} {C : Unit → Machine → Prop} (hmove : Move d m (g m))
    (h : C () (g m)) : Yields d m C (modify g) := of_ok rfl (.single hmove) h

theorem bind_move {g : Machine → Machine} {f : Unit → Action β} (hmove : Move d m (g m))
    (h : Yields d (g m) B (f ())) : Yields d m B (modify g >>= f) := by
  have hfirst : Yields d m (fun _ m' => m' = g m) (modify g) := move hmove rfl
  refine hfirst.bind ?_
  rintro _ _ - rfl
  exact h

theorem ofExcept {P : α → Prop} {r : Except Fault α} (hr : Grants d P r)
    (hf : ∀ a, P a → Yields d m B (f a)) : Yields d m B (Action.ofExcept r >>= f) := by
  cases r with
  | ok a => exact hf a hr
  | error e => exact of_error rfl .refl hr

end Yields

theorem Grants.bind {α β : Type} {d : Discipline} {P : α → Prop} {Q : β → Prop}
    {x : Except Fault α} {f : α → Except Fault β} (hx : Grants d P x)
    (hf : ∀ a, P a → Grants d Q (f a)) : Grants d Q (x >>= f) := by
  cases x with
  | ok a => exact hf a hx
  | error e => exact hx

def Machine.scratchStamp (m : Machine) (k : Nat) : Option Stamp :=
  (m.scratch[k]?).bind m.memory.stamp?

/-- The first `n` scratch values, the core classes and the globals keep their
stamps, wherever they have moved. -/
structure Keeps (n : Nat) (m m' : Machine) : Prop where
  scratch : ∀ k < n, ∀ s, m.scratchStamp k = some s → m'.scratchStamp k = some s
  named : ∃ g : Value → Value, g .nil = .nil ∧ m'.core = m.core.map g ∧
    m'.globals = m.globals.map g ∧
    ∀ v, v ∈ m.core.values ∨ v ∈ m.globals.values → ∀ s, m.memory.stamp? v = some s →
      m'.memory.stamp? (g v) = some s

namespace Keeps

variable {n : Nat} {m m₁ m₂ : Machine}

theorem still (hcore : m₁.core = m.core) (hglobals : m₁.globals = m.globals)
    (hstamps : m₁.memory.stamp? = m.memory.stamp?)
    (hscratch : ∀ k < n, ∀ v, m.scratch[k]? = some v → m₁.scratch[k]? = some v) :
    Keeps n m m₁ where
  scratch k hk s hs := by
    obtain ⟨v, hv, hs⟩ := Option.bind_eq_some_iff.mp hs
    rw [Machine.scratchStamp, hscratch k hk v hv, hstamps]
    exact hs
  named := by
    refine ⟨id, rfl, hcore, by rw [hglobals, Dictionary.map_id], fun v _ s hs => ?_⟩
    rw [hstamps]
    exact hs

theorem refl (n : Nat) (m : Machine) : Keeps n m m := still rfl rfl rfl fun _ _ _ h => h

theorem trans (h : Keeps n m m₁) (h' : Keeps n m₁ m₂) : Keeps n m m₂ where
  scratch k hk s hs := h'.scratch k hk s (h.scratch k hk s hs)
  named := by
    obtain ⟨g, hnil, hcore, hglobals, hstamps⟩ := h.named
    obtain ⟨g', hnil', hcore', hglobals', hstamps'⟩ := h'.named
    refine ⟨g' ∘ g, by simp [hnil, hnil'], by rw [hcore', hcore]; rfl, ?_, fun v hv s hs => ?_⟩
    · rw [hglobals', hglobals]
      simp [Dictionary.map]
    · refine hstamps' (g v) (hv.imp (fun hv => ?_) fun hv => ?_) s (hstamps v hv s hs)
      · rw [hcore, CoreClasses.values_map]
        exact List.mem_map_of_mem hv
      · rw [hglobals, Dictionary.values_map]
        exact List.mem_map_of_mem hv

theorem rescratch (m : Machine) (values : Array Value) :
    Keeps 0 m { m with scratch := values } :=
  still rfl rfl rfl fun _ hk => absurd hk (Nat.not_lt_zero _)

theorem weaken (h : Keeps n m m₁) : Keeps 0 m m₁ :=
  ⟨fun _ hk => absurd hk (Nat.not_lt_zero _), h.named⟩

end Keeps

namespace Allocated

variable {f : Nat → Nat} {m m' : Machine} {o : HeapObject} {v : Value}

theorem live (h : Allocated f m o v m') : m'.memory.Live v := Memory.live_of_object? h.object

theorem body (h : Allocated f m o v m') :
    m'.memory.body? v = some (o.body.map (Value.rename f)) := by
  rw [Memory.body?, h.object, Option.map_some, HeapObject.mapEdges_body]

theorem stamp (h : Allocated f m o v m') : m'.memory.stamp? v = some o.body.stamp := by
  rw [Memory.stamp?_of_body? _ h.body, Body.stamp_map]

theorem keeps (h : Allocated f m o v m') (n : Nat) : Keeps n m m' where
  scratch k _ s hs := by
    obtain ⟨u, hu, hs⟩ := Option.bind_eq_some_iff.mp hs
    have hmem : .value u ∈ m.roots :=
      Machine.value_mem_roots.mpr (.inr (.inr (.inr (Array.mem_of_getElem? hu))))
    simp [Machine.scratchStamp, h.scratch, hu, h.stamps u (.inr hmem) s hs]
  named := by
    refine ⟨Value.rename f, rfl, h.core, h.globals, fun u hu s hs => ?_⟩
    refine h.stamps u (.inr (Machine.value_mem_roots.mpr ?_)) s hs
    exact hu.imp_right .inl

end Allocated

section

variable {d : Discipline} {m : Machine}

theorem allocate_yields (h : m.Intact d) {o : HeapObject} (ho : Made d m o) :
    Yields d m (fun v m' => ∃ f, Allocated f m o v m') (allocate o) := by
  obtain ⟨inUse, h⟩ := h
  rcases h.allocate (ho.intact h) with herr | ⟨f, v, m', inUse', hok, -, hnew⟩
  · exact .of_error herr (.single (.attempt m)) id
  · exact .of_ok hok (.single (.allocate ho hok)) ⟨f, hnew⟩

theorem Dictionary.mem_values_of_get? {t : Dictionary} {name : String} {v : Value}
    (h : t.get? name = some v) : v ∈ t.values :=
  List.mem_map_of_mem (t.mem_entries_of_get? h)

theorem intern_yields (hd : d ≠ .booting) (h : m.Intact d) (name : String) :
    Yields d m (fun v m' => m'.memory.Live v ∧ ∀ n, Keeps n m m') (intern name) := by
  obtain ⟨inUse, h⟩ := h
  refine Yields.bind_get ?_
  split
  case h_1 v hfound =>
    exact .pure ⟨h.live_of_symbol (Dictionary.mem_values_of_get? hfound), fun n => .refl n m⟩
  case h_2 hfound =>
    refine Yields.bind_get ?_
    rcases h.allocate (h.symbol hd name) with herr | ⟨f, v, m', inUse', hok, -, hnew⟩
    · have hstop : Yields d m (fun _ _ => False) (allocate (.new m.core.symbol (.symbol name))) :=
        .of_error herr (.single (.attempt m)) id
      exact hstop.bind fun _ _ _ h => h.elim
    · refine .of_ok ?_ (.single (.intern hd hfound hok)) ⟨hnew.live, fun n => ?_⟩
      · simp only [bind, EStateM.bind, hok]
        rfl
      · exact ⟨(hnew.keeps n).scratch, (hnew.keeps n).named⟩

theorem newString_yields (hd : d ≠ .booting) (h : m.Intact d) (s : String) :
    Yields d m (fun v m' => m'.memory.Live v ∧ ∀ n, Keeps n m m') (newString s) := by
  refine Yields.bind_get ((allocate_yields h (.string s hd)).mono ?_)
  rintro v m' ⟨f, hnew⟩
  exact ⟨hnew.live, fun n => hnew.keeps n⟩

/-- What the last scratch slot gives is live. -/
theorem Machine.Intact.live_back (h : m.Intact d) : m.memory.Live (m.scratch.back?.getD .nil) := by
  obtain ⟨inUse, h⟩ := h
  cases hback : m.scratch.back? with
  | none => trivial
  | some v => exact h.live_of_scratch (Array.mem_of_back? hback)

theorem Machine.Intact.live_scratch (h : m.Intact d) {v : Value} (hv : v ∈ m.scratch) :
    m.memory.Live v := by
  obtain ⟨inUse, h⟩ := h
  exact h.live_of_scratch hv

theorem newClass_yields (h : m.Intact d) (name : String) {superclass : Value}
    (hsuper : m.memory.Live superclass) (hbears : d.layers → m.memory.Bears superclass)
    (ownVariables : List String) :
    Yields d m
      (fun v m' => (∃ s, m'.memory.stamp? v = some s ∧ s.IsClass) ∧
        ∃ m₀, Keeps 0 m m₀ ∧ m' = { m₀ with globals := m₀.globals.insert name v })
      (newClass name superclass ownVariables) := by
  have hpush : Move d m { m with scratch := m.scratch.push superclass } := by
    refine .scratch m _ fun v hv => ?_
    rcases Array.mem_push.mp hv with hv | rfl
    · exact h.live_scratch hv
    · exact hsuper
  refine Yields.bind_move hpush ?_
  refine Yields.bind_get (Yields.bind (allocate_yields (hpush.intact h) .dictionary) ?_)
  rintro methods m₁ hpath ⟨f, hmethods⟩
  have h₁ := hpath.intact (hpush.intact h)
  have hpop : Move d m₁ { m₁ with scratch := m₁.scratch.pop } :=
    .scratch m₁ _ fun v hv => h₁.live_scratch (mem_of_mem_pop hv)
  have hback : m₁.scratch.back?.getD .nil = superclass.rename f := by
    simp [hmethods.scratch]
  have hlast : Yields d m₁ (fun v m' => m' = { m₁ with scratch := m₁.scratch.pop } ∧
      m₁.memory.Live v ∧ (d.layers → m₁.memory.Bears v)) popScratch := by
    refine .bind_get (.bind_move hpop (.pure ⟨rfl, h₁.live_back, fun hd => ?_⟩))
    rw [hback]
    rcases hbears hd with hnil | ⟨s, hs, hclass⟩
    · exact .inl (by rw [Value.isNil_rename, hnil])
    · refine .inr ⟨s, hmethods.stamps superclass (.inr ?_) s hs, hclass⟩
      exact Machine.value_mem_roots.mpr (.inr (.inr (.inr (Array.mem_push_self ..))))
  refine Yields.bind hlast ?_
  rintro superclass _ - ⟨rfl, hsuper, hbears⟩
  have hown : ∀ u c, m₁.memory.body? u = some (.classInfo c) → c.methods ≠ methods :=
    fun u c hc heq => hmethods.unreferenced u _ hc (by simp [Body.edges, heq])
  refine Yields.bind_get (Yields.bind (allocate_yields (hpop.intact h₁)
    (.classInfo _ hsuper hbears rfl ⟨_, hmethods.stamp, rfl⟩ hown)) ?_)
  rintro v m₂ - ⟨f', hclass⟩
  refine Yields.bind_move (.global m₂ name v hclass.live)
    (.pure ⟨⟨_, hclass.stamp, rfl⟩, m₂, ?_, rfl⟩)
  exact (Keeps.rescratch m _).trans
    ((hmethods.keeps 0).trans ((Keeps.rescratch m₁ _).trans (hclass.keeps 0)))

theorem Machine.body_grants {v : Value} {p : Stamp → Prop}
    (h : d = .strict → ∃ s, m.memory.stamp? v = some s ∧ p s) :
    Grants d (fun b => m.memory.body? v = some b ∧ (d = .strict → p b.stamp)) (m.body v) := by
  unfold Machine.body
  cases hb : m.memory.body? v with
  | some b =>
    refine ⟨rfl, fun hd => ?_⟩
    obtain ⟨s, hs, hp⟩ := h hd
    rw [Memory.stamp?_of_body? _ hb] at hs
    exact Option.some.inj hs ▸ hp
  | none =>
    intro hd
    obtain ⟨s, hs, -⟩ := h hd
    simp [Memory.stamp?, hb] at hs

theorem Machine.IntactFor.wellTyped {inUse : ContextId → Prop} (h : m.IntactFor d inUse)
    (hd : d.typed) {v : Value} {b : Body} (hb : m.memory.body? v = some b) :
    b.WellTyped (m.memory.view inUse) := by
  obtain ⟨o, ho, rfl⟩ := Option.map_eq_some_iff.mp hb
  cases v with
  | pointer i => exact (h.memory.objects i o ho).typed.body hd
  | _ => exact absurd ho (by simp [Memory.object?])

theorem Machine.Intact.methods_dictionary (h : m.Intact .strict) {v : Value} {c : ClassInfo}
    (hb : m.memory.body? v = some (.classInfo c)) :
    ∃ s, m.memory.stamp? c.methods = some s ∧ s.IsDictionary := by
  obtain ⟨inUse, h⟩ := h
  exact h.wellTyped rfl hb

theorem defineMethod_yields (h : m.Intact d) {classRef method : Value} (selector : String)
    (hmethod : m.memory.Live method)
    (hclass : d = .strict → ∃ s, m.memory.stamp? classRef = some s ∧ s.IsClass)
    (hknown : d.typed → ∃ s, m.memory.stamp? method = some s ∧ s.IsKnownMethod) :
    Yields d m (fun _ m' => m'.memory.stamp? = m.memory.stamp? ∧ Keeps 0 m m')
      (defineMethod classRef selector method) := by
  refine Yields.bind_get (Yields.ofExcept (Machine.body_grants hclass) ?_)
  rintro b ⟨hb, hclass⟩
  cases b with
  | classInfo c =>
    have hdictionary : d = .strict → ∃ s, m.memory.stamp? c.methods = some s ∧ s.IsDictionary := by
      rintro rfl
      exact h.methods_dictionary hb
    refine Yields.ofExcept (Machine.body_grants hdictionary) ?_
    rintro b ⟨hb', hdictionary⟩
    cases b with
    | dictionary entries =>
      have hstamps := m.memory.stamp?_modifyBody (v := c.methods)
        (g := fun _ => .dictionary (entries.insert selector method)) fun b hb => by
          rw [hb'] at hb
          exact Option.some.inj hb ▸ rfl
      exact .move (.define m c.methods entries selector method hb' hmethod hknown)
        ⟨hstamps, .still rfl rfl hstamps fun _ _ _ h => h⟩
    | _ => exact .fail fun hd => absurd (hdictionary hd) (by simp [Stamp.IsDictionary, Body.kind])
  | _ => exact .fail fun hd => absurd (hclass hd) (by simp [Stamp.IsClass, Body.kind])

/-- A scratch slot outside the first `n` may be overwritten. -/
theorem Keeps.set {n place : Nat} (hplace : n ≤ place) (v : Value) :
    Keeps n m { m with scratch := m.scratch.set! place v } := by
  refine .still rfl rfl rfl fun k hk u hu => ?_
  have hne : place ≠ k := by omega
  simpa [Array.getElem?_setIfInBounds, hne] using hu

theorem Move.set_scratch (h : m.Intact d) (place : Nat) {v : Value} (hv : m.memory.Live v) :
    Move d m { m with scratch := m.scratch.set! place v } := by
  refine .scratch m _ fun u hu => ?_
  rcases mem_of_mem_set! hu with rfl | hu
  · exact hv
  · exact h.live_scratch hu

/-- Filling the slots from `place` on keeps those before it. -/
theorem Draft.fill_yields (hd : d ≠ .booting) (literals : List Literal) {n place : Nat}
    (hplace : n ≤ place) (h : m.Intact d) :
    Yields d m (fun _ m' => Keeps n m m') (fill literals place) := by
  induction literals generalizing place m with
  | nil => exact .pure (.refl n m)
  | cons literal rest ih =>
    -- a slot that has been filled leaves the rest to fill
    have hstore : ∀ {x : Action Value},
        Yields d m (fun v m' => m'.memory.Live v ∧ ∀ n, Keeps n m m') x →
        Yields d m (fun _ m' => Keeps n m m')
          (x >>= fun v => (modify fun m => { m with scratch := m.scratch.set! place v }) >>=
            fun _ => fill rest (place + 1)) := by
      intro x hx
      refine Yields.bind hx ?_
      rintro v m₁ hpath ⟨hlive, hkeep⟩
      have h₁ := hpath.intact h
      have hset := Move.set_scratch h₁ place hlive
      refine Yields.bind_move hset ((ih (Nat.le_succ_of_le hplace) (hset.intact h₁)).mono ?_)
      exact fun _ m' hrest => (hkeep n).trans ((Keeps.set hplace v).trans hrest)
    cases literal with
    | value v => exact ih (Nat.le_succ_of_le hplace) h
    | symbol name => exact hstore (intern_yields hd h name)
    | string s => exact hstore (newString_yields hd h s)

def Draft.Live (b : Draft) (m : Machine) : Prop :=
  m.memory.Live b.owner ∧ ∀ literal ∈ b.literals, m.memory.Live literal.placeholder

theorem newMethod_yields (hd : d ≠ .booting) (h : m.Intact d) {c : Method}
    (hselector : m.memory.Live c.selector) (howner : m.memory.Live c.owner)
    (hliterals : ∀ v ∈ c.literals, m.memory.Live v) :
    Yields d m
      (fun v m' => Keeps 0 m m' ∧ ∃ c', m'.memory.body? v = some (.method c') ∧
        c'.primitive = c.primitive ∧
        ∀ s, m.memory.stamp? c.owner = some s → m'.memory.stamp? c'.owner = some s)
      (newMethod c) := by
  refine Yields.bind_get ((allocate_yields h (.method c hd hselector howner hliterals)).mono ?_)
  rintro v m' ⟨f, hnew⟩
  refine ⟨hnew.keeps 0, _, hnew.body, rfl, fun s hs => ?_⟩
  exact hnew.stamps c.owner (.inl (by simp [HeapObject.edges, HeapObject.new, Body.edges])) s hs

/-- The class and the values of a draft go on the scratch stack first. -/
theorem Draft.Live.begin {b : Draft} (hb : b.Live m) (h : m.Intact d) :
    Move d m
      { m with scratch := m.scratch.push b.owner ++ b.literals.map Literal.placeholder } := by
  refine .scratch m _ fun v hv => ?_
  rcases Array.mem_append.mp hv with hv | hv
  · rcases Array.mem_push.mp hv with hv | rfl
    · exact h.live_scratch hv
    · exact hb.1
  · obtain ⟨literal, hl, rfl⟩ := Array.mem_map.mp hv
    exact hb.2 literal hl

theorem Draft.build_yields (hd : d ≠ .booting) (b : Draft) (h : m.Intact d) (hb : b.Live m) :
    Yields d m
      (fun v m' => Keeps 0 m m' ∧ ∃ c, m'.memory.body? v = some (.method c) ∧
        c.primitive = b.primitive ∧
        ∀ s, m.memory.stamp? b.owner = some s → m'.memory.stamp? c.owner = some s)
      b.build := by
  have hpush := hb.begin h
  refine Yields.bind_get (Yields.bind_move hpush ?_)
  refine Yields.bind (fill_yields hd b.literals.toList (le_refl _) (hpush.intact h)) ?_
  intro _ m₁ hpath hkeep
  have h₁ := hpath.intact (hpush.intact h)
  refine Yields.bind (intern_yields hd h₁ b.selector) ?_
  rintro selector m₂ hpath ⟨hselector, hkeep'⟩
  have h₂ := hpath.intact h₁
  refine Yields.bind_get ?_
  have howner : ∀ s, m.memory.stamp? b.owner = some s →
      m₂.memory.stamp? (m₂.scratch[m.scratch.size]?.getD .nil) = some s := by
    intro s hs
    have hslot := (hkeep.trans (hkeep' _)).scratch m.scratch.size (Nat.lt_succ_self _) s (by
      simp [Machine.scratchStamp, Array.getElem?_append, hs])
    obtain ⟨u, hu, hs⟩ := Option.bind_eq_some_iff.mp hslot
    rw [hu]
    exact hs
  have hlive : m₂.memory.Live (m₂.scratch[m.scratch.size]?.getD .nil) := by
    cases hu : m₂.scratch[m.scratch.size]? with
    | none => trivial
    | some u => exact h₂.live_scratch (Array.mem_of_getElem? hu)
  refine Yields.bind (newMethod_yields hd h₂ hselector hlive
    fun v hv => h₂.live_scratch (mem_of_mem_extract hv)) ?_
  rintro v m₃ hpath ⟨hkeep₃, c, hc, hprimitive, hstamp⟩
  have h₃ := hpath.intact h₂
  have htake : Move d m₃ { m₃ with scratch := m₃.scratch.take m.scratch.size } :=
    .scratch m₃ _ fun v hv => h₃.live_scratch (mem_of_mem_extract hv)
  refine Yields.bind_move htake <|
    .pure ⟨?_, c, hc, hprimitive, fun s hs => hstamp s (howner s hs)⟩
  exact (Keeps.rescratch m _).trans
    ((hkeep.trans (hkeep' _)).weaken.trans (hkeep₃.trans (.rescratch m₃ _)))

theorem Memory.live_of_body? {mem : Memory} {v : Value} {b : Body} (h : mem.body? v = some b) :
    mem.Live v := by
  obtain ⟨o, ho, -⟩ := Option.map_eq_some_iff.mp h
  exact live_of_object? ho

theorem Memory.live_congr {mem mem' : Memory} (h : mem'.stamp? = mem.stamp?) (v : Value) :
    mem'.Live v ↔ mem.Live v := by
  rw [← held_iff_live mem' (fun _ => False), ← held_iff_live mem (fun _ => False)]
  simp [view, View.Held, h]

def Draft.Installable (d : Discipline) (b : Draft) (m : Machine) : Prop :=
  d = .strict → (∃ s, m.memory.stamp? b.owner = some s ∧ s.IsClass) ∧
    ∀ index ∈ b.primitive, (Primitive.row? index).isSome

theorem Draft.install_yields (hd : d ≠ .booting) (b : Draft) (h : m.Intact d) (hb : b.Live m)
    (hinstall : b.Installable d m) :
    Yields d m (fun v m' => m'.memory.Live v ∧ Keeps 0 m m') b.install := by
  refine Yields.bind (build_yields hd b h hb) ?_
  rintro v m₁ hpath ⟨hkeep, c, hc, hprimitive, howner⟩
  have h₁ := hpath.intact h
  refine Yields.bind_get ?_
  have hbody : Grants d (fun b => b = .method c) (m₁.body v) := by
    rw [Machine.body, hc]
    rfl
  refine Yields.ofExcept hbody ?_
  rintro _ rfl
  have hclass : d = .strict → ∃ s, m₁.memory.stamp? c.owner = some s ∧ s.IsClass := by
    intro hs
    obtain ⟨⟨s, hs, hp⟩, -⟩ := hinstall hs
    exact ⟨s, howner s hs, hp⟩
  have hknown : d.typed → ∃ s, m₁.memory.stamp? v = some s ∧ s.IsKnownMethod := by
    intro htyped
    have hstrict : d = .strict := by cases d <;> simp_all
    refine ⟨_, Memory.stamp?_of_body? _ hc, rfl, fun index hi => ?_⟩
    exact (hinstall hstrict).2 index (hprimitive ▸ hi)
  refine Yields.bind (defineMethod_yields h₁ b.selector (Memory.live_of_body? hc) hclass hknown) ?_
  rintro _ m₂ - ⟨hstamps, hkeep'⟩
  refine Yields.bind_move (.record m₂ _) (.pure ⟨?_, ?_⟩)
  · exact (Memory.live_congr hstamps v).mpr (Memory.live_of_body? hc)
  · exact hkeep.trans ⟨hkeep'.scratch, hkeep'.named⟩

end

end ObjectMachine

import ObjectMachine.Bootstrap
import ObjectMachine.Proofs.ConstructionPaths

/-!
# A fresh machine is intact

The first classes are made before there is a class of dictionaries, so their
method dictionaries have no class until the last class exists. Up to then only
classes and dictionaries are made; afterwards every dictionary is given its
class, and from there on the strict discipline holds. The core methods are
already installed under it.
-/

namespace ObjectMachine

theorem Action.ok_of_bind {α β : Type} {x : Action α} {f : α → Action β} {b : β}
    {m m₂ : Machine} (h : (x >>= f) m = .ok b m₂) :
    ∃ a m₁, x m = .ok a m₁ ∧ f a m₁ = .ok b m₂ := by
  cases hr : x m with
  | ok a m₁ =>
    simp only [bind, EStateM.bind, hr] at h
    exact ⟨a, m₁, rfl, h⟩
  | error e m₁ =>
    simp only [bind, EStateM.bind, hr] at h
    exact absurd h (by simp)

/-- An action that succeeds from a machine with `P` leaves one with `Q`. -/
def Leads {α : Type} (P : Machine → Prop) (x : Action α) (Q : Machine → Prop) : Prop :=
  ∀ m a m', P m → x m = .ok a m' → Q m'

namespace Leads

variable {α β : Type} {P Q R : Machine → Prop} {x : Action α} {f : α → Action β}

protected theorem bind (hx : Leads P x Q) (hf : ∀ a, Leads Q (f a) R) : Leads P (x >>= f) R := by
  intro m b m₂ hP hok
  obtain ⟨a, m₁, hfirst, hrest⟩ := Action.ok_of_bind hok
  exact hf a m₁ b m₂ (hx m a m₁ hP hfirst) hrest

theorem forM {γ : Type} {l : List γ} {g : γ → Action Unit} (hg : ∀ e ∈ l, Leads P (g e) P) :
    Leads P (l.forM g) P := by
  induction l with
  | nil =>
    rintro m a m' hP ⟨⟩
    exact hP
  | cons e rest ih =>
    have hrest := ih fun e' he' => hg e' (List.mem_cons_of_mem _ he')
    exact (hg e (List.mem_cons_self ..)).bind fun _ => hrest

end Leads

theorem Yields.result {α : Type} {d : Discipline} {m m' : Machine} {A : α → Machine → Prop}
    {x : Action α} {a : α} (h : Yields d m A x) (hx : x m = .ok a m') : Path d m m' ∧ A a m' := by
  unfold Yields at h
  rwa [hx] at h

/-- The core classes in the order in which they are made. -/
def coreNames : List String :=
  ["Object", "UndefinedObject", "True", "False", "Integer", "Float", "String", "Symbol", "Block",
    "Array", "ByteArray", "Dictionary", "Method"]

def Machine.HasClass (m : Machine) (v : Value) : Prop :=
  ∃ s, m.memory.stamp? v = some s ∧ s.IsClass

/-- The first `n` core classes have been made. -/
structure Booting (n : Nat) (m : Machine) : Prop where
  intact : m.Intact .booting
  core : ∀ v ∈ m.core.values.take n, m.HasClass v
  names : m.globals.names = coreNames.take n
  globals : ∀ v ∈ m.globals.values, m.HasClass v
  pending : ∀ v ∈ m.core.values.drop n, v = .nil

theorem Machine.eq_of_new {settings : Settings} {maxDepth : Nat} {m : Machine}
    (h : Machine.new settings maxDepth = .ok m) :
    m = ⟨⟨settings, settings.initialCapacity, #[], 0, #[]⟩, .none, .empty, .empty, #[], none, 0,
      maxDepth, #[]⟩ := by
  unfold Machine.new Memory.new at h
  split at h
  · exact absurd h (by simp [bind, Except.bind])
  · exact (Except.ok.inj h).symm

theorem Machine.new_booting {settings : Settings} {maxDepth : Nat} {m : Machine}
    (h : Machine.new settings maxDepth = .ok m) : Booting 0 m := by
  obtain rfl := Machine.eq_of_new h
  have hmemory : Memory.Intact .booting (fun _ => False)
      ⟨settings, settings.initialCapacity, #[], 0, #[]⟩ :=
    ⟨by simp, fun _ hid => hid.elim, by simp [Memory.EpochsPast]⟩
  have hcore : ∀ v ∈ CoreClasses.none.values, v = .nil := by
    simp [CoreClasses.values, CoreClasses.none]
  refine ⟨⟨fun _ => False, hmemory, ?_, fun v hv => .inl (hcore v hv)⟩, by simp, rfl, ?_, hcore⟩
  · intro r hr
    cases r with
    | context id => exact absurd (Machine.context_mem_roots.mp hr) (by simp)
    | value v =>
      rw [Machine.value_mem_roots] at hr
      rcases hr with hr | hr | hr | hr
      · exact hcore v hr ▸ fun hp => absurd hp Bool.false_ne_true
      · exact absurd hr List.not_mem_nil
      · exact absurd hr List.not_mem_nil
      · exact absurd hr (Array.not_mem_empty v)
  · exact fun v hv => absurd hv List.not_mem_nil

theorem Machine.IntactFor.withCore {d : Discipline} {inUse : ContextId → Prop} {m : Machine}
    (h : m.IntactFor d inUse) {core : CoreClasses}
    (hcore : ∀ v ∈ core.values, v ∈ m.core.values ∨ m.HasClass v) :
    IntactFor d inUse { m with core } := by
  have hallowed : ∀ v, m.HasClass v → d.AllowsClass (m.memory.view inUse) v := by
    intro v hv
    cases d with
    | free | layered => trivial
    | booting => exact .inr hv
    | strict => exact hv
  refine ⟨h.memory, ?_, ?_⟩
  · intro r hr
    cases r with
    | context id =>
      rw [context_mem_roots] at hr
      exact h.roots _ (context_mem_roots.mpr hr)
    | value v =>
      rw [value_mem_roots] at hr
      rcases hr with hr | hr
      · rcases hcore v hr with hold | ⟨s, hs, -⟩
        · exact h.roots _ (value_mem_roots.mpr (.inl hold))
        · exact fun _ => by simp [Memory.view, hs]
      · exact h.roots _ (value_mem_roots.mpr (.inr hr))
  · intro v hv
    rcases hcore v hv with hold | hnew
    · exact h.core v hold
    · exact hallowed v hnew

theorem Dictionary.names_insert {t : Dictionary} {name : String} (h : name ∉ t.names) (v : Value) :
    (t.insert name v).names = t.names ++ [name] := by
  obtain ⟨entries⟩ := t
  simp only [names, insert] at h ⊢
  induction entries with
  | nil => rfl
  | cons e rest ih =>
    obtain ⟨other, w⟩ := e
    simp only [List.map_cons, List.mem_cons, not_or] at h
    simp [insertEntry, Ne.symm h.1, ih h.2]

theorem Keeps.hasClass {n : Nat} {m m' : Machine} (h : Keeps n m m') :
    ∃ g : Value → Value, g .nil = .nil ∧ m'.core = m.core.map g ∧ m'.globals = m.globals.map g ∧
      ∀ v, v ∈ m.core.values ∨ v ∈ m.globals.values → m.HasClass v → m'.HasClass (g v) := by
  obtain ⟨g, hnil, hcore, hglobals, hstamps⟩ := h.named
  refine ⟨g, hnil, hcore, hglobals, ?_⟩
  rintro v hv ⟨s, hs, hclass⟩
  exact ⟨s, hstamps v hv s hs, hclass⟩

theorem mem_take_set {α : Type} {l : List α} {n : Nat} {v u : α}
    (h : u ∈ (l.set n v).take (n + 1)) : u = v ∨ u ∈ l.take n := by
  obtain ⟨k, hk⟩ := List.mem_iff_getElem?.mp h
  rw [List.getElem?_take] at hk
  split_ifs at hk with hlt
  by_cases hkn : n = k
  · subst hkn
    rw [List.getElem?_set, if_pos rfl] at hk
    split_ifs at hk
    exact .inl (Option.some.inj hk).symm
  · rw [List.getElem?_set_ne hkn] at hk
    refine .inr (List.mem_iff_getElem?.mpr ⟨k, ?_⟩)
    rw [List.getElem?_take, if_pos (by omega), hk]

/-- A core class can be stood on as soon as it is there. -/
theorem Booting.superclass {n : Nat} {m : Machine} (h : Booting n m) {v : Value}
    (hv : v = .nil ∨ v ∈ m.core.values) : m.memory.Live v ∧ m.memory.Bears v := by
  obtain ⟨inUse, hintact⟩ := h.intact
  rcases hv with rfl | hv
  · exact ⟨trivial, .inl rfl⟩
  · refine ⟨hintact.live_of_core hv, (hintact.core v hv).imp_left ?_⟩
    rintro rfl
    rfl

theorem addCoreClass_leads {n : Nat} {name : String} {superclass : CoreClasses → Value}
    {note : CoreClasses → Value → CoreClasses} (hname : coreNames[n]? = some name)
    (hnew : name ∉ coreNames.take n)
    (hsuper : ∀ c, superclass c = .nil ∨ superclass c ∈ c.values)
    (hnote : ∀ c v, (note c v).values = c.values.set n v) :
    Leads (Booting n) (addCoreClass name superclass note) (Booting (n + 1)) := by
  intro m u m' hb hok
  obtain ⟨hlive, hbears⟩ := hb.superclass (hsuper m.core)
  obtain ⟨v, m₁, hr, hok⟩ := Action.ok_of_bind
    (show (newClass name (superclass m.core) [] >>= fun v =>
      modify fun m => { m with core := note m.core v }) m = .ok u m' from hok)
  obtain ⟨hpath, hclass, m₀, hkeep, rfl⟩ :=
    (newClass_yields hb.intact name hlive (fun _ => hbears) []).result hr
  cases hok
  obtain ⟨g, hnil, hcore, hglobals, hold⟩ := hkeep.hasClass
  have hvalues : (note m₀.core v).values = (m.core.values.map g).set n v := by
    rw [hnote, hcore, CoreClasses.values_map]
  refine ⟨?_, ?_, ?_, ?_, ?_⟩
  · obtain ⟨inUse, h₁⟩ := hpath.intact hb.intact
    refine ⟨inUse, h₁.withCore fun u hu => ?_⟩
    rw [hnote] at hu
    rcases List.mem_or_eq_of_mem_set hu with hu | rfl
    · exact .inl hu
    · exact .inr hclass
  · intro u hu
    rw [hvalues] at hu
    rcases mem_take_set hu with rfl | hu
    · exact hclass
    · rw [← List.map_take] at hu
      obtain ⟨w, hw, rfl⟩ := List.mem_map.mp hu
      exact hold w (.inl (List.mem_of_mem_take hw)) (hb.core w hw)
  · have hnames : m₀.globals.names = coreNames.take n := by
      rw [hglobals, Dictionary.names_map, hb.names]
    have hfresh : name ∉ m₀.globals.names := by
      rw [hnames]
      exact hnew
    change (m₀.globals.insert name v).names = _
    rw [Dictionary.names_insert hfresh, hnames, List.take_add_one, hname]
    rfl
  · intro u hu
    rcases Dictionary.mem_values_insert _ hu with rfl | hu
    · exact hclass
    · rw [hglobals, Dictionary.values_map] at hu
      obtain ⟨w, hw, rfl⟩ := List.mem_map.mp hu
      exact hold w (.inr hw) (hb.globals w hw)
  · intro u hu
    rw [hvalues, List.drop_set_of_lt (Nat.lt_add_one n), ← List.map_drop] at hu
    obtain ⟨w, hw, rfl⟩ := List.mem_map.mp hu
    have hlater : w ∈ m.core.values.drop n := by
      rw [← List.tail_drop] at hw
      exact List.mem_of_mem_tail hw
    rw [hb.pending w hlater, hnil]

/-- What holds after so many core classes, one after the other. -/
theorem addCoreClasses_leads {B : Nat → Machine → Prop}
    (hadd : ∀ {n name superclass note}, n < 13 → coreNames[n]? = some name →
      (∀ c, superclass c = Value.nil ∨ superclass c ∈ c.values) →
      (∀ c v, (note c v).values = c.values.set n v) →
      Leads (B n) (addCoreClass name superclass note) (B (n + 1))) :
    Leads (B 0) addCoreClasses (B 13) := by
  have hobject : ∀ c : CoreClasses, c.object = .nil ∨ c.object ∈ c.values :=
    fun c => .inr (by simp [CoreClasses.values])
  have hstring : ∀ c : CoreClasses, c.string = .nil ∨ c.string ∈ c.values :=
    fun c => .inr (by simp [CoreClasses.values])
  unfold addCoreClasses
  refine (hadd (n := 0) (by simp) rfl (fun _ => .inl rfl) fun _ _ => rfl).bind fun _ => ?_
  refine (hadd (n := 1) (by simp) rfl hobject fun _ _ => rfl).bind fun _ => ?_
  refine (hadd (n := 2) (by simp) rfl hobject fun _ _ => rfl).bind fun _ => ?_
  refine (hadd (n := 3) (by simp) rfl hobject fun _ _ => rfl).bind fun _ => ?_
  refine (hadd (n := 4) (by simp) rfl hobject fun _ _ => rfl).bind fun _ => ?_
  refine (hadd (n := 5) (by simp) rfl hobject fun _ _ => rfl).bind fun _ => ?_
  refine (hadd (n := 6) (by simp) rfl hobject fun _ _ => rfl).bind fun _ => ?_
  refine (hadd (n := 7) (by simp) rfl hstring fun _ _ => rfl).bind fun _ => ?_
  refine (hadd (n := 8) (by simp) rfl hobject fun _ _ => rfl).bind fun _ => ?_
  refine (hadd (n := 9) (by simp) rfl hobject fun _ _ => rfl).bind fun _ => ?_
  refine (hadd (n := 10) (by simp) rfl hobject fun _ _ => rfl).bind fun _ => ?_
  refine (hadd (n := 11) (by simp) rfl hobject fun _ _ => rfl).bind fun _ => ?_
  exact hadd (n := 12) (by simp) rfl hobject fun _ _ => rfl

theorem coreNames_fresh : ∀ n < 13, ∀ name, coreNames[n]? = some name →
    name ∉ coreNames.take n := by
  decide

/-- The core classes are complete and the globals are them. -/
structure Furnished (m : Machine) : Prop where
  intact : m.Intact .strict
  names : m.globals.names = coreNames
  globals : ∀ v ∈ m.globals.values, m.HasClass v

theorem HeapObject.adopt_body (dictionaryClass : Value) (o : HeapObject) :
    (o.adopt dictionaryClass).body = o.body := by
  unfold adopt
  split
  · split_ifs <;> rfl
  · rfl

theorem HeapObject.Intact.adopt {w : View} {o : HeapObject} (h : o.Intact .booting w)
    {dictionaryClass : Value} (hclass : w.Fits Stamp.IsClass dictionaryClass) :
    (o.adopt dictionaryClass).Intact .strict w := by
  obtain ⟨header, body⟩ := o
  have hbody : body.WellTyped w := h.typed.body rfl
  have hheader := h.typed.header
  have hearly := h.typed.early rfl
  cases body with
  | classInfo c =>
    exact ⟨by simp [adopt_body], h.held, fun _ => hbody, fun hk => absurd rfl hk, by simp⟩
  | dictionary t =>
    by_cases hnil : header.classRef.isNil = true
    · have heq : HeapObject.adopt dictionaryClass ⟨header, .dictionary t⟩ =
          ⟨{ header with classRef := dictionaryClass }, .dictionary t⟩ := by
        simp [HeapObject.adopt, hnil]
      rw [heq]
      refine ⟨by simp, ?_, fun _ => hbody, fun _ => hclass, by simp⟩
      intro r hr
      cases r with
      | value v =>
        rcases List.mem_cons.mp ((value_mem_roots _ v).mp hr) with rfl | hv
        · obtain ⟨s, hs, -⟩ := hclass
          exact fun _ => by simp [hs]
        · exact h.held _ ((value_mem_roots _ v).mpr (List.mem_cons_of_mem _ hv))
      | context id => exact absurd ((context_mem_roots _ id).mp hr) (by simp [Body.outer?])
    · have heq : HeapObject.adopt dictionaryClass ⟨header, .dictionary t⟩ =
          ⟨header, .dictionary t⟩ := by
        simp [HeapObject.adopt, hnil]
      rw [heq]
      refine ⟨by simp, h.held, fun _ => hbody, fun hk => ?_, by simp⟩
      rcases hheader hk with hvalue | hfits
      · exact absurd (by rw [hvalue]; rfl) hnil
      · exact hfits
  | _ => exact absurd hearly (by simp [Body.kind])

theorem adoptDictionaries_leads : Leads (Booting 13) adoptDictionaries Furnished := by
  rintro m _ _ hb ⟨⟩
  obtain ⟨inUse, h⟩ := hb.intact
  have hall : ∀ v ∈ m.core.values, m.HasClass v := hb.core
  have hstamps : Memory.stamp?
      { m.memory with objects := m.memory.objects.map fun o => o.adopt m.core.dictionary } =
      m.memory.stamp? := by
    funext v
    cases v with
    | pointer i => simp [Memory.stamp?_pointer, Function.comp_def, HeapObject.adopt_body]
    | _ => rfl
  have hview : Memory.view
      { m.memory with objects := m.memory.objects.map fun o => o.adopt m.core.dictionary } inUse =
      m.memory.view inUse := by rw [Memory.view, hstamps, Memory.view]
  have hclass : ∀ v, m.HasClass v → Machine.HasClass
      { m with memory :=
        { m.memory with
          objects := m.memory.objects.map fun o => o.adopt m.core.dictionary } } v := by
    rintro v ⟨s, hs, hp⟩
    exact ⟨s, by rw [hstamps]; exact hs, hp⟩
  refine ⟨⟨inUse, ⟨?_, ?_, h.memory.epochs⟩, ?_, ?_⟩, hb.names,
    fun v hv => hclass v (hb.globals v hv)⟩
  · intro i o ho
    rw [hview]
    simp only [Array.getElem?_map, Option.map_eq_some_iff] at ho
    obtain ⟨o, ho, rfl⟩ := ho
    exact (h.memory.objects i o ho).adopt (hall _ (by simp [CoreClasses.values]))
  · intro id hid
    obtain ⟨c, hc, hintact⟩ := h.memory.contexts id hid
    rw [hview]
    exact ⟨c, hc, hintact.held, fun _ => hintact.code rfl⟩
  · intro r hr
    rw [hview]
    exact h.roots r hr
  · intro v hv
    rw [hview]
    exact hall v hv

theorem Furnished.keeps {m m' : Machine} (h : Furnished m) (hkeep : Keeps 0 m m')
    (hintact : m'.Intact .strict) : Furnished m' := by
  obtain ⟨g, -, -, hglobals, hold⟩ := hkeep.hasClass
  refine ⟨hintact, by rw [hglobals, Dictionary.names_map, h.names], fun v hv => ?_⟩
  rw [hglobals, Dictionary.values_map] at hv
  obtain ⟨u, hu, rfl⟩ := List.mem_map.mp hv
  exact hold u (.inr hu) (h.globals u hu)

theorem Dictionary.get?_of_mem_names {t : Dictionary} {name : String} (h : name ∈ t.names) :
    ∃ v, t.get? name = some v := by
  cases hv : t.get? name with
  | some v => exact ⟨v, rfl⟩
  | none =>
    obtain ⟨⟨key, v⟩, he, rfl⟩ := List.mem_map.mp h
    simpa using List.lookup_eq_none_iff.mp hv (key, v) he

theorem Furnished.owner {m : Machine} (h : Furnished m) {className : String}
    (hname : className ∈ coreNames) : m.HasClass ((m.globals.get? className).getD .nil) := by
  obtain ⟨v, hv⟩ := Dictionary.get?_of_mem_names (h.names ▸ hname)
  rw [hv]
  exact h.globals v (Dictionary.mem_values_of_get? hv)

/-- A property that installing methods in a furnished machine keeps. -/
def OutlivesInstalls (P : Machine → Prop) : Prop :=
  ∀ (b : Draft) (m m' : Machine) (v : Value), b.install m = .ok v m' → Furnished m → b.Live m →
    b.Installable .strict m → P m → P m'

theorem furnished_outlivesInstalls : OutlivesInstalls Furnished := by
  intro b m m' v hok hm hlive hinstall _
  obtain ⟨hpath, -, hkeep⟩ := (b.install_yields (by simp) hm.intact hlive hinstall).result hok
  exact hm.keeps hkeep (hpath.intact hm.intact)

theorem Machine.HasClass.live {m : Machine} {v : Value} (h : m.HasClass v) : m.memory.Live v := by
  obtain ⟨s, hs, -⟩ := h
  exact (m.memory.held_iff_live (fun _ => False) v).mp fun _ => by simp [Memory.view, hs]

theorem Draft.push_eq (b : Draft) (literal : Literal) :
    (b.push literal).owner = b.owner ∧ (b.push literal).primitive = b.primitive ∧
      ∀ l ∈ (b.push literal).literals, l ∈ b.literals ∨ l = literal := by
  unfold push addLiteral
  split
  · next i d heq =>
    split at heq
    · cases heq
      exact ⟨rfl, rfl, fun l hl => .inl hl⟩
    · cases heq
      exact ⟨rfl, rfl, fun l hl => Array.mem_push.mp hl⟩

section

variable {P : Machine → Prop} (hP : OutlivesInstalls P)

include hP

theorem Draft.install_leads {b : Draft} {m m' : Machine} {v : Value}
    (hok : b.install m = .ok v m') (hm : Furnished m ∧ P m) (hlive : b.Live m)
    (hinstall : b.Installable .strict m) : Furnished m' ∧ P m' :=
  ⟨furnished_outlivesInstalls b m m' v hok hm.1 hlive hinstall hm.1,
    hP b m m' v hok hm.1 hlive hinstall hm.2⟩

theorem installPrimitive_leads {className : String} (selector : String) {primitive : Nat}
    (hname : className ∈ coreNames) (hknown : (Primitive.row? primitive).isSome) :
    Leads (fun m => Furnished m ∧ P m) (installPrimitive className selector primitive)
      fun m => Furnished m ∧ P m := by
  intro m u m' hm hok
  have howner := hm.1.owner hname
  obtain ⟨v, m₁, hinstall, hend⟩ := Action.ok_of_bind
    (show (({ Draft.new ((m.globals.get? className).getD .nil) selector with
      primitive := some primitive } : Draft).install >>= fun _ => pure ()) m = .ok u m' from hok)
  cases hend
  refine Draft.install_leads hP hinstall hm ⟨howner.live, fun _ hl => ?_⟩ fun _ => ⟨howner, ?_⟩
  · exact absurd hl (Array.not_mem_empty _)
  · rintro index ⟨⟩
    exact hknown

theorem installConstant_leads {className : String} (selector : String) (b : Bool)
    (hname : className ∈ coreNames) :
    Leads (fun m => Furnished m ∧ P m) (installConstant className selector (.bool b))
      fun m => Furnished m ∧ P m := by
  intro m u m' hm hok
  have howner := hm.1.owner hname
  obtain ⟨v, m₁, hinstall, hend⟩ := Action.ok_of_bind
    (show ((((Draft.new ((m.globals.get? className).getD .nil) selector).push
      (.value (.bool b))).emit .returnTop).install >>= fun _ => pure ()) m = .ok u m' from hok)
  cases hend
  obtain ⟨hclass, hprimitive, hliterals⟩ :=
    (Draft.new ((m.globals.get? className).getD .nil) selector).push_eq (.value (.bool b))
  refine Draft.install_leads hP hinstall hm ⟨?_, fun l hl => ?_⟩ fun _ => ⟨?_, ?_⟩
  · exact (congrArg m.memory.Live hclass).mpr howner.live
  · rcases hliterals l hl with hl | rfl
    · exact absurd hl (Array.not_mem_empty _)
    · trivial
  · exact (congrArg m.HasClass hclass).mpr howner
  · intro index hi
    rw [Draft.emit, hprimitive] at hi
    exact absurd hi (by simp [Draft.new])

theorem installCoreMethods_leads :
    Leads (fun m => Furnished m ∧ P m) installCoreMethods fun m => Furnished m ∧ P m := by
  have hrows : ∀ e ∈ primitiveMethods, e.1 ∈ coreNames ∧ (Primitive.row? e.2.2).isSome := by
    decide
  refine (Leads.forM fun e he => ?_).bind fun _ => ?_
  · exact installPrimitive_leads hP e.2.1 (hrows e he).1 (hrows e he).2
  · refine (installConstant_leads hP "not" false (by decide)).bind fun _ => ?_
    exact installConstant_leads hP "not" true (by decide)

end

theorem setUp_of_bootstrap {settings : Settings} {maxDepth : Nat} {m : Machine}
    (h : bootstrap settings maxDepth = .ok m) :
    ∃ m₀ u, Machine.new settings maxDepth = .ok m₀ ∧ setUp m₀ = .ok u m := by
  unfold bootstrap at h
  split at h
  case h_1 => exact absurd h (by simp)
  case h_2 m₀ hnew =>
    split at h
    case h_1 u m' hset => exact ⟨m₀, u, hnew, Except.ok.inj h ▸ hset⟩
    case h_2 => exact absurd h (by simp)

/-- What the phases of setting up lead to, from the first class to the last method. -/
theorem bootstrap_leads {B : Nat → Machine → Prop} {P : Machine → Prop}
    (hnew : ∀ {settings maxDepth m}, Machine.new settings maxDepth = .ok m → B 0 m)
    (hadd : ∀ {n name superclass note}, n < 13 → coreNames[n]? = some name →
      (∀ c, superclass c = Value.nil ∨ superclass c ∈ c.values) →
      (∀ c v, (note c v).values = c.values.set n v) →
      Leads (B n) (addCoreClass name superclass note) (B (n + 1)))
    (hadopt : Leads (B 13) adoptDictionaries fun m => Furnished m ∧ P m)
    (hinstall : OutlivesInstalls P)
    (hrecord : ∀ m e, P m → P { m with journal := m.journal.push e })
    {settings : Settings} {maxDepth : Nat} {m : Machine}
    (h : bootstrap settings maxDepth = .ok m) : m.Intact .strict ∧ P m := by
  have hsetUp : Leads (B 0) setUp fun m => m.Intact .strict ∧ P m := by
    refine (addCoreClasses_leads hadd).bind fun _ => ?_
    refine hadopt.bind fun _ => ?_
    refine (installCoreMethods_leads hinstall).bind fun _ => ?_
    rintro m _ _ ⟨hm, hP⟩ ⟨⟩
    exact ⟨(Move.record m _).intact hm.intact, hrecord m _ hP⟩
  obtain ⟨m₀, u, hnew₀, hset⟩ := setUp_of_bootstrap h
  exact hsetUp m₀ u m (hnew hnew₀) hset

theorem bootstrap_intact {settings : Settings} {maxDepth : Nat} {m : Machine}
    (h : bootstrap settings maxDepth = .ok m) : m.Intact .strict := by
  have hadopt : Leads (Booting 13) adoptDictionaries fun m => Furnished m ∧ True :=
    fun m a m' hm hok => ⟨adoptDictionaries_leads m a m' hm hok, trivial⟩
  exact (bootstrap_leads Machine.new_booting
    (fun hn hname => addCoreClass_leads hname (coreNames_fresh _ hn _ hname)) hadopt
    (fun _ _ _ _ _ _ _ _ _ => trivial) (fun _ _ _ => trivial) h).1

end ObjectMachine

import ObjectMachine.Proofs.BootAgreement
import ObjectMachine.Proofs.DepthLimits
import ObjectMachine.Proofs.GraphAgreement
import ObjectMachine.Proofs.Growth

/-!
# What a fresh machine holds

Setting up a machine comes to the same for every memory it is given and every
depth it allows: the core classes stand as globals, each with its methods, and
what is kept alive is the graph that the standard settings give. Collections may
strike between any two allocations on the way. The one thing that can go wrong
is a capacity that grows too large.
-/

namespace ObjectMachine

open ObjectMachine.Action

def Body.classInfo? : Body → Option ClassInfo
  | .classInfo c => some c
  | _ => none

def Body.dictionary? : Body → Option Dictionary
  | .dictionary d => some d
  | _ => none

def Body.method? : Body → Option Method
  | .method c => some c
  | _ => none

namespace Memory

variable (mem : Memory)

def class? (v : Value) : Option ClassInfo := (mem.body? v).bind Body.classInfo?

def dictionary? (v : Value) : Option Dictionary := (mem.body? v).bind Body.dictionary?

def method? (v : Value) : Option Method := (mem.body? v).bind Body.method?

end Memory

def CoreClasses.superclass (c : CoreClasses) (name : String) : Value :=
  if name = "Object" then .nil else if name = "Symbol" then c.string else c.object

def Draft.constant (selector : String) (v : Value) : Draft :=
  ((Draft.new .nil selector).push (.value v)).emit .returnTop

/-- The methods of the core class with that name, in the order of their installation:
those that primitives carry out, and the negation of a truth value. -/
def coreDrafts (name : String) : List Draft :=
  (primitiveMethods.filter fun row => row.1 = name).map (fun row =>
      { Draft.new .nil row.2.1 with primitive := some row.2.2 }) ++
    if name = "True" then [.constant "not" (.bool false)]
    else if name = "False" then [.constant "not" (.bool true)]
    else []

/-- The method carries out the draft for a class, under the one symbol of its selector. -/
@[mk_iff] structure Method.CarriesOut (m : Machine) (d : Draft) (owner : Value) (x : Method) :
    Prop where
  selector : m.symbols.get? d.selector = some x.selector
  symbol : m.symbolName? x.selector = some d.selector
  code : x.code = d.assembly.code
  literals : x.literals = d.literals.map Literal.placeholder
  temporaries : x.temporaries = d.temporaries
  owner : x.owner = owner
  primitive : x.primitive = d.primitive

instance (m : Machine) (d : Draft) (owner : Value) (x : Method) :
    Decidable (x.CarriesOut m d owner) :=
  decidable_of_iff' _ (Method.carriesOut_iff m d owner x)

/-- The value is the core class with that name: it has no variables, stands where it
should, and its dictionary has its methods and nothing else. -/
def Machine.HasCoreClass (m : Machine) (name : String) (v : Value) : Prop :=
  ∃ c ∈ m.memory.class? v, c.name = name ∧ c.superclass = m.core.superclass name ∧
    c.ownVariables = [] ∧ c.instanceSize = 0 ∧
    ∃ methods ∈ m.memory.dictionary? c.methods,
      methods.names = (coreDrafts name).map Draft.selector ∧
      ∀ d ∈ coreDrafts name, ∃ method ∈ methods.get? d.selector,
        ∃ x ∈ m.memory.method? method, x.CarriesOut m d v

instance (m : Machine) (name : String) (v : Value) : Decidable (m.HasCoreClass name v) :=
  inferInstanceAs (Decidable (∃ c ∈ m.memory.class? v, _))

/-- Nothing runs, the host holds nothing, and the globals are the core classes, each
under its own name. -/
@[mk_iff] structure Machine.Stocked (m : Machine) : Prop where
  scratch : m.scratch = #[]
  active : m.active = none
  depth : m.depth = 0
  contexts : m.memory.contexts.size = 0
  names : m.globals.names = coreNames
  globals : m.globals.values = m.core.values
  classes : ∀ e ∈ m.globals.entries, m.HasCoreClass e.1 e.2

instance (m : Machine) : Decidable m.Stocked := decidable_of_iff' _ m.stocked_iff

section

variable {w : World} {v u : Value}

theorem World.OneToOne.eq_left (hw : w.OneToOne) {v' : Value} (h : w.Rel v u) (h' : w.Rel v' u) :
    v = v' :=
  (hw.eq_iff h h').mpr rfl

/-- Related options: what the right one has, the left one has too. -/
theorem exists_mem_of_rel {α β : Type} {R : α → β → Prop} {a? : Option α} {b? : Option β} {b : β}
    (h : Option.Rel R a? b?) (hb : b ∈ b?) : ∃ a ∈ a?, R a b := by
  cases h with
  | none => cases hb
  | some hab =>
    cases hb
    exact ⟨_, rfl, hab⟩

theorem Dictionary.Rel.names {t₁ t₂ : Dictionary} (h : t₁.Rel w t₂) : t₁.names = t₂.names := by
  obtain ⟨es₁⟩ := t₁
  obtain ⟨es₂⟩ := t₂
  change List.Forall₂ _ es₁ es₂ at h
  change es₁.map Prod.fst = es₂.map Prod.fst
  induction h with
  | nil => rfl
  | cons he _ ih => rw [List.map_cons, List.map_cons, he.1, ih]

/-- Values are determined by their partners. -/
theorem World.OneToOne.eq_of_forall₂ (hw : w.OneToOne) {vs vs' us : List Value}
    (h : List.Forall₂ w.Rel vs us) (h' : List.Forall₂ w.Rel vs' us) : vs = vs' := by
  induction h generalizing vs' with
  | nil =>
    cases h'
    rfl
  | cons hrel _ ih =>
    cases h' with
    | cons hrel' h' => rw [hw.eq_left hrel hrel', ih h']

/-- Immediates have themselves as partners. -/
theorem Pointwise.eq_of_immediate {a b : Array Value} (h : Pointwise w.Rel a b)
    (hb : ∀ v ∈ b, v.isPointer = false) : a = b := by
  apply Array.ext_getElem?
  intro k
  have hk := h.getElem? k
  generalize hx : a[k]? = x?, hy : b[k]? = y? at hk
  cases hk with
  | none => rfl
  | some hrel =>
    cases hrel with
    | immediate _ => rfl
    | pointer _ => exact absurd (hb _ (Array.mem_of_getElem? hy)) (by simp [Value.isPointer])

namespace Memory.Sim

variable {mem₁ mem₂ : Memory} (h : mem₁.Sim w mem₂)

include h

theorem read {α : Type} {R : α → α → Prop} {g : Body → Option α} (hv : w.Rel v u)
    (hg : ∀ {b₁ b₂ : Body}, b₁.Rel w b₂ → Option.Rel R (g b₁) (g b₂)) :
    Option.Rel R ((mem₁.body? v).bind g) ((mem₂.body? u).bind g) := by
  have hb := h.body? hv
  generalize mem₁.body? v = r₁, mem₂.body? u = r₂ at hb
  cases hb with
  | none => exact .none
  | some hb => exact hg hb

theorem class? (hv : w.Rel v u) :
    Option.Rel (ClassInfo.Rel w) (mem₁.class? v) (mem₂.class? u) := by
  apply h.read hv
  intro b₁ b₂ hb
  cases hb with
  | classInfo hc => exact .some hc
  | _ => exact .none

theorem dictionary? (hv : w.Rel v u) :
    Option.Rel (Dictionary.Rel w) (mem₁.dictionary? v) (mem₂.dictionary? u) := by
  apply h.read hv
  intro b₁ b₂ hb
  cases hb with
  | dictionary ht => exact .some ht
  | _ => exact .none

theorem method? (hv : w.Rel v u) :
    Option.Rel (Method.Rel w) (mem₁.method? v) (mem₂.method? u) := by
  apply h.read hv
  intro b₁ b₂ hb
  cases hb with
  | method hc => exact .some hc
  | _ => exact .none

end Memory.Sim

theorem CoreClasses.Rel.superclass {c₁ c₂ : CoreClasses} (h : c₁.Rel w c₂) (name : String) :
    w.Rel (c₁.superclass name) (c₂.superclass name) := by
  unfold CoreClasses.superclass
  split_ifs
  · exact World.rel_nil
  · exact h.string
  · exact h.object

/-- The core methods have no literal that would have to be made. -/
theorem immediate_of_mem_coreDrafts {name : String} {d : Draft} (h : d ∈ coreDrafts name) :
    ∀ v ∈ d.literals.map Literal.placeholder, v.isPointer = false := by
  simp only [coreDrafts, Draft.constant, Draft.constant_eq, List.mem_append] at h
  rcases h with h | h
  · obtain ⟨row, -, rfl⟩ := List.mem_map.mp h
    simp [Draft.new]
  · split_ifs at h <;> simp_all [Literal.placeholder, Value.isPointer]

variable {m₁ m₂ : Machine} (h : m₁.Sim w m₂)

include h

theorem Method.CarriesOut.of_sim {d : Draft} {x₁ x₂ : Method} (hx : x₁.Rel w x₂)
    (hv : w.Rel v u) (hd : ∀ l ∈ d.literals.map Literal.placeholder, l.isPointer = false)
    (h₂ : x₂.CarriesOut m₂ d u) : x₁.CarriesOut m₁ d v where
  selector := by
    obtain ⟨s, hs, hrel⟩ := exists_mem_of_rel (h.symbols.get? d.selector) h₂.selector
    rw [hs, h.memory.oneToOne.eq_left hx.selector hrel]
  symbol := by rw [h.symbolName? hx.selector, h₂.symbol]
  code := hx.code.trans h₂.code
  literals := by
    rw [hx.literals.eq_of_immediate (h₂.literals ▸ hd), h₂.literals]
  temporaries := hx.temporaries.trans h₂.temporaries
  owner := h.memory.oneToOne.eq_left hx.owner (h₂.owner ▸ hv)
  primitive := hx.primitive.trans h₂.primitive

theorem Machine.HasCoreClass.of_sim {name : String} (hv : w.Rel v u)
    (h₂ : m₂.HasCoreClass name u) : m₁.HasCoreClass name v := by
  obtain ⟨c₂, hc₂, hname, hsuper, hown, hsize, t₂, ht₂, hnames, hmethods⟩ := h₂
  obtain ⟨c₁, hc₁, hc⟩ := exists_mem_of_rel (h.memory.class? hv) hc₂
  obtain ⟨t₁, ht₁, ht⟩ := exists_mem_of_rel (h.memory.dictionary? hc.methods) ht₂
  have hw := h.memory.oneToOne
  refine ⟨c₁, hc₁, hc.name.trans hname, ?_, hc.ownVariables.trans hown,
    hc.instanceSize.trans hsize, t₁, ht₁, ht.names.trans hnames, ?_⟩
  · exact hw.eq_left hc.superclass (hsuper ▸ h.core.superclass name)
  · intro d hd
    obtain ⟨p₂, hp₂, x₂, hx₂, hcarries⟩ := hmethods d hd
    obtain ⟨p₁, hp₁, hp⟩ := exists_mem_of_rel (ht.get? d.selector) hp₂
    obtain ⟨x₁, hx₁, hx⟩ := exists_mem_of_rel (h.memory.method? hp) hx₂
    exact ⟨p₁, hp₁, x₁, hx₁, .of_sim h hx hv (immediate_of_mem_coreDrafts hd) hcarries⟩

theorem Machine.Stocked.of_sim (h₂ : m₂.Stocked) : m₁.Stocked where
  scratch := by
    apply Array.eq_empty_of_size_eq_zero
    rw [h.scratch.size, h₂.scratch, List.size_toArray, List.length_nil]
  active := h.active.trans h₂.active
  depth := h.depth.trans h₂.depth
  contexts := h.memory.contextCount.trans h₂.contexts
  names := h.globals.names.trans h₂.names
  globals := h.memory.oneToOne.eq_of_forall₂ (h₂.globals ▸ h.globals.values)
    (CoreClasses.rel_iff.mp h.core)
  classes e he := by
    obtain ⟨e₂, he₂, hname, hrel⟩ := forall₂_mem_left h.globals he
    rw [hname]
    exact .of_sim h hrel (h₂.classes e₂ he₂)

end

namespace Lasts

theorem forM {α : Type} {l : List α} {g : α → Action Unit} (hg : ∀ e, Lasts (g e)) :
    Lasts (l.forM g) := by
  induction l with
  | nil => exact .pure ()
  | cons e rest ih => exact (hg e).bind fun _ => ih

theorem addCoreClass (name : String) (superclass : CoreClasses → Value)
    (note : CoreClasses → Value → CoreClasses) : Lasts (addCoreClass name superclass note) := by
  apply read fun _ _ => rfl
  intro m
  apply (Lasts.newClass _ _ _).bind
  exact fun v => .modify fun _ _ => rfl

theorem addCoreClasses : Lasts addCoreClasses := by
  repeat apply (addCoreClass _ _ _).bind; intro _
  exact addCoreClass _ _ _

theorem installPrimitive (className selector : String) (primitive : Nat) :
    Lasts (installPrimitive className selector primitive) := by
  apply read fun _ _ => rfl
  exact fun m => (Lasts.install _).bind fun _ => .pure ()

theorem installConstant (className selector : String) (v : Value) :
    Lasts (installConstant className selector v) := by
  apply read fun _ _ => rfl
  exact fun m => (Lasts.install _).bind fun _ => .pure ()

protected theorem setUp : Lasts setUp := by
  apply addCoreClasses.bind
  intro _
  apply Lasts.bind (.modify fun _ _ => rfl)
  intro _
  apply Lasts.bind
  · apply Lasts.bind
    · exact forM fun e => installPrimitive _ _ _
    intro _
    apply (installConstant _ _ _).bind
    exact fun _ => installConstant _ _ _
  intro _
  apply read fun _ _ => rfl
  exact fun m => .modify fun _ _ => rfl

end Lasts

theorem Machine.Stocked.allowing {m : Machine} (h : m.Stocked) (limit : Nat) :
    (m.allowing limit).Stocked where
  scratch := h.scratch
  active := h.active
  depth := h.depth
  contexts := h.contexts
  names := h.names
  globals := h.globals
  classes e he := by
    obtain ⟨c, hc, hname, hsuper, hown, hsize, t, ht, hnames, hmethods⟩ := h.classes e he
    refine ⟨c, hc, hname, hsuper, hown, hsize, t, ht, hnames, fun d hd => ?_⟩
    obtain ⟨p, hp, x, hx, hout⟩ := hmethods d hd
    exact ⟨p, hp, x, hx, hout.selector, hout.symbol, hout.code, hout.literals, hout.temporaries,
      hout.owner, hout.primitive⟩

def Machine.OnlyCoreClasses (m : Machine) : Prop :=
  ∀ i < m.memory.objects.size, (m.memory.class? (.pointer i)).isSome → .pointer i ∈ m.core.values

instance (m : Machine) : Decidable m.OnlyCoreClasses :=
  inferInstanceAs (Decidable (∀ i < m.memory.objects.size, _))

/-- Machines that boot under two limits differ in the limit only. -/
theorem bootstrap_allowing {m : Machine} (h : bootstrap .standard 0 = .ok m) (maxDepth : Nat) :
    ∃ m' : Machine, m = m'.allowing 0 ∧
      bootstrap .standard maxDepth = .ok (m'.allowing maxDepth) := by
  obtain ⟨m₀, u, hnew, hset⟩ := setUp_of_bootstrap h
  have hallowing : m₀ = m₀.allowing 0 ∧
      Machine.new .standard maxDepth = .ok (m₀.allowing maxDepth) := by
    obtain rfl := Except.ok.inj hnew
    exact ⟨rfl, rfl⟩
  have hlasts := Lasts.setUp 0 maxDepth (Nat.zero_le _) m₀
  rw [← hallowing.1, hset] at hlasts
  generalize hr : setUp (m₀.allowing maxDepth) = r at hlasts
  cases hlasts with
  | ok u m =>
    refine ⟨m, rfl, ?_⟩
    simp only [bootstrap, hallowing.2, hr]

theorem bootstrap_standard (maxDepth : Nat) :
    ∃ m, bootstrap .standard maxDepth = .ok m ∧ m.Stocked ∧ m.OnlyCoreClasses := by
  -- one machine is looked at; setting up another differs from it in the limit only
  obtain ⟨m, hboot, htest⟩ := exists_of_boots
    (show boots .standard 0 (fun m => decide (m.Stocked ∧ m.OnlyCoreClasses)) = true by
      decide +kernel)
  obtain ⟨hstocked, honly⟩ := of_decide_eq_true htest
  obtain ⟨m', rfl, hboot'⟩ := bootstrap_allowing hboot maxDepth
  exact ⟨m'.allowing maxDepth, hboot', hstocked.allowing maxDepth, honly⟩

/-- Where one machine has only core classes, the other keeps no other class alive. -/
theorem Machine.Sim.mem_core {w : World} {m₁ m₂ : Machine} (h : m₁.Sim w m₂)
    (h₂ : m₂.OnlyCoreClasses) {v : Value} {c : ClassInfo} (hv : m₁.Alive (.value v))
    (hc : m₁.memory.class? v = some c) : v ∈ m₁.core.values := by
  obtain ⟨s, -, hrel⟩ := h.memory.partner_left h.roots hv
  cases hrel with
  | @value v u hrel =>
    have hboth := h.memory.class? hrel
    rw [hc] at hboth
    have hu : u ∈ m₂.core.values := by
      cases hrel with
      | immediate hp =>
        rw [Memory.class?, m₁.memory.body?_of_immediate hp] at hc
        cases hc
      | @pointer i j hij =>
        obtain ⟨-, o₂, -, ho₂, -⟩ := h.memory.objects hij
        apply h₂ j (Array.getElem?_eq_some_iff.mp ho₂).1
        generalize m₂.memory.class? (.pointer j) = r at hboth
        cases hboth
        rfl
    obtain ⟨v', hv', hrel'⟩ := forall₂_mem_right (CoreClasses.rel_iff.mp h.core) hu
    rw [h.memory.oneToOne.eq_left hrel hrel']
    exact hv'

/-- Objects other than classes have a class. -/
theorem Machine.Intact.isClass_header {m : Machine} (h : m.Intact .strict) {i : Nat}
    {o : HeapObject} (ho : m.memory.objects[i]? = some o) (hkind : o.body.kind ≠ .classInfo) :
    m.isClass o.header.classRef = true := by
  obtain ⟨inUse, hm⟩ := h
  obtain ⟨s, hs, hclass⟩ := (hm.memory.objects i o ho).typed.header hkind
  obtain ⟨b, hb, rfl⟩ := Option.map_eq_some_iff.mp hs
  unfold isClass
  rw [hb]
  cases b with
  | classInfo c => rfl
  | _ => cases hclass

theorem Machine.isNil_of_isClass {m : Machine} {v : Value} (h : m.isClass v = true) :
    v.isNil = false := by
  cases v with
  | nil | reserved _ => cases h
  | _ => rfl

/-- Every valid configuration boots the same machine, whenever its memory collects on
the way: it holds the core classes and their methods, and up to places it keeps alive
what the standard settings do. Only a capacity that grows too large stops it. -/
theorem every_configuration_boots_the_same_machine {settings : Settings}
    (h : settings.problem? = none) (maxDepth : Nat) :
    (bootstrap settings maxDepth = .error (.fault .multiplicationOverflow) ∧
        settings.Outgrows setUpAllocations) ∨
      ∃ m m₀ f, bootstrap settings maxDepth = .ok m ∧ bootstrap .standard maxDepth = .ok m₀ ∧
        m.Stocked ∧
        (∀ v c, m.Alive (.value v) → m.memory.class? v = some c → v ∈ m.core.values) ∧
        (∀ (i : Nat) (o : HeapObject), m.memory.objects[i]? = some o →
          o.body.kind ≠ .classInfo →
          o.header.classRef.isNil = false ∧ m.isClass o.header.classRef = true) ∧
        SameGraph f m m₀ := by
  obtain ⟨m₀, hstandard, hstocked, honly⟩ := bootstrap_standard maxDepth
  rcases bootstrap_sim_or_overflow h hstandard with hover | ⟨m, w, hboot, hsim⟩
  · exact .inl ⟨hover, outgrows_of_bootstrap hover⟩
  · obtain ⟨f, hgraph⟩ := hsim.exists_sameGraph
    refine .inr ⟨m, m₀, f, hboot, hstandard, .of_sim hsim hstocked, ?_, ?_, hgraph⟩
    · exact fun v c hv hc => hsim.mem_core honly hv hc
    · intro i o ho hkind
      have hclass := (bootstrap_intact hboot).isClass_header ho hkind
      exact ⟨Machine.isNil_of_isClass hclass, hclass⟩

/-- Room for eight objects at first. -/
def Settings.cramped : Settings := { Settings.tight with initialCapacity := 8 }

/-- A machine that collects and grows several times on the way boots the same. -/
theorem cramped_machine_boots_the_same :
    Settings.cramped.problem? = none ∧ ∃ m m₀ f, bootstrap .cramped 10 = .ok m ∧
      bootstrap .standard 10 = .ok m₀ ∧ 3 < m.memory.collections ∧ m.Stocked ∧
      SameGraph f m m₀ := by
  have hvalid : Settings.cramped.problem? = none := by decide
  have hroom : ¬Settings.cramped.Outgrows setUpAllocations := by decide +kernel
  obtain ⟨m', hboot', hcollections⟩ := exists_of_boots
    (show boots .cramped 10 (fun m => 3 < m.memory.collections) = true by decide +kernel)
  refine ⟨hvalid, ?_⟩
  rcases every_configuration_boots_the_same_machine hvalid 10 with
    ⟨-, hover⟩ | ⟨m, m₀, f, hboot, hstandard, hstocked, -, -, hgraph⟩
  · exact absurd hover hroom
  · rw [hboot] at hboot'
    cases hboot'
    exact ⟨m', m₀, f, hboot, hstandard, of_decide_eq_true hcollections, hstocked, hgraph⟩

end ObjectMachine

import ObjectMachine.Bootstrap
import ObjectMachine.Proofs.SendRules

/-!
# What actions keep

Making objects raises no error: it ends with an answer or a fault. A property of
machines is stable when it survives what the host does between programs, except
that new code may ask for more. From that follows what making classes and setting
up a machine keep.
-/

namespace ObjectMachine

open ObjectMachine.Action

def Action.after {α : Type} (x : Action α) (m : Machine) : Machine :=
  match x m with
  | .ok _ m' => m'
  | .error _ m' => m'

def Action.left {α : Type} : EStateM.Result Stop Machine α → Machine
  | .ok _ m => m
  | .error _ m => m

theorem Action.after_eq {α : Type} (x : Action α) (m : Machine) : after x m = left (x m) := by
  rw [after]
  cases x m <;> rfl

/-- The result leaves a machine with `P`, and it is an answer or a fault. -/
inductive Kept {α : Type} (P : Machine → Prop) : EStateM.Result Stop Machine α → Prop
  | ok {a : α} {m : Machine} : P m → Kept P (.ok a m)
  | fault {f : Fault} {m : Machine} : P m → Kept P (.error (.fault f) m)

/-- An action that keeps `P` and raises nothing. -/
def Upholds {α : Type} (P : Machine → Prop) (x : Action α) : Prop := ∀ m, P m → Kept P (x m)

section

variable {α β γ : Type} {P : Machine → Prop} {x : Action α} {f : α → Action β}

theorem Kept.left {r : EStateM.Result Stop Machine α} (h : Kept P r) : P (Action.left r) := by
  cases h with
  | ok hm => exact hm
  | fault hm => exact hm

theorem Kept.bind {m : Machine} (hx : Kept P (x m)) (hf : ∀ a, Upholds P (f a)) :
    Kept P ((x >>= f) m) := by
  generalize hr : x m = r at hx
  cases hx with
  | ok hm' =>
    rw [bind_ok hr]
    exact hf _ _ hm'
  | fault hm' =>
    rw [bind_error hr]
    exact .fault hm'

namespace Upholds

protected theorem pure (a : α) : Upholds P (pure a) := fun _ hm => .ok hm

theorem fail (e : Fault) : Upholds P (Action.fail e : Action α) := fun _ hm => .fault hm

theorem ofExcept (r : Except Fault α) : Upholds P (Action.ofExcept r) := by
  cases r with
  | ok a => exact .pure a
  | error e => exact .fail e

protected theorem bind (hx : Upholds P x) (hf : ∀ a, Upholds P (f a)) : Upholds P (x >>= f) :=
  fun m hm => (hx m hm).bind hf

theorem get_bind {f : Machine → Action β} (hf : ∀ m, Upholds P (f m)) : Upholds P (get >>= f) :=
  fun m hm => hf m m hm

protected theorem modify {g : Machine → Machine} (hg : ∀ m, P m → P (g m)) :
    Upholds P (modify g) := fun m hm => .ok (hg m hm)

theorem forM {l : List γ} {g : γ → Action Unit} (hg : ∀ e, Upholds P (g e)) :
    Upholds P (l.forM g) := by
  induction l with
  | nil => exact .pure ()
  | cons e rest ih => exact (hg e).bind fun _ => ih

end Upholds

end

/-- An answer that satisfies `Q`, or a fault that leaves a machine with `P`. -/
inductive Gives {α : Type} (P : Machine → Prop) (Q : α → Machine → Prop) :
    EStateM.Result Stop Machine α → Prop
  | ok {a : α} {m : Machine} : Q a m → Gives P Q (.ok a m)
  | fault {f : Fault} {m : Machine} : P m → Gives P Q (.error (.fault f) m)

namespace Gives

variable {α β : Type} {P : Machine → Prop} {Q Q' : α → Machine → Prop}
  {R : β → Machine → Prop} {r : EStateM.Result Stop Machine α}

theorem imp (h : Gives P Q r) (hQ : ∀ a m, Q a m → Q' a m) : Gives P Q' r := by
  cases h with
  | ok ha => exact .ok (hQ _ _ ha)
  | fault hm => exact .fault hm

theorem kept (h : Gives P Q r) (hQ : ∀ a m, Q a m → P m) : Kept P r := by
  cases h with
  | ok ha => exact .ok (hQ _ _ ha)
  | fault hm => exact .fault hm

protected theorem bind {x : Action α} {f : α → Action β} {m : Machine} (hx : Gives P Q (x m))
    (hf : ∀ a m', Q a m' → Gives P R (f a m')) : Gives P R ((x >>= f) m) := by
  generalize hr : x m = r at hx
  cases hx with
  | ok ha =>
    rw [bind_ok hr]
    exact hf _ _ ha
  | fault hm' =>
    rw [bind_error hr]
    exact .fault hm'

end Gives

/-- The bodies that are never written to. -/
def Body.lasts : Body → Bool
  | .method _ | .block _ | .symbol _ => true
  | _ => false

theorem Machine.lasts_blank (m : Machine) (classRef : Value) (size : Nat) :
    (m.blank classRef size).body.lasts = false := by
  simp only [blank, HeapObject.new]
  split_ifs
  case neg => split <;> rfl
  all_goals rfl

/-- Nothing differs but the journal and the roots other than symbols. -/
structure Machine.Rerooted (m m' : Machine) : Prop where
  memory : m'.memory = m.memory
  symbols : m'.symbols = m.symbols
  active : m'.active = m.active
  depth : m'.depth = m.depth
  maxDepth : m'.maxDepth = m.maxDepth

/-- A property that making objects keeps, apart from code and symbols. -/
structure Stable (P : Machine → Prop) : Prop where
  rerooted : ∀ {m m' : Machine}, P m → m.Rerooted m' → P m'
  allocate : ∀ o : HeapObject, o.body.lasts = false → Upholds P (allocate o)
  intern : ∀ name, Upholds P (intern name)
  define : ∀ {m : Machine} {v : Value} {d : Dictionary}, P m →
    m.memory.body? v = some (.dictionary d) → ∀ d', P (m.write v fun _ => .dictionary d')
  adopt : Upholds P adoptDictionaries

namespace Stable

variable {P : Machine → Prop}

theorem reroot (h : Stable P) {g : Machine → Machine} (hg : ∀ m : Machine, m.Rerooted (g m)) :
    Upholds P (modify g) :=
  .modify fun m hm => h.rerooted hm (hg m)

theorem record (h : Stable P) (e : Event) : Upholds P (record e) :=
  h.reroot fun _ => ⟨rfl, rfl, rfl, rfl, rfl⟩

theorem made (h : Stable P) {o : Machine → HeapObject} (ho : ∀ m, (o m).body.lasts = false) :
    Upholds P (get >>= fun m => ObjectMachine.allocate (o m)) :=
  .get_bind fun m => h.allocate (o m) (ho m)

theorem newClass (h : Stable P) (name : String) (superclass : Value) (ownVariables : List String) :
    Upholds P (newClass name superclass ownVariables) := by
  apply Upholds.bind
  · exact h.reroot fun _ => ⟨rfl, rfl, rfl, rfl, rfl⟩
  intro _
  apply Upholds.get_bind
  intro m
  apply (h.allocate _ rfl).bind
  intro methods
  apply Upholds.bind
  · apply Upholds.get_bind
    intro m
    apply Upholds.bind
    · exact h.reroot fun _ => ⟨rfl, rfl, rfl, rfl, rfl⟩
    · exact fun _ => .pure _
  intro superclass
  apply Upholds.get_bind
  intro m
  apply (h.allocate _ rfl).bind
  intro v
  apply Upholds.bind
  · exact h.reroot fun _ => ⟨rfl, rfl, rfl, rfl, rfl⟩
  · exact fun _ => .pure v

theorem newInstance (h : Stable P) (classRef : Value) (size : Nat) :
    Upholds P (newInstance classRef size) :=
  h.made fun m => m.lasts_blank classRef size

end Stable

theorem Machine.body?_of_body {m : Machine} {v : Value} {b : Body} (h : m.body v = .ok b) :
    m.memory.body? v = some b := by
  unfold body at h
  split at h
  · cases h
    assumption
  · cases h

namespace Stable

variable {P : Machine → Prop}

theorem defineMethod (h : Stable P) (classRef : Value) (selector : String) (method : Value) :
    Upholds P (defineMethod classRef selector method) := by
  intro m hm
  rw [ObjectMachine.defineMethod, bind_get]
  cases hclass : m.body classRef with
  | error f =>
    rw [bind_error (ofExcept_error f)]
    exact .fault hm
  | ok body =>
    rw [bind_ok (ofExcept_ok body)]
    cases body with
    | classInfo c =>
      dsimp only
      cases hmethods : m.body c.methods with
      | error f =>
        rw [bind_error (ofExcept_error f)]
        exact .fault hm
      | ok body =>
        rw [bind_ok (ofExcept_ok body)]
        cases body with
        | dictionary d => exact .ok (h.define hm (Machine.body?_of_body hmethods) _)
        | _ => exact .fault hm
    | _ => exact .fault hm

theorem fill (h : Stable P) (literals : List Literal) (place : Nat) :
    Upholds P (Draft.fill literals place) := by
  induction literals generalizing place with
  | nil => exact .pure ()
  | cons literal rest ih =>
    cases literal with
    | value v => exact ih _
    | symbol name =>
      apply (h.intern name).bind
      intro v
      apply Upholds.bind
      · exact h.reroot fun _ => ⟨rfl, rfl, rfl, rfl, rfl⟩
      · exact fun _ => ih _
    | string s =>
      apply (h.made fun _ => rfl).bind
      intro v
      apply Upholds.bind
      · exact h.reroot fun _ => ⟨rfl, rfl, rfl, rfl, rfl⟩
      · exact fun _ => ih _

theorem build (h : Stable P) {d : Draft}
    (hmethod : ∀ c : Method, c.code = d.assembly.code → Upholds P (newMethod c)) :
    Upholds P d.build := by
  apply Upholds.get_bind
  intro m
  apply Upholds.bind
  · exact h.reroot fun _ => ⟨rfl, rfl, rfl, rfl, rfl⟩
  intro _
  apply (h.fill _ _).bind
  intro _
  apply (h.intern _).bind
  intro selector
  apply Upholds.get_bind
  intro m
  apply (hmethod _ rfl).bind
  intro v
  apply Upholds.bind
  · exact h.reroot fun _ => ⟨rfl, rfl, rfl, rfl, rfl⟩
  · exact fun _ => .pure v

theorem install (h : Stable P) {d : Draft} {m : Machine} (hbuild : Kept P (d.build m)) :
    Kept P (d.install m) := by
  apply hbuild.bind
  intro v
  apply Upholds.get_bind
  intro m
  apply (Upholds.ofExcept _).bind
  intro body
  cases body with
  | method c =>
    apply (h.defineMethod _ _ _).bind
    intro _
    apply (h.record _).bind
    exact fun _ => .pure v
  | _ => exact .fail _

theorem addCoreClass (h : Stable P) (name : String) (superclass : CoreClasses → Value)
    (note : CoreClasses → Value → CoreClasses) :
    Upholds P (addCoreClass name superclass note) := by
  apply Upholds.get_bind
  intro m
  apply (h.newClass _ _ _).bind
  intro v
  exact h.reroot fun _ => ⟨rfl, rfl, rfl, rfl, rfl⟩

theorem addCoreClasses (h : Stable P) : Upholds P addCoreClasses := by
  repeat apply (h.addCoreClass _ _ _).bind; intro _
  exact h.addCoreClass _ _ _

theorem setUp (h : Stable P)
    (hprimitive : ∀ className selector primitive,
      Upholds P (installPrimitive className selector primitive))
    (hconstant : ∀ className selector v, Upholds P (installConstant className selector v)) :
    Upholds P setUp := by
  apply h.addCoreClasses.bind
  intro _
  apply h.adopt.bind
  intro _
  apply Upholds.bind
  · apply Upholds.bind
    · exact .forM fun e => hprimitive _ _ _
    intro _
    apply (hconstant _ _ _).bind
    exact fun _ => hconstant _ _ _
  intro _
  apply Upholds.get_bind
  exact fun m => h.record _

end Stable

/-- What holds of a machine without objects and is kept by setting it up holds of a
fresh machine. -/
theorem bootstrap_keeps {P : Machine → Prop} {settings : Settings} {maxDepth : Nat} {m : Machine}
    (hempty : P ⟨⟨settings, settings.initialCapacity, #[], 0, #[]⟩, .none, .empty, .empty, #[],
      none, 0, maxDepth, #[]⟩)
    (hsetUp : Upholds P setUp) (h : bootstrap settings maxDepth = .ok m) : P m := by
  unfold bootstrap at h
  split at h
  case h_1 => cases h
  case h_2 m₀ hnew =>
    have hm₀ : P m₀ := by
      unfold Machine.new Memory.new at hnew
      split at hnew
      · cases hnew
      · cases hnew
        exact hempty
    have hkept := hsetUp m₀ hm₀
    split at h
    case h_1 u m₁ hset =>
      cases h
      rw [hset] at hkept
      cases hkept with
      | ok hm => exact hm
    case h_2 => cases h

section

variable {α : Type}

/-- The action answers, and its answer and the machine it leaves pass the test. -/
def Action.answers (x : Action α) (m : Machine) (test : α → Machine → Bool) : Bool :=
  match x m with
  | .ok a m' => test a m'
  | .error _ _ => false

/-- The action stops early, for a reason that passes the test. -/
def Action.stops (x : Action α) (m : Machine) (test : Stop → Bool) : Bool :=
  match x m with
  | .ok _ _ => false
  | .error s _ => test s

/-- There is a fresh machine, and it passes the test. -/
def boots (settings : Settings) (maxDepth : Nat) (test : Machine → Bool) : Bool :=
  (bootstrap settings maxDepth).toOption.any test

theorem Action.exists_of_answers {x : Action α} {m : Machine} {test : α → Machine → Bool}
    (h : x.answers m test = true) : ∃ a m', x m = .ok a m' ∧ test a m' = true := by
  rw [answers] at h
  cases hx : x m with
  | ok a m' =>
    rw [hx] at h
    exact ⟨a, m', rfl, h⟩
  | error s m' =>
    rw [hx] at h
    cases h

theorem Action.exists_of_stops {x : Action α} {m : Machine} {test : Stop → Bool}
    (h : x.stops m test = true) : ∃ s m', x m = .error s m' ∧ test s = true := by
  rw [stops] at h
  cases hx : x m with
  | ok a m' =>
    rw [hx] at h
    cases h
  | error s m' =>
    rw [hx] at h
    exact ⟨s, m', rfl, h⟩

theorem eq_ok_of_toOption {ε : Type} {r : Except ε α} {a : α} (h : r.toOption = some a) :
    r = .ok a := by
  cases r with
  | ok b => exact congrArg _ (Option.some.inj h)
  | error e => cases h

theorem exists_ok_of_any {ε : Type} {r : Except ε α} {test : α → Bool}
    (h : r.toOption.any test = true) : ∃ a, r = .ok a ∧ test a = true := by
  cases r with
  | ok a => exact ⟨a, rfl, h⟩
  | error e => cases h

theorem exists_of_boots {settings : Settings} {maxDepth : Nat} {test : Machine → Bool}
    (h : boots settings maxDepth test = true) :
    ∃ m, bootstrap settings maxDepth = .ok m ∧ test m = true :=
  exists_ok_of_any h

end

end ObjectMachine

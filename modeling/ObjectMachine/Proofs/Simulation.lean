import ObjectMachine.Execution
import ObjectMachine.Proofs.Correspondence
import ObjectMachine.Proofs.GraphCopy
import Mathlib.Data.Finset.Card

/-!
# Machines that correspond

Two machines correspond in a world when everything they keep alive does. What
they read is then the same up to places: bodies, classes, methods, temporaries
and the code that runs next. A search for a method may look at as many classes
as there are objects, which differs between the two. It never gets that far,
since every chain of superclasses ends.
-/

namespace ObjectMachine

/-- So many classes stand on the chain that starts at the value. -/
inductive Memory.Height (mem : Memory) : Value → Nat → Prop
  | top {v : Value} : (∀ c, mem.body? v ≠ some (.classInfo c)) → Height mem v 0
  | up {v : Value} {c : ClassInfo} {n : Nat} : mem.body? v = some (.classInfo c) →
      Height mem c.superclass n → Height mem v (n + 1)

namespace Memory.Height

variable {mem : Memory} {v : Value} {n n' : Nat}

theorem unique (h : mem.Height v n) (h' : mem.Height v n') : n = n' := by
  induction h generalizing n' with
  | top hv =>
    cases h' with
    | top _ => rfl
    | up hc _ => exact absurd hc (hv _)
  | up hc _ ih =>
    cases h' with
    | top hv => exact absurd hc (hv _)
    | up hc' h' =>
      rw [hc] at hc'
      obtain ⟨⟩ := hc'
      rw [ih h']

/-- Every height below that of a value belongs to an object. -/
theorem level (h : mem.Height v n) {k : Nat} (hk : k < n) :
    ∃ i < mem.objects.size, mem.Height (.pointer i) (k + 1) := by
  induction h with
  | top => exact absurd hk (Nat.not_lt_zero k)
  | @up v c n hc hup ih =>
    rcases Nat.lt_succ_iff_lt_or_eq.mp hk with hk | rfl
    · exact ih hk
    · cases v with
      | pointer i =>
        have hlt : i < mem.objects.size := by
          by_contra hge
          simp [body?, object?, Array.getElem?_eq_none_iff.mpr (Nat.not_lt.mp hge)] at hc
        exact ⟨i, hlt, .up hc hup⟩
      | _ => exact absurd hc (by simp [body?, object?])

/-- A chain is no longer than the memory, since its classes differ in height. -/
theorem le_size (h : mem.Height v n) : n ≤ mem.objects.size := by
  choose! place hlt hplace using fun k (hk : k < n) => h.level hk
  have hinj : Set.InjOn place (Finset.range n) := by
    intro k hk k' hk' heq
    rw [Finset.coe_range] at hk hk'
    have hk₁ := hplace k hk
    rw [heq] at hk₁
    exact Nat.succ_injective (hk₁.unique (hplace k' hk'))
  have hmaps : ∀ k ∈ Finset.range n, place k ∈ Finset.range mem.objects.size :=
    fun k hk => Finset.mem_range.mpr (hlt k (Finset.mem_range.mp hk))
  simpa using Finset.card_le_card_of_injOn place hmaps hinj

end Memory.Height

/-- Searching further than the chain is long changes nothing. -/
theorem Machine.lookupFrom_of_height {m : Machine} {v : Value} {n : Nat}
    (h : m.memory.Height v n) (selector : String) {fuel : Nat} (hn : n ≤ fuel) :
    m.lookupFrom selector fuel v = m.lookupFrom selector n v := by
  induction h generalizing fuel with
  | top hv =>
    cases fuel with
    | zero => rfl
    | succ fuel =>
      unfold lookupFrom
      split
      case h_1 c hc => exact absurd hc (hv c)
      case h_2 => rfl
  | @up v c n hc _ ih =>
    cases fuel with
    | zero => exact absurd hn (Nat.not_succ_le_zero n)
    | succ fuel =>
      unfold lookupFrom
      simp only [hc, ih (Nat.le_of_succ_le_succ hn)]

theorem Machine.lookup_of_height {m : Machine} {v : Value} {n : Nat} (h : m.memory.Height v n)
    (selector : String) : m.lookup v selector = m.lookupFrom selector n v :=
  lookupFrom_of_height h selector h.le_size

/-- The value without its place. -/
def Value.erase (v : Value) : Value := v.rename fun _ => 0

def Fault.erase : Fault → Fault
  | .danglingReference v => .danglingReference v.erase
  | .husk v => .husk v.erase
  | .danglingEdge v edge => .danglingEdge v.erase edge.erase
  | .notAnObject v => .notAnObject v.erase
  | .classOfDangling v => .classOfDangling v.erase
  | .classless kind v => .classless kind v.erase
  | .boxedInteger v => .boxedInteger v.erase
  | f => f

def RuntimeError.erase : RuntimeError → RuntimeError
  | .selectorNotSymbol got => .selectorNotSymbol got.erase
  | .type expected got => .type expected got.erase
  | e => e

def Stop.erase : Stop → Stop
  | .raised e => .raised e.erase
  | .fault f => .fault f.erase
  | .exhausted => .exhausted

theorem World.Rel.erase {w : World} {v u : Value} (h : w.Rel v u) : v.erase = u.erase := by
  cases h <;> rfl

/-- Two readings agree: their answers are related, or they fail alike. -/
inductive Matches {α β : Type} (A : α → β → Prop) : Except Fault α → Except Fault β → Prop
  | ok {a : α} {b : β} : A a b → Matches A (.ok a) (.ok b)
  | error {e f : Fault} : e.erase = f.erase → Matches A (.error e) (.error f)

theorem Matches.bind {α β α' β' : Type} {A : α → β → Prop} {B : α' → β' → Prop}
    {x : Except Fault α} {y : Except Fault β} {f : α → Except Fault α'} {g : β → Except Fault β'}
    (h : Matches A x y) (hf : ∀ a b, A a b → Matches B (f a) (g b)) :
    Matches B (x >>= f) (y >>= g) := by
  cases h with
  | ok h => exact hf _ _ h
  | error h => exact .error h

structure Memory.Sim (w : World) (mem₁ mem₂ : Memory) : Prop where
  oneToOne : w.OneToOne
  objects : ∀ {i j}, w.index i j → ∃ o₁ o₂, mem₁.objects[i]? = some o₁ ∧
    mem₂.objects[j]? = some o₂ ∧ o₁.Rel w o₂
  grounded : ∀ {i j}, w.index i j → ∃ n, mem₁.Height (.pointer i) n
  contextCount : mem₁.contexts.size = mem₂.contexts.size
  contexts : ∀ {id}, w.context id → ∃ c₁ c₂, mem₁.contexts[id]? = some c₁ ∧
    mem₂.contexts[id]? = some c₂ ∧ c₁.Rel w c₂
  left : mem₁.EpochsPast
  right : mem₂.EpochsPast

structure CoreClasses.Rel (w : World) (c₁ c₂ : CoreClasses) : Prop where
  object : w.Rel c₁.object c₂.object
  undefinedObject : w.Rel c₁.undefinedObject c₂.undefinedObject
  trueClass : w.Rel c₁.trueClass c₂.trueClass
  falseClass : w.Rel c₁.falseClass c₂.falseClass
  integer : w.Rel c₁.integer c₂.integer
  float : w.Rel c₁.float c₂.float
  string : w.Rel c₁.string c₂.string
  symbol : w.Rel c₁.symbol c₂.symbol
  block : w.Rel c₁.block c₂.block
  array : w.Rel c₁.array c₂.array
  byteArray : w.Rel c₁.byteArray c₂.byteArray
  dictionary : w.Rel c₁.dictionary c₂.dictionary
  method : w.Rel c₁.method c₂.method

theorem CoreClasses.rel_iff {w : World} {c₁ c₂ : CoreClasses} :
    c₁.Rel w c₂ ↔ List.Forall₂ w.Rel c₁.values c₂.values := by
  refine ⟨fun h => ?_, fun h => ?_⟩
  · simp [values, h.object, h.undefinedObject, h.trueClass, h.falseClass, h.integer, h.float,
      h.string, h.symbol, h.block, h.array, h.byteArray, h.dictionary, h.method]
  · simp only [values, List.forall₂_cons, List.Forall₂.nil, and_true] at h
    obtain ⟨h₁, h₂, h₃, h₄, h₅, h₆, h₇, h₈, h₉, h₁₀, h₁₁, h₁₂, h₁₃⟩ := h
    exact ⟨h₁, h₂, h₃, h₄, h₅, h₆, h₇, h₈, h₉, h₁₀, h₁₁, h₁₂, h₁₃⟩

structure Machine.Sim (w : World) (m₁ m₂ : Machine) : Prop where
  memory : m₁.memory.Sim w m₂.memory
  core : m₁.core.Rel w m₂.core
  globals : m₁.globals.Rel w m₂.globals
  symbols : m₁.symbols.Rel w m₂.symbols
  scratch : Pointwise w.Rel m₁.scratch m₂.scratch
  active : m₁.active = m₂.active
  shared : ∀ id, m₁.active = some id → w.context id
  depth : m₁.depth = m₂.depth
  maxDepth : m₁.maxDepth = m₂.maxDepth

namespace Memory.Sim

variable {w : World} {mem₁ mem₂ : Memory} (h : mem₁.Sim w mem₂) {v u : Value}

include h

theorem object? (hv : w.Rel v u) :
    Option.Rel (HeapObject.Rel w) (mem₁.object? v) (mem₂.object? u) := by
  cases hv with
  | pointer hi =>
    obtain ⟨o₁, o₂, ho₁, ho₂, hrel⟩ := h.objects hi
    simp only [Memory.object?, ho₁, ho₂]
    exact .some hrel
  | immediate hp =>
    rw [mem₁.object?_of_immediate hp, mem₂.object?_of_immediate hp]
    exact .none

theorem body? (hv : w.Rel v u) : Option.Rel (Body.Rel w) (mem₁.body? v) (mem₂.body? u) := by
  have ho := h.object? hv
  unfold Memory.body?
  generalize mem₁.object? v = r₁, mem₂.object? u = r₂ at ho
  cases ho with
  | some ho => exact .some ho.body
  | none => exact .none

theorem height {n : Nat} (hv : w.Rel v u) (hn : mem₁.Height v n) : mem₂.Height u n := by
  induction hn generalizing u with
  | @top v hnone =>
    refine .top fun c hc => ?_
    have hb := h.body? hv
    rw [hc] at hb
    generalize hb₁ : mem₁.body? v = r at hb
    cases hb with
    | some hb =>
      cases hb with
      | classInfo _ => exact hnone _ hb₁
  | @up v c n hc _ ih =>
    have hb := h.body? hv
    rw [hc] at hb
    generalize hb₂ : mem₂.body? u = r at hb
    cases hb with
    | some hb =>
      cases hb with
      | classInfo hrel => exact .up hb₂ (ih hrel.superclass)

theorem superclass {c : ClassInfo} (hv : w.Rel v u) (hc : mem₁.body? v = some (.classInfo c)) :
    ∃ u', w.Rel c.superclass u' := by
  have hb := h.body? hv
  rw [hc] at hb
  generalize mem₂.body? u = r at hb
  cases hb with
  | some hb =>
    cases hb with
    | classInfo hrel => exact ⟨_, hrel.superclass⟩

theorem exists_height (hv : w.Rel v u) : ∃ n, mem₁.Height v n := by
  cases hv with
  | pointer hi => exact h.grounded hi
  | immediate hp =>
    refine ⟨0, .top fun c hc => ?_⟩
    rw [mem₁.body?_of_immediate hp] at hc
    exact nomatch hc

end Memory.Sim

theorem Dictionary.Rel.get? {w : World} {t₁ t₂ : Dictionary} (h : t₁.Rel w t₂) (name : String) :
    Option.Rel w.Rel (t₁.get? name) (t₂.get? name) := by
  obtain ⟨es₁⟩ := t₁
  obtain ⟨es₂⟩ := t₂
  simp only [Dictionary.Rel, Dictionary.get?] at h ⊢
  induction h with
  | nil => exact .none
  | @cons e₁ e₂ es₁ es₂ he _ ih =>
    obtain ⟨key, v⟩ := e₁
    obtain ⟨key', u⟩ := e₂
    obtain ⟨hkey, hrel⟩ := he
    obtain rfl : key = key' := hkey
    simp only [List.lookup_cons]
    split
    · exact .some hrel
    · exact ih

namespace Machine.Sim

variable {w : World} {m₁ m₂ : Machine} (h : m₁.Sim w m₂) {v u : Value}

include h

theorem className (hv : w.Rel v u) : m₁.className v = m₂.className u := by
  have hb := h.memory.body? hv
  unfold Machine.className
  generalize m₁.memory.body? v = r₁, m₂.memory.body? u = r₂ at hb
  cases hb with
  | none => rfl
  | some hb =>
    cases hb with
    | classInfo hc => exact hc.name
    | _ => rfl

theorem isClass (hv : w.Rel v u) : m₁.isClass v = m₂.isClass u := by
  have hb := h.memory.body? hv
  unfold Machine.isClass
  generalize m₁.memory.body? v = r₁, m₂.memory.body? u = r₂ at hb
  cases hb with
  | none => rfl
  | some hb => cases hb <;> rfl

theorem symbolName? (hv : w.Rel v u) : m₁.symbolName? v = m₂.symbolName? u := by
  have hb := h.memory.body? hv
  unfold Machine.symbolName?
  generalize m₁.memory.body? v = r₁, m₂.memory.body? u = r₂ at hb
  cases hb with
  | none => rfl
  | some hb => cases hb <;> rfl

theorem characters? (hv : w.Rel v u) : m₁.characters? v = m₂.characters? u := by
  have hb := h.memory.body? hv
  unfold Machine.characters?
  generalize m₁.memory.body? v = r₁, m₂.memory.body? u = r₂ at hb
  cases hb with
  | none => rfl
  | some hb => cases hb <;> rfl

theorem slots (hv : w.Rel v u) : Pointwise w.Rel (m₁.memory.slots v) (m₂.memory.slots u) := by
  have hb := h.memory.body? hv
  unfold Memory.slots
  generalize m₁.memory.body? v = r₁, m₂.memory.body? u = r₂ at hb
  cases hb with
  | none => exact .empty
  | some hb =>
    cases hb with
    | slots hs => exact hs
    | _ => exact .empty

theorem body (hv : w.Rel v u) : Matches (Body.Rel w) (m₁.body v) (m₂.body u) := by
  have hb := h.memory.body? hv
  unfold Machine.body
  generalize m₁.memory.body? v = r₁, m₂.memory.body? u = r₂ at hb
  cases hb with
  | none => exact .error (congrArg Fault.notAnObject hv.erase)
  | some hb => exact .ok hb

theorem classOf (hv : w.Rel v u) : Matches w.Rel (m₁.classOf v) (m₂.classOf u) := by
  have hobject := h.memory.object? hv
  have hcore := h.core
  cases hv with
  | immediate hp =>
    cases v with
    | pointer i => exact absurd hp (by simp [Value.isPointer])
    | integer n => exact .ok hcore.integer
    | float x => exact .ok hcore.float
    | nil => exact .ok hcore.undefinedObject
    | reserved x => exact .ok hcore.undefinedObject
    | bool b =>
      cases b with
      | true => exact .ok hcore.trueClass
      | false => exact .ok hcore.falseClass
  | @pointer i j hi =>
    unfold Machine.classOf
    dsimp only
    generalize m₁.memory.object? (.pointer i) = r₁, m₂.memory.object? (.pointer j) = r₂ at hobject
    cases hobject with
    | none => exact .error rfl
    | @some o₁ o₂ ho =>
      obtain ⟨header₁, body₁⟩ := o₁
      obtain ⟨header₂, body₂⟩ := o₂
      have hclass : w.Rel header₁.classRef header₂.classRef := ho.classRef
      have hbody : body₁.Rel w body₂ := ho.body
      have hplain : ∀ kind, Matches w.Rel
          (if header₁.classRef.isNil then .error (.classless kind (.pointer i))
            else .ok header₁.classRef)
          (if header₂.classRef.isNil then .error (.classless kind (.pointer j))
            else .ok header₂.classRef) := by
        intro kind
        rw [hclass.isNil]
        split_ifs
        · exact .error rfl
        · exact .ok hclass
      cases hbody with
      | classInfo _ => exact .ok (.pointer hi)
      | _ => exact hplain _

theorem ownMethod? {c₁ c₂ : ClassInfo} (hc : c₁.Rel w c₂) (selector : String) :
    Matches (Option.Rel w.Rel) (m₁.ownMethod? c₁ selector) (m₂.ownMethod? c₂ selector) := by
  refine (h.body hc.methods).bind fun b₁ b₂ hb => ?_
  cases hb with
  | dictionary ht => exact .ok (ht.get? selector)
  | _ =>
    rw [hc.name]
    exact .error rfl

theorem lookupFrom (selector : String) (fuel : Nat) (hv : w.Rel v u) :
    Matches (Option.Rel w.Rel) (m₁.lookupFrom selector fuel v) (m₂.lookupFrom selector fuel u) := by
  induction fuel generalizing v u with
  | zero => exact .ok .none
  | succ fuel ih =>
    have hb := h.memory.body? hv
    unfold Machine.lookupFrom
    generalize m₁.memory.body? v = r₁, m₂.memory.body? u = r₂ at hb
    cases hb with
    | none => exact .ok .none
    | some hb =>
      cases hb with
      | classInfo hc =>
        refine (h.ownMethod? hc selector).bind fun r₁ r₂ hr => ?_
        cases hr with
        | some hr => exact .ok (.some hr)
        | none => exact ih hc.superclass
      | _ => exact .ok .none

/-- The number of objects, which bounds the search, plays no part. -/
theorem lookup (hv : w.Rel v u) (selector : String) :
    Matches (Option.Rel w.Rel) (m₁.lookup v selector) (m₂.lookup u selector) := by
  obtain ⟨n, hn⟩ := h.memory.exists_height hv
  rw [Machine.lookup_of_height hn, Machine.lookup_of_height (h.memory.height hv hn)]
  exact h.lookupFrom selector n hv

theorem resolve (hv : w.Rel v u) (selector : String) :
    Matches (fun r₁ r₂ => w.Rel r₁.1 r₂.1 ∧ Option.Rel w.Rel r₁.2 r₂.2)
      (m₁.resolve v selector) (m₂.resolve u selector) := by
  refine (h.classOf hv).bind fun c₁ c₂ hc => ?_
  refine (h.lookup hc selector).bind fun r₁ r₂ hr => ?_
  exact .ok ⟨hc, hr⟩

theorem entry (hv : w.Rel v u) (selector : String) :
    Matches (Method.Rel w) (m₁.entry selector v) (m₂.entry selector u) := by
  refine (h.body hv).bind fun b₁ b₂ hb => ?_
  cases hb with
  | method hc => exact .ok hc
  | _ => exact .error rfl

theorem program (hv : w.Rel v u) :
    Matches (fun p₁ p₂ => p₁.1 = p₂.1 ∧ Pointwise w.Rel p₁.2 p₂.2)
      (m₁.program v) (m₂.program u) := by
  refine (h.body hv).bind fun b₁ b₂ hb => ?_
  cases hb with
  | method hc => exact .ok ⟨hc.code, hc.literals⟩
  | block hb => exact .ok ⟨hb.code, hb.literals⟩
  | _ => exact .error rfl

/-- Fresh instances correspond: which form they take depends on comparisons of
classes only. -/
theorem blank (hv : w.Rel v u) (size : Nat) : (m₁.blank v size).Rel w (m₂.blank u size) := by
  have hcompare : ∀ {c₁ c₂ : Value}, w.Rel c₁ c₂ → (v = c₁ ↔ u = c₂) :=
    fun hc => h.memory.oneToOne.eq_iff hv hc
  have hb := h.memory.body? hv
  refine ⟨hv, ?_⟩
  unfold Machine.blank HeapObject.new
  dsimp only
  rw [if_congr (hcompare h.core.array) rfl rfl, if_congr (hcompare h.core.byteArray) rfl rfl,
    if_congr (hcompare h.core.string) rfl rfl, if_congr (hcompare h.core.dictionary) rfl rfl]
  split_ifs
  · exact .array (.replicate size World.rel_nil)
  · exact .bytes _
  · exact .string _
  · exact .dictionary .nil
  · generalize m₁.memory.body? v = r₁, m₂.memory.body? u = r₂ at hb
    cases hb with
    | none => exact .slots .empty
    | some hb =>
      cases hb with
      | classInfo hc =>
        dsimp only
        rw [hc.instanceSize]
        exact .slots (.replicate _ World.rel_nil)
      | _ => exact .slots .empty

theorem homeFrom (index fuel : Nat) {id : ContextId} (hid : w.context id) :
    m₁.memory.homeFrom index fuel id = m₂.memory.homeFrom index fuel id ∧
      ∀ home, m₁.memory.homeFrom index fuel id = some home → w.context home := by
  induction fuel generalizing id with
  | zero => exact ⟨rfl, fun home hhome => absurd hhome (by simp [Memory.homeFrom])⟩
  | succ fuel ih =>
    obtain ⟨c₁, c₂, hc₁, hc₂, hc⟩ := h.memory.contexts hid
    unfold Memory.homeFrom
    simp only [hc₁, hc₂, hc.temporaries.size, ← hc.outer]
    split_ifs
    · exact ⟨rfl, fun home hhome => Option.some.inj hhome ▸ hid⟩
    · cases houter : c₁.outer with
      | none => exact ⟨rfl, fun home hhome => absurd hhome (by simp)⟩
      | some outer => exact ih (hc.shared outer (.inr houter))

theorem home? (index : Nat) {id : ContextId} (hid : w.context id) :
    m₁.memory.home? id index = m₂.memory.home? id index ∧
      ∀ home, m₁.memory.home? id index = some home → w.context home := by
  unfold Memory.home?
  rw [← h.memory.contextCount]
  exact h.homeFrom index _ hid

theorem temporary? (index : Nat) {id : ContextId} (hid : w.context id) :
    Option.Rel w.Rel (m₁.memory.temporary? id index) (m₂.memory.temporary? id index) := by
  obtain ⟨heq, hshared⟩ := h.home? index hid
  unfold Memory.temporary?
  rw [← heq]
  cases hhome : m₁.memory.home? id index with
  | none => exact .none
  | some home =>
    obtain ⟨c₁, c₂, hc₁, hc₂, hc⟩ := h.memory.contexts (hshared home hhome)
    simp only [Option.bind_eq_bind, Option.bind_some, hc₁, hc₂]
    exact hc.temporaries.getElem? index

end Machine.Sim

end ObjectMachine

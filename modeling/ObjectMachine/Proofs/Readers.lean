import ObjectMachine.Listing
import ObjectMachine.Proofs.GraphAgreement
import ObjectMachine.Proofs.IndexedRuns
import ObjectMachine.Proofs.Inheritance

/-!
# Readers do not see collections

Every machine that a host gets to corresponds to itself, and so it corresponds to what
a collection makes of it. What is held outside the objects is held there afterwards,
moved, and reads as before: it prints alike, lists alike, has a class of the same name
and finds the same methods.
-/

namespace ObjectMachine

open ObjectMachine.Action

theorem forall₂_zipIdx {α β : Type} {R : α → β → Prop} {l₁ : List α} {l₂ : List β}
    (h : List.Forall₂ R l₁ l₂) (k : Nat) :
    List.Forall₂ (fun p q => R p.1 q.1 ∧ p.2 = q.2) (l₁.zipIdx k) (l₂.zipIdx k) := by
  induction h generalizing k with
  | nil => exact .nil
  | cons hr _ ih => exact .cons ⟨hr, rfl⟩ (ih (k + 1))

namespace Machine.Sim

variable {w : World} {m₁ m₂ : Machine} (h : m₁.Sim w m₂)

include h

theorem literalLines {literals₁ literals₂ : Array Value}
    (hl : Pointwise w.Rel literals₁ literals₂) :
    Matches Eq (m₁.literalLines literals₁) (m₂.literalLines literals₂) := by
  apply Matches.mapM (forall₂_zipIdx hl.forall₂ 0)
  rintro ⟨v, i⟩ ⟨u, _⟩ ⟨hv, rfl⟩
  apply (h.printString hv).bind
  rintro text _ rfl
  exact .ok rfl

theorem codeListing (code : Code) {literals₁ literals₂ : Array Value}
    (hl : Pointwise w.Rel literals₁ literals₂) :
    Matches Eq (m₁.codeListing code literals₁) (m₂.codeListing code literals₂) := by
  apply (h.literalLines hl).bind
  rintro lines _ rfl
  exact .ok rfl

/-- The same method or block has the same listing. -/
theorem disassemble {v u : Value} (hv : w.Rel v u) :
    Matches Eq (m₁.disassemble v) (m₂.disassemble u) := by
  have hother : Matches Eq (do return (← m₁.printString v) ++ " is not code\n")
      (do return (← m₂.printString u) ++ " is not code\n") := by
    apply (h.printString hv).bind
    rintro text _ rfl
    exact .ok rfl
  have hb := h.memory.body? hv
  unfold Machine.disassemble
  generalize m₁.memory.body? v = r₁, m₂.memory.body? u = r₂ at hb
  cases hb with
  | none => exact hother
  | some hb =>
    cases hb with
    | method hc =>
      dsimp only
      rw [← hc.code]
      exact h.codeListing _ hc.literals
    | block hb =>
      dsimp only
      rw [← hb.code]
      exact h.codeListing _ hb.literals
    | _ => exact hother

end Machine.Sim

def World.identity (kept : Root → Prop) : World :=
  ⟨fun i j => kept (.value (.pointer i)) ∧ i = j, fun id => kept (.context id)⟩

section

variable {kept : Root → Prop}

theorem World.rel_identity {v : Value} (hv : kept (.value v)) : (World.identity kept).Rel v v := by
  cases v with
  | pointer i => exact .pointer ⟨hv, rfl⟩
  | _ => exact .immediate rfl

theorem World.rel_identity_array {values : Array Value} (h : ∀ v ∈ values, kept (.value v)) :
    Pointwise (World.identity kept).Rel values values := by
  refine ⟨rfl, fun k v u hv hu => ?_⟩
  obtain rfl := Option.some.inj (hv.symm.trans hu)
  exact rel_identity (h v (Array.mem_of_getElem? hv))

theorem Dictionary.rel_identity {t : Dictionary} (h : ∀ v ∈ t.values, kept (.value v)) :
    t.Rel (World.identity kept) t := by
  refine List.forall₂_same.mpr fun e he => ⟨rfl, World.rel_identity (h e.2 ?_)⟩
  exact List.mem_map_of_mem he

theorem Body.rel_identity {b : Body} (hwhole : b ≠ .husk) (h : ∀ v ∈ b.edges, kept (.value v))
    (houter : ∀ id, b.outer? = some id → kept (.context id)) :
    b.Rel (World.identity kept) b := by
  cases b with
  | slots values =>
    exact .slots (World.rel_identity_array fun v hv => h v (by simpa [edges] using hv))
  | array values =>
    exact .array (World.rel_identity_array fun v hv => h v (by simpa [edges] using hv))
  | dictionary t => exact .dictionary (Dictionary.rel_identity h)
  | classInfo c =>
    exact .classInfo ⟨rfl, World.rel_identity (h _ (by simp [edges])), rfl, rfl,
      World.rel_identity (h _ (by simp [edges]))⟩
  | method c =>
    exact .method ⟨World.rel_identity (h _ (by simp [edges])), rfl,
      World.rel_identity_array fun v hv => h v (by simp [edges, hv]), rfl,
      World.rel_identity (h _ (by simp [edges])), rfl⟩
  | block c =>
    exact .block ⟨rfl, World.rel_identity_array fun v hv => h v (by simpa [edges] using hv), rfl,
      rfl, houter⟩
  | bytes bs => exact .bytes bs
  | string s => exact .string s
  | symbol s => exact .symbol s
  | husk => exact absurd rfl hwhole

theorem HeapObject.rel_identity {o : HeapObject} (hwhole : o.body ≠ .husk)
    (h : ∀ r ∈ o.roots, kept r) : o.Rel (World.identity kept) o := by
  have hedge : ∀ v ∈ o.edges, kept (.value v) := fun v hv => h _ ((o.value_mem_roots v).mpr hv)
  refine ⟨World.rel_identity (hedge _ (List.mem_cons_self ..)), ?_⟩
  apply Body.rel_identity hwhole
  · exact fun v hv => hedge v (List.mem_cons_of_mem _ hv)
  · exact fun id hid => h _ ((o.context_mem_roots id).mpr hid)

theorem Context.rel_identity {c : Context} (h : ∀ r ∈ c.roots, kept r) :
    c.Rel (World.identity kept) c := by
  have hedge : ∀ v ∈ c.edges, kept (.value v) := fun v hv => h _ ((c.value_mem_roots v).mpr hv)
  refine ⟨World.rel_identity (hedge _ (by simp [edges])),
    World.rel_identity (hedge _ (by simp [edges])),
    World.rel_identity_array fun v hv => hedge v (by simp [edges, hv]),
    World.rel_identity_array fun v hv => hedge v (by simp [edges, hv]),
    World.rel_identity_array fun v hv => hedge v (by simp [edges, hv]), rfl, rfl, rfl, ?_⟩
  exact fun id hid => h _ ((c.context_mem_roots id).mpr hid)

end

section

variable {m : Machine}

namespace Machine.Ranked

variable (hm : m.Ranked)

include hm

theorem exists_object {i : Nat} (hi : m.Alive (.value (.pointer i))) :
    ∃ o, m.memory.objects[i]? = some o ∧ o.body ≠ .husk := by
  obtain ⟨inUse, h⟩ := hm.intact
  have hrange := Memory.Intact.inRange_of_held (h.memory.held_of_reaches h.roots hi)
  have ho := Array.getElem?_eq_getElem (show i < m.memory.objects.size from hrange)
  exact ⟨_, ho, (h.memory.objects i _ ho).whole⟩

theorem exists_context {id : ContextId} (hid : m.Alive (.context id)) :
    ∃ c, m.memory.contexts[id]? = some c := by
  obtain ⟨inUse, h⟩ := hm.intact
  obtain ⟨c, hc, -⟩ := h.memory.contexts id (h.memory.held_of_reaches h.roots hid)
  exact ⟨c, hc⟩

theorem inRange {r : Root} (hr : m.Alive r) : m.memory.InRange r := by
  obtain ⟨inUse, h⟩ := hm.intact
  exact Memory.Intact.inRange_of_held (h.memory.held_of_reaches h.roots hr)

theorem sim_self : m.Sim (.identity m.Alive) m := by
  have hroot : ∀ v, .value v ∈ m.roots → m.Alive (.value v) := fun v hv => .root hv
  have hepochs := hm.intact.epochs
  constructor
  case memory =>
    refine ⟨⟨?_, ?_⟩, ?_, ?_, rfl, ?_, hepochs, hepochs⟩
    · rintro i _ _ ⟨-, rfl⟩ ⟨-, rfl⟩
      rfl
    · rintro i _ _ ⟨-, rfl⟩ ⟨-, rfl⟩
      rfl
    · rintro i _ ⟨hi, rfl⟩
      obtain ⟨o, ho, hwhole⟩ := hm.exists_object hi
      refine ⟨o, o, ho, ho, HeapObject.rel_identity hwhole fun r hr => .step hi ?_⟩
      rwa [Memory.mem_next_pointer ho]
    · rintro i _ ⟨hi, rfl⟩
      obtain ⟨vs, hvs⟩ := hm.hierarchy.exists_ancestry (.pointer i)
      exact ⟨_, hvs.height⟩
    · intro id hid
      obtain ⟨c, hc⟩ := hm.exists_context hid
      refine ⟨c, c, hc, hc, Context.rel_identity fun r hr => .step hid ?_⟩
      rwa [Memory.mem_next_context hc]
  case core =>
    refine CoreClasses.rel_iff.mpr (List.forall₂_same.mpr fun v hv => ?_)
    exact World.rel_identity (hroot v (value_mem_roots.mpr (.inl hv)))
  case globals =>
    exact Dictionary.rel_identity fun v hv => hroot v (value_mem_roots.mpr (.inr (.inl hv)))
  case symbols =>
    exact Dictionary.rel_identity fun v hv => hroot v (value_mem_roots.mpr (.inr (.inr (.inl hv))))
  case scratch =>
    exact World.rel_identity_array fun v hv =>
      hroot v (value_mem_roots.mpr (.inr (.inr (.inr hv))))
  case shared => exact fun id hid => .root (context_mem_roots.mpr hid)
  all_goals rfl

end Machine.Ranked

end

/-- A place outside the objects where a value is held. -/
inductive RootSlot where
  | core (k : Nat)
  | global (name : String)
  | symbol (name : String)
  | scratch (k : Nat)
  /-- The method and the receiver of a context come first, then its arguments, its
  temporaries and its operands. -/
  | context (id : ContextId) (k : Nat)

namespace RootSlot

def value? (m : Machine) : RootSlot → Option Value
  | core k => m.core.values[k]?
  | global name => m.globals.get? name
  | symbol name => m.symbols.get? name
  | scratch k => m.scratch[k]?
  | context id k => (m.memory.contexts[id]?).bind fun c => c.edges[k]?

/-- Contexts count as long as something leads to them. -/
def InUse (m : Machine) : RootSlot → Prop
  | context id _ => m.Alive (.context id)
  | _ => True

variable {m m' : Machine} {p : RootSlot} {v : Value}

theorem alive (hp : p.InUse m) (hv : p.value? m = some v) : m.Alive (.value v) := by
  cases p with
  | core k => exact .root (Machine.value_mem_roots.mpr (.inl (List.mem_of_getElem? hv)))
  | global name =>
    exact .root (Machine.value_mem_roots.mpr (.inr (.inl (Dictionary.mem_values_of_get? hv))))
  | symbol name =>
    exact .root (Machine.value_mem_roots.mpr
      (.inr (.inr (.inl (Dictionary.mem_values_of_get? hv)))))
  | scratch k =>
    exact .root (Machine.value_mem_roots.mpr (.inr (.inr (.inr (Array.mem_of_getElem? hv)))))
  | context id k =>
    obtain ⟨c, hc, hk⟩ := Option.bind_eq_some_iff.mp hv
    refine .step hp ?_
    rw [Memory.mem_next_context hc]
    exact (c.value_mem_roots v).mpr (List.mem_of_getElem? hk)

/-- A slot that is in use holds the same value, moved. -/
theorem value?_moved {f : Nat → Nat} (h : Moved m.Alive f m m') (hp : p.InUse m)
    (hv : p.value? m = some v) : p.value? m' = some (v.rename f) := by
  cases p with
  | core k =>
    have hv : m.core.values[k]? = some v := hv
    simp [value?, h.core, CoreClasses.values_map, hv]
  | global name =>
    have hv : m.globals.get? name = some v := hv
    rw [value?, h.globals, Dictionary.get?_map, hv, Option.map_some]
  | symbol name =>
    have hv : m.symbols.get? name = some v := hv
    rw [value?, h.symbols, Dictionary.get?_map, hv, Option.map_some]
  | scratch k =>
    have hv : m.scratch[k]? = some v := hv
    simp [value?, h.scratch, hv]
  | context id k =>
    obtain ⟨c, hc, hk⟩ := Option.bind_eq_some_iff.mp hv
    obtain ⟨epoch, hc'⟩ := h.contexts id c hp hc
    have hedges : Context.edges { c.mapEdges (Value.rename f) with epoch } =
        c.edges.map (Value.rename f) := by
      simp [Context.mapEdges_eq, Context.edges]
    rw [value?, hc', Option.bind_some, hedges, List.getElem?_map, hk, Option.map_some]

end RootSlot

/-- Reading the value in the one machine and its image in the other gives the same. -/
structure ReadsAlike (f : Nat → Nat) (m : Machine) (v : Value) (m' : Machine) (v' : Value) :
    Prop where
  printed : Matches Eq (m.printString v) (m'.printString v')
  listed : Matches Eq (m.disassemble v) (m'.disassemble v')
  className : Matches Eq (m.classNameOf v) (m'.classNameOf v')
  /-- The class, and the method that it finds for a selector. -/
  found : ∀ selector, Matches (fun r r' => r' = (r.1.rename f, r.2.map (Value.rename f)))
    (m.resolve v selector) (m'.resolve v' selector)

theorem Matches.mono {α β : Type} {A B : α → β → Prop} {x : Except Fault α} {y : Except Fault β}
    (h : Matches A x y) (hAB : ∀ a b, A a b → B a b) : Matches B x y := by
  cases h with
  | ok h => exact .ok (hAB _ _ h)
  | error h => exact .error h

namespace Machine.Sim

variable {w : World} {f : Nat → Nat} {m m' : Machine} (h : m.Sim w m')

include h

theorem rel_of_alive (hf : w.Follows f) {v : Value} (hv : m.Alive (.value v)) :
    w.Rel v (v.rename f) := by
  obtain ⟨s, -, hrel⟩ := h.memory.partner_left h.roots hv
  cases hrel with
  | value hrel => exact hrel.eq_rename hf ▸ hrel

theorem readsAlike (hf : w.Follows f) {v v' : Value} (hv : w.Rel v v') :
    ReadsAlike f m v m' v' := by
  refine ⟨h.printString hv, h.disassemble hv, h.classNameOf hv, fun selector => ?_⟩
  refine (h.resolve hv selector).mono ?_
  rintro ⟨c, found⟩ ⟨c', found'⟩ ⟨hc, hfound⟩
  refine Prod.ext (hc.eq_rename hf) ?_
  cases hfound with
  | none => rfl
  | some hx => exact congrArg some (hx.eq_rename hf)

end Machine.Sim

/-- Collecting at any time, also in the middle of a program, stops for lack of address
space or moves what is in use by a renaming. Every value that is held outside the
objects is then held where it was, renamed, and reads as before. -/
theorem collections_change_no_reading {m : Machine} (h : Occurs (Operation.Admitted .free) m) :
    (collectGarbage m = .error (.fault .multiplicationOverflow) m.afterFailedCollection ∧
      m.memory.CapacityOverflow) ∨
    ∃ m' f, collectGarbage m = .ok () m' ∧ SameGraph f m m' ∧
      ∀ (p : RootSlot) v, p.InUse m → p.value? m = some v →
        p.value? m' = some (v.rename f) ∧ ReadsAlike f m v m' (v.rename f) := by
  have hm := h.ranked
  rcases collectGarbage_moves (fun r hr => hm.inRange hr) h.epochs with
    hover | ⟨kept, f, m', hmoved, hcollect⟩
  · exact .inl hover
  · right
    have hsim := hm.sim_self.displace (.still h.epochs) hmoved
    have hf : ((World.identity m.Alive).displace (fun _ => True) id kept f).Follows f := by
      rintro _ _ ⟨i, _, ⟨-, rfl⟩, -, -, rfl, rfl⟩
      rfl
    have hmoved := hsim.moved hf
    refine ⟨m', f, hcollect, ⟨hmoved, fun r hr => hm.inRange hr, hsim.bijOn hf⟩, ?_⟩
    intro p v hp hv
    exact ⟨p.value?_moved hmoved hp hv, hsim.readsAlike hf (hsim.rel_of_alive hf (p.alive hp hv))⟩

theorem Operation.installCountdown_admitted {m : Machine} (h : m.isClass (m.named "Integer")) :
    (Operation.installCountdown m).Admitted .free m := by
  apply admitted_free _ rfl
  intro v hv
  obtain rfl | hv := List.mem_cons.mp hv
  · exact Machine.HasClass.live (Primitive.isClass_stamp h)
  · have hv : v ∈ [.integer (.ofByte 0), .nil, .integer (.ofByte 1), .nil] := hv
    simp only [List.mem_cons, List.not_mem_nil, or_false] at hv
    rcases hv with rfl | rfl | rfl | rfl <;> trivial

/-- The countdown is under way when a collection moves its method. -/
theorem moved_countdown_reads_alike : ∃ m m' f v, Occurs (Operation.Admitted .free) m ∧
    (∃ id, m.active = some id ∧ (RootSlot.context id 0).value? m = some v ∧
      (RootSlot.context id 0).value? m' = some (v.rename f)) ∧
    collectGarbage m = .ok () m' ∧ v.rename f ≠ v ∧
    m.printString v = .ok "Integer>>countdown" ∧
    m'.printString (v.rename f) = .ok "Integer>>countdown" ∧
    ReadsAlike f m v m' (v.rename f) := by
  have hboots : boots .tight 5 (fun m₀ =>
      let m₁ := after (Operation.newString "garbage").run m₀
      let m₂ := after (Operation.installCountdown m₁).run m₁
      let m := after (Operation.send 5 (.integer (.ofByte 3)) "countdown" #[]).run m₂
      Action.answers collectGarbage m fun _ m' =>
        decide (m₁.isClass (m₁.named "Integer") ∧ m.active = some 0 ∧
          ((RootSlot.context 0 0).value? m).map (fun v => (m.printString v).toOption) =
            some (some "Integer>>countdown") ∧
          (RootSlot.context 0 0).value? m' ≠ (RootSlot.context 0 0).value? m)) = true := by
    decide +kernel
  obtain ⟨m₀, hboot, htest⟩ := exists_of_boots hboots
  obtain ⟨_, m', hcollect, htest⟩ := Action.exists_of_answers htest
  obtain ⟨hclass, hactive, hprinted, hmoved⟩ := of_decide_eq_true htest
  have hgarbage := Attained.operated (.boot hboot) (Operation.newString_admitted "garbage" m₀)
  have h₂ := hgarbage.operated (Operation.installCountdown_admitted hclass)
  have hsend : ∀ m, (Operation.send 5 (.integer (.ofByte 3)) "countdown" #[]).Admitted .free m :=
    fun m => Operation.admitted_free (by simp [Operation.values, Memory.Live]) rfl
  have hm := Occurs.attained (Attained.operated h₂ (hsend _))
  generalize after (Operation.send _ _ _ _).run _ = m at *
  rcases collections_change_no_reading hm with ⟨hover, -⟩ | ⟨m'', f, hok, -, hreads⟩
  · rw [hcollect] at hover
    cases hover
  · rw [hcollect] at hok
    cases hok
    obtain ⟨v, hv, hprint⟩ := Option.map_eq_some_iff.mp hprinted
    have hprint := eq_ok_of_toOption hprint
    have hroot := Machine.context_mem_roots.mpr hactive
    obtain ⟨hv', halike⟩ := hreads (.context 0 0) v (.root hroot) hv
    have hprinted' := halike.printed
    rw [hprint] at hprinted'
    refine ⟨m, m', f, v, hm, ⟨0, hactive, hv, hv'⟩, hcollect, ?_, hprint, ?_, halike⟩
    · rw [hv, hv'] at hmoved
      exact fun heq => hmoved (congrArg some heq)
    · cases h : m'.printString (v.rename f) with
      | ok s =>
        rw [h] at hprinted'
        cases hprinted' with
        | ok heq => rw [heq]
      | error e =>
        rw [h] at hprinted'
        cases hprinted'

end ObjectMachine

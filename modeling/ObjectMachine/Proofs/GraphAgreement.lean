import ObjectMachine.Proofs.Displacement

/-!
# Corresponding machines hold the same graph

A world pairs places, and where two machines correspond in it the pairing is a
renaming: it takes everything that the first machine reaches to what the second
reaches, one to one, and leaves no difference but the headers' ages and flags.
-/

namespace ObjectMachine

variable {w : World} {f : Nat → Nat}

/-- The renaming takes every place to its partner. -/
def World.Follows (w : World) (f : Nat → Nat) : Prop := ∀ {i j : Nat}, w.index i j → f i = j

theorem World.OneToOne.exists_follows (hw : w.OneToOne) : ∃ f, w.Follows f := by
  have hpartner : ∀ i, ∃ k, ∀ j, w.index i j → k = j := by
    intro i
    by_cases hi : ∃ j, w.index i j
    · obtain ⟨k, hk⟩ := hi
      exact ⟨k, fun j hj => hw.left hk hj⟩
    · -- a place without a partner may go anywhere
      exact ⟨0, fun j hj => absurd ⟨j, hj⟩ hi⟩
  choose f hf using hpartner
  exact ⟨f, fun hij => hf _ _ hij⟩

theorem World.Rel.eq_rename (hf : w.Follows f) {v u : Value} (h : w.Rel v u) : u = v.rename f := by
  cases h with
  | pointer hij => exact congrArg Value.pointer (hf hij).symm
  | immediate hp => exact (Value.rename_of_immediate hp f).symm

theorem World.Follows.eq_map (hf : w.Follows f) {vs us : List Value}
    (h : List.Forall₂ w.Rel vs us) : us = vs.map (Value.rename f) := by
  induction h with
  | nil => rfl
  | cons hrel _ ih => rw [hrel.eq_rename hf, ih, List.map_cons]

theorem Pointwise.eq_map (hf : w.Follows f) {a b : Array Value} (h : Pointwise w.Rel a b) :
    b = a.map (Value.rename f) := by
  apply Array.toList_inj.mp
  rw [Array.toList_map]
  exact hf.eq_map h.forall₂

theorem Dictionary.Rel.eq_map (hf : w.Follows f) {t₁ t₂ : Dictionary} (h : t₁.Rel w t₂) :
    t₂ = t₁.map (Value.rename f) := by
  obtain ⟨es₁⟩ := t₁
  obtain ⟨es₂⟩ := t₂
  apply congrArg Dictionary.mk
  change List.Forall₂ _ es₁ es₂ at h
  induction h with
  | nil => rfl
  | @cons e₁ e₂ _ _ he _ ih =>
    rw [ih, List.map_cons]
    exact congrArg (· :: _) (Prod.ext he.1.symm (he.2.eq_rename hf))

theorem CoreClasses.Rel.eq_map (hf : w.Follows f) {c₁ c₂ : CoreClasses} (h : c₁.Rel w c₂) :
    c₂ = c₁.map (Value.rename f) := by
  obtain ⟨⟩ := c₂
  simp only [CoreClasses.map, CoreClasses.mk.injEq]
  exact ⟨h.object.eq_rename hf, h.undefinedObject.eq_rename hf, h.trueClass.eq_rename hf,
    h.falseClass.eq_rename hf, h.integer.eq_rename hf, h.float.eq_rename hf,
    h.string.eq_rename hf, h.symbol.eq_rename hf, h.block.eq_rename hf, h.array.eq_rename hf,
    h.byteArray.eq_rename hf, h.dictionary.eq_rename hf, h.method.eq_rename hf⟩

theorem Body.Rel.eq_map (hf : w.Follows f) {b₁ b₂ : Body} (h : b₁.Rel w b₂) :
    b₂ = b₁.map (Value.rename f) := by
  cases h with
  | slots h => exact congrArg Body.slots (h.eq_map hf)
  | array h => exact congrArg Body.array (h.eq_map hf)
  | dictionary h => exact congrArg Body.dictionary (h.eq_map hf)
  | @classInfo c₁ c₂ h =>
    obtain ⟨⟩ := c₂
    simp only [Body.map, Body.classInfo.injEq, ClassInfo.mk.injEq]
    exact ⟨h.name.symm, h.superclass.eq_rename hf, h.ownVariables.symm, h.instanceSize.symm,
      h.methods.eq_rename hf⟩
  | @method c₁ c₂ h =>
    obtain ⟨⟩ := c₂
    simp only [Body.map, Body.method.injEq, Method.mk.injEq]
    exact ⟨h.selector.eq_rename hf, h.code.symm, h.literals.eq_map hf, h.temporaries.symm,
      h.owner.eq_rename hf, h.primitive.symm⟩
  | @block b₁ b₂ h =>
    obtain ⟨⟩ := b₂
    simp only [Body.map, Body.block.injEq, Block.mk.injEq]
    exact ⟨h.code.symm, h.literals.eq_map hf, h.temporaryCount.symm, h.outer.symm⟩
  | bytes _ | string _ | symbol _ => rfl

theorem Context.Rel.eq_mapEdges (hf : w.Follows f) {c₁ c₂ : Context} (h : c₁.Rel w c₂) :
    c₂ = { c₁.mapEdges (Value.rename f) with epoch := c₂.epoch } := by
  obtain ⟨⟩ := c₂
  rw [mapEdges_eq]
  simp only [Context.mk.injEq]
  exact ⟨h.method.eq_rename hf, h.receiver.eq_rename hf, h.args.eq_map hf,
    h.temporaries.eq_map hf, h.stack.eq_map hf, h.pc.symm, h.sender.symm, h.outer.symm, trivial⟩

def Machine.Alive (m : Machine) (r : Root) : Prop := m.memory.Reaches m.roots r

/-- Everything that `m` keeps alive is there, and the renaming `f` is a bijection
onto what `m'` keeps alive that respects all but the headers' ages and flags. -/
structure SameGraph (f : Nat → Nat) (m m' : Machine) : Prop extends Moved m.Alive f m m' where
  inRange : ∀ r, m.Alive r → m.memory.InRange r
  bijection : Set.BijOn f {i | m.Alive (.value (.pointer i))} {j | m'.Alive (.value (.pointer j))}

namespace Machine.Sim

variable {m₁ m₂ : Machine} (h : m₁.Sim w m₂)

include h

theorem exists_right {i : Nat} (hi : m₁.Alive (.value (.pointer i))) :
    ∃ j, m₂.Alive (.value (.pointer j)) ∧ w.index i j := by
  obtain ⟨s, hs, hrel⟩ := h.memory.partner_left h.roots hi
  cases hrel with
  | value hrel =>
    cases hrel with
    | pointer hij => exact ⟨_, hs, hij⟩
    | immediate hp => cases hp

theorem exists_left {j : Nat} (hj : m₂.Alive (.value (.pointer j))) :
    ∃ i, m₁.Alive (.value (.pointer i)) ∧ w.index i j := by
  obtain ⟨r, hr, hrel⟩ := h.memory.partner_right h.roots hj
  cases hrel with
  | value hrel =>
    cases hrel with
    | pointer hij => exact ⟨_, hr, hij⟩
    | immediate hp => cases hp

theorem bijOn (hf : w.Follows f) :
    Set.BijOn f {i | m₁.Alive (.value (.pointer i))} {j | m₂.Alive (.value (.pointer j))} := by
  refine ⟨?_, ?_, ?_⟩
  · intro i hi
    obtain ⟨j, hj, hij⟩ := h.exists_right hi
    rw [hf hij]
    exact hj
  · intro i hi i' hi' heq
    obtain ⟨j, -, hij⟩ := h.exists_right hi
    obtain ⟨j', -, hij'⟩ := h.exists_right hi'
    rw [hf hij, hf hij'] at heq
    exact h.memory.oneToOne.right hij (heq ▸ hij')
  · intro j hj
    obtain ⟨i, hi, hij⟩ := h.exists_left hj
    exact ⟨i, hi, hf hij⟩

theorem moved (hf : w.Follows f) : Moved m₁.Alive f m₁ m₂ where
  roots _ hr := .root hr
  closed _ hr _ hs := .step hr hs
  injective := (h.bijOn hf).injOn
  objects i o hi ho := by
    obtain ⟨j, -, hij⟩ := h.exists_right hi
    obtain ⟨o₁, o₂, ho₁, ho₂, hrel⟩ := h.memory.objects hij
    obtain rfl : o₁ = o := Option.some.inj (ho₁.symm.trans ho)
    refine ⟨o₂.header, hrel.classRef.eq_rename hf, ?_⟩
    rw [hf hij, ho₂, ← hrel.body.eq_map hf]
  contexts id c hid hc := by
    obtain ⟨s, -, hrel⟩ := h.memory.partner_left h.roots hid
    cases hrel with
    | context hshared =>
      obtain ⟨c₁, c₂, hc₁, hc₂, hrel⟩ := h.memory.contexts hshared
      obtain rfl : c₁ = c := Option.some.inj (hc₁.symm.trans hc)
      exact ⟨c₂.epoch, by rw [hc₂, ← hrel.eq_mapEdges hf]⟩
  contextCount := h.memory.contextCount.symm
  epochs := h.memory.right
  core := h.core.eq_map hf
  globals := h.globals.eq_map hf
  symbols := h.symbols.eq_map hf
  scratch := h.scratch.eq_map hf
  active := h.active.symm
  depth := h.depth.symm
  maxDepth := h.maxDepth.symm

theorem exists_sameGraph : ∃ f, SameGraph f m₁ m₂ := by
  obtain ⟨f, hf⟩ := h.memory.oneToOne.exists_follows
  exact ⟨f, h.moved hf, h.memory.inRange_left h.roots, h.bijOn hf⟩

end Machine.Sim

end ObjectMachine

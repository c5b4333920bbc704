import ObjectMachine.Proofs.Trails

/-!
# Who takes operands

Only instructions take operands, so only running code can find that there are too
few. Collections, the making of objects and all that a host does without a program
stop for other reasons.
-/

namespace ObjectMachine

open ObjectMachine.Action

def Stop.starved : Stop → Bool
  | raised (.nilReceiver _) => true
  | fault f => f.starved
  | _ => false

theorem Memory.collect_fed (mem : Memory) (roots : List Root) : Fed (mem.collect roots) := by
  intro f hf
  cases Memory.collectionFault_of_collect hf with
  | dangling v => rfl
  | overflow => rfl

/-- An action that never stops for want of operands. -/
def Sated {α : Type} (x : Action α) : Prop := ∀ m s m', x m = .error s m' → s.starved = false

namespace Sated

variable {α β : Type} {x : Action α}

protected theorem pure (a : α) : Sated (pure a : Action α) := by
  intro m s m' h
  cases h

theorem modify (g : Machine → Machine) : Sated (modify g) := by
  intro m s m' h
  cases h

theorem fail {f : Fault} (hf : f.starved = false) : Sated (Action.fail f : Action α) := by
  intro m s m' h
  cases h
  exact hf

theorem ofExcept {r : Except Fault α} (hr : Fed r) : Sated (Action.ofExcept r) := by
  cases r with
  | ok a => exact .pure a
  | error f => exact .fail (hr f rfl)

protected theorem bind (hx : Sated x) {f : α → Action β} (hf : ∀ a, Sated (f a)) :
    Sated (x >>= f) := by
  intro m s m' h
  cases hr : x m with
  | ok a m₁ =>
    rw [bind_ok hr] at h
    exact hf a _ _ _ h
  | error s₁ m₁ =>
    rw [bind_error hr] at h
    cases h
    exact hx _ _ _ hr

theorem get_bind {f : Machine → Action β} (hf : ∀ m, Sated (f m)) : Sated (get >>= f) :=
  fun m => hf m m

theorem allocate (o : HeapObject) : Sated (allocate o) := by
  intro m s m' h
  rcases allocate_places o m with ⟨d, v, m₁, -, heq⟩ | ⟨f, hf, heq⟩
  · rw [heq] at h
    cases h
  · rw [heq] at h
    cases h
    exact m.memory.collect_fed _ f hf

theorem collectGarbage : Sated collectGarbage := by
  intro m s m' h
  unfold ObjectMachine.collectGarbage at h
  cases hc : m.memory.collect m.roots with
  | error f =>
    rw [hc] at h
    cases h
    exact m.memory.collect_fed _ f hc
  | ok c =>
    rw [hc] at h
    cases h

theorem made (o : Machine → HeapObject) : Sated (get >>= fun m => ObjectMachine.allocate (o m)) :=
  get_bind fun m => allocate (o m)

theorem intern (name : String) : Sated (intern name) := by
  apply get_bind
  intro m
  cases m.symbols.get? name with
  | some v => exact .pure v
  | none =>
    apply get_bind
    intro m
    apply (allocate _).bind
    intro v
    exact (modify _).bind fun _ => .pure v

theorem newClass (name : String) (superclass : Value) (ownVariables : List String) :
    Sated (newClass name superclass ownVariables) := by
  apply (modify _).bind
  intro _
  apply get_bind
  intro m
  apply (allocate _).bind
  intro methods
  apply Sated.bind
  · apply get_bind
    intro m
    exact (modify _).bind fun _ => .pure _
  intro superclass
  apply get_bind
  intro m
  apply (allocate _).bind
  intro v
  exact (modify _).bind fun _ => .pure v

theorem fill (literals : List Literal) (place : Nat) : Sated (Draft.fill literals place) := by
  induction literals generalizing place with
  | nil => exact .pure ()
  | cons literal rest ih =>
    cases literal with
    | value v => exact ih _
    | symbol name =>
      apply (intern name).bind
      intro v
      exact (modify _).bind fun _ => ih _
    | string s =>
      apply (made _).bind
      intro v
      exact (modify _).bind fun _ => ih _

theorem build (d : Draft) : Sated d.build := by
  apply get_bind
  intro m
  apply (modify _).bind
  intro _
  apply (fill _ _).bind
  intro _
  apply (intern _).bind
  intro selector
  apply get_bind
  intro m
  apply (made _).bind
  intro v
  exact (modify _).bind fun _ => .pure v

theorem defineMethod (classRef : Value) (selector : String) (method : Value) :
    Sated (defineMethod classRef selector method) := by
  apply get_bind
  intro m
  apply (ofExcept (m.body_fed classRef)).bind
  intro body
  cases body with
  | classInfo c =>
    apply (ofExcept (m.body_fed c.methods)).bind
    intro body
    cases body with
    | dictionary d => exact modify _
    | _ => exact .fail rfl
  | _ => exact .fail rfl

theorem install (d : Draft) : Sated d.install := by
  apply (build d).bind
  intro v
  apply get_bind
  intro m
  apply (ofExcept (m.body_fed v)).bind
  intro body
  cases body with
  | method c =>
    apply (defineMethod _ _ _).bind
    intro _
    exact (modify _).bind fun _ => .pure v
  | _ => exact .fail rfl

end Sated

/-- An operation starts a program, or it wants no operands. -/
theorem Operation.launches_or_sated (op : Operation) (m : Machine) :
    (∃ fuel start m₁, op.Launches m fuel start m₁) ∨
      ∀ s m', op.run m = .error s m' → s.starved = false := by
  cases op with
  | send => exact .inl ⟨_, _, _, .send ..⟩
  | executeMethod => exact .inl ⟨_, _, _, .executeMethod ..⟩
  | callBlock => exact .inl ⟨_, _, _, .callBlock ..⟩
  | evaluate fuel draft =>
    cases hbuild : draft.build m with
    | ok method m' => exact .inl ⟨_, _, _, .evaluate hbuild⟩
    | error s m' =>
      right
      rw [run, ObjectMachine.evaluate, bind_error hbuild]
      intro s' m₁ h
      cases h
      exact Sated.build draft m s m' hbuild
  | newClass name superclass ownVariables =>
    exact .inr (Sated.newClass name superclass ownVariables m)
  | install draft => exact .inr (Sated.install draft m)
  | intern name => exact .inr (Sated.intern name m)
  | setGlobal | setScratch => exact .inr ((Sated.modify _).bind (fun _ => .pure _) m)
  | collectGarbage => exact .inr (Sated.collectGarbage.bind (fun _ => .pure _) m)
  | _ => exact .inr (Sated.made _ m)

end ObjectMachine

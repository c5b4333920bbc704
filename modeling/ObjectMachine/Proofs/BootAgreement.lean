import ObjectMachine.Bootstrap
import ObjectMachine.Proofs.Agreement
import ObjectMachine.Proofs.FirstClasses

/-!
# Fresh machines correspond

Two machines that start with different amounts of memory may collect at
different moments while their first classes and methods are made. When both are
complete they correspond.
-/

namespace ObjectMachine

variable {w : World}

def World.empty : World := ⟨fun _ _ => False, fun _ => False⟩

theorem Machine.new_sim {settings₁ settings₂ : Settings} {maxDepth : Nat} {m₁ m₂ : Machine}
    (h₁ : Machine.new settings₁ maxDepth = .ok m₁) (h₂ : Machine.new settings₂ maxDepth = .ok m₂) :
    m₁.Sim .empty m₂ := by
  rw [Machine.eq_of_new h₁, Machine.eq_of_new h₂]
  constructor
  case memory =>
    constructor
    case oneToOne => exact ⟨fun hij => hij.elim, fun hij => hij.elim⟩
    case objects => exact fun hij => hij.elim
    case grounded => exact fun hij => hij.elim
    case contextCount => rfl
    case contexts => exact fun hid => hid.elim
    case left => exact fun id c hc => absurd hc (by simp)
    case right => exact fun id c hc => absurd hc (by simp)
  case core => constructor <;> exact World.rel_nil
  case globals => exact .nil
  case symbols => exact .nil
  case scratch => exact .empty
  case active => rfl
  case shared => exact fun id hid => nomatch hid
  case depth => rfl
  case maxDepth => rfl

theorem addCoreClass_agrees (name : String) {superclass : CoreClasses → Value}
    {note : CoreClasses → Value → CoreClasses}
    (hsuper : ∀ {w c₁ c₂}, CoreClasses.Rel w c₁ c₂ → w.Rel (superclass c₁) (superclass c₂))
    (hnote : ∀ {w c₁ c₂ v u}, CoreClasses.Rel w c₁ c₂ → w.Rel v u →
      (note c₁ v).Rel w (note c₂ u)) :
    Agrees w (fun _ => Anything) (addCoreClass name superclass note)
      (addCoreClass name superclass note) := by
  apply Agrees.read
  intro m₁ m₂ h
  apply (newClass_agrees name (hsuper h.core) []).bind
  intro w' v u hv
  apply Agrees.discard
  exact .change fun m₁ m₂ h => { h with core := hnote h.core hv }

theorem addCoreClasses_agrees :
    Agrees w (fun _ => Anything) addCoreClasses addCoreClasses := by
  have hnil : ∀ {w : World} {c₁ c₂}, CoreClasses.Rel w c₁ c₂ → w.Rel .nil .nil :=
    fun _ => World.rel_nil
  have hobject : ∀ {w c₁ c₂}, CoreClasses.Rel w c₁ c₂ → w.Rel c₁.object c₂.object :=
    fun h => h.object
  have hstring : ∀ {w c₁ c₂}, CoreClasses.Rel w c₁ c₂ → w.Rel c₁.string c₂.string :=
    fun h => h.string
  unfold addCoreClasses
  refine .bind (addCoreClass_agrees _ hnil fun h hv => { h with object := hv }) fun _ _ _ _ => ?_
  refine .bind (addCoreClass_agrees _ hobject fun h hv => { h with undefinedObject := hv })
    fun _ _ _ _ => ?_
  refine .bind (addCoreClass_agrees _ hobject fun h hv => { h with trueClass := hv })
    fun _ _ _ _ => ?_
  refine .bind (addCoreClass_agrees _ hobject fun h hv => { h with falseClass := hv })
    fun _ _ _ _ => ?_
  refine .bind (addCoreClass_agrees _ hobject fun h hv => { h with integer := hv })
    fun _ _ _ _ => ?_
  refine .bind (addCoreClass_agrees _ hobject fun h hv => { h with float := hv }) fun _ _ _ _ => ?_
  refine .bind (addCoreClass_agrees _ hobject fun h hv => { h with string := hv }) fun _ _ _ _ => ?_
  refine .bind (addCoreClass_agrees _ hstring fun h hv => { h with symbol := hv }) fun _ _ _ _ => ?_
  refine .bind (addCoreClass_agrees _ hobject fun h hv => { h with block := hv }) fun _ _ _ _ => ?_
  refine .bind (addCoreClass_agrees _ hobject fun h hv => { h with array := hv }) fun _ _ _ _ => ?_
  refine .bind (addCoreClass_agrees _ hobject fun h hv => { h with byteArray := hv })
    fun _ _ _ _ => ?_
  refine .bind (addCoreClass_agrees _ hobject fun h hv => { h with dictionary := hv })
    fun _ _ _ _ => ?_
  exact addCoreClass_agrees _ hobject fun h hv => { h with method := hv }

theorem HeapObject.Rel.adopt {o₁ o₂ : HeapObject} (h : o₁.Rel w o₂) {c₁ c₂ : Value}
    (hc : w.Rel c₁ c₂) : (o₁.adopt c₁).Rel w (o₂.adopt c₂) := by
  obtain ⟨header₁, body₁⟩ := o₁
  obtain ⟨header₂, body₂⟩ := o₂
  have hkeep := h
  obtain ⟨hclass, hbody⟩ := h
  cases hbody with
  | dictionary ht =>
    unfold HeapObject.adopt
    dsimp only
    rw [show header₁.classRef.isNil = header₂.classRef.isNil from hclass.isNil]
    split_ifs
    · exact ⟨hc, .dictionary ht⟩
    · exact hkeep
  | _ => exact hkeep

theorem adoptDictionaries_agrees :
    Agrees w (Still w Anything) adoptDictionaries adoptDictionaries := by
  apply Agrees.change
  intro m₁ m₂ h
  apply h.withMemory (.refl w)
  constructor
  case oneToOne => exact h.memory.oneToOne
  case objects =>
    intro i j hij
    obtain ⟨o₁, o₂, ho₁, ho₂, hrel⟩ := h.memory.objects hij
    simp only [Array.getElem?_map, ho₁, ho₂]
    exact ⟨_, _, rfl, rfl, hrel.adopt h.core.dictionary⟩
  case grounded =>
    intro i j hij
    obtain ⟨n, hn⟩ := h.memory.grounded hij
    use n
    apply hn.of_body?_eq
    intro v
    cases v with
    | pointer i =>
      simp only [Memory.body?, Memory.object?, Array.getElem?_map, Option.map_map]
      congr 1
      funext o
      exact o.adopt_body m₁.core.dictionary
    | _ => rfl
  case contextCount => exact h.memory.contextCount
  case contexts => exact h.memory.contexts
  case left => exact h.memory.left
  case right => exact h.memory.right

theorem draftFor_agrees (className selector : String) :
    Agrees w (Still w fun d₁ d₂ => w.OneToOne ∧ d₁.Rel w d₂) (draftFor className selector)
      (draftFor className selector) := by
  apply Agrees.read
  intro m₁ m₂ h
  exact .pure ⟨rfl, h.memory.oneToOne, getD_rel (h.globals.get? className), rfl, .empty, rfl, rfl,
    rfl⟩

theorem installPrimitive_agrees (className selector : String) (primitive : Nat) :
    Agrees w (fun _ => Anything) (installPrimitive className selector primitive)
      (installPrimitive className selector primitive) := by
  apply (draftFor_agrees className selector).bind_still
  rintro d₁ d₂ ⟨-, hd⟩
  have hprimitive : Draft.Rel w { d₁ with primitive := some primitive }
      { d₂ with primitive := some primitive } := { hd with primitive := rfl }
  apply (Draft.install_agrees hprimitive).bind
  exact fun _ _ _ _ => .pure trivial

theorem Draft.Rel.emit {d₁ d₂ : Draft} (h : d₁.Rel w d₂) (i : Instruction) :
    (d₁.emit i).Rel w (d₂.emit i) :=
  { h with assembly := congrArg (·.emit i) h.assembly }

theorem installConstant_agrees (className selector : String) {v : Value}
    (hv : v.isPointer = false) :
    Agrees w (fun _ => Anything) (installConstant className selector v)
      (installConstant className selector v) := by
  apply (draftFor_agrees className selector).bind_still
  rintro d₁ d₂ ⟨hw, hd⟩
  obtain ⟨hplace, hliteral⟩ := hd.addLiteral hw (.value (.immediate hv))
  have hconstant : Draft.Rel w ((d₁.push (.value v)).emit .returnTop)
      ((d₂.push (.value v)).emit .returnTop) := by
    unfold Draft.push
    dsimp only
    rw [hplace]
    exact (hliteral.emit _).emit _
  apply (Draft.install_agrees hconstant).bind
  exact fun _ _ _ _ => .pure trivial

theorem installCoreMethods_agrees :
    Agrees w (fun _ => Anything) installCoreMethods installCoreMethods := by
  apply Agrees.bind (A := fun _ => Anything)
  · exact Agrees.forM primitiveMethods fun e => installPrimitive_agrees e.1 e.2.1 e.2.2
  intro _ _ _ _
  apply (installConstant_agrees "True" "not" rfl).bind
  intro _ _ _ _
  exact installConstant_agrees "False" "not" rfl

theorem setUp_agrees : Agrees w (fun _ => Anything) setUp setUp := by
  apply addCoreClasses_agrees.bind
  intro w _ _ _
  apply adoptDictionaries_agrees.bind_still
  intro _ _ _
  apply installCoreMethods_agrees.bind
  intro w _ _ _
  apply Agrees.read
  intro m₁ m₂ h
  exact (record_agrees _ _).discard

/-- Two fresh machines correspond, whatever memory they were given. -/
theorem bootstrap_sim {settings₁ settings₂ : Settings} {maxDepth : Nat} {m₁ m₂ : Machine}
    (h₁ : bootstrap settings₁ maxDepth = .ok m₁) (h₂ : bootstrap settings₂ maxDepth = .ok m₂) :
    ∃ w, m₁.Sim w m₂ := by
  obtain ⟨m₀₁, u₁, hnew₁, hset₁⟩ := setUp_of_bootstrap h₁
  obtain ⟨m₀₂, u₂, hnew₂, hset₂⟩ := setUp_of_bootstrap h₂
  have hresult := setUp_agrees m₀₁ m₀₂ (Machine.new_sim hnew₁ hnew₂)
  rw [hset₁, hset₂] at hresult
  cases hresult with
  | ok hsim _ => exact ⟨_, hsim⟩

/-- A machine that is given other settings starts as well, unless its capacity
overflows, and corresponds. -/
theorem bootstrap_sim_or_overflow {settings₁ settings₂ : Settings} {maxDepth : Nat} {m₂ : Machine}
    (h₁ : settings₁.problem? = none) (h₂ : bootstrap settings₂ maxDepth = .ok m₂) :
    bootstrap settings₁ maxDepth = .error (.fault .multiplicationOverflow) ∨
      ∃ m₁ w, bootstrap settings₁ maxDepth = .ok m₁ ∧ m₁.Sim w m₂ := by
  obtain ⟨m₀₂, u₂, hnew₂, hset₂⟩ := setUp_of_bootstrap h₂
  obtain ⟨m₀₁, hnew₁⟩ : ∃ m₀₁, Machine.new settings₁ maxDepth = .ok m₀₁ := by
    unfold Machine.new Memory.new
    rw [h₁]
    exact ⟨_, rfl⟩
  have hresult := setUp_agrees m₀₁ m₀₂ (Machine.new_sim hnew₁ hnew₂)
  unfold bootstrap
  rw [hnew₁]
  dsimp only
  rw [hset₂] at hresult
  generalize setUp m₀₁ = r at hresult ⊢
  cases hresult with
  | ok hsim _ => exact .inr ⟨_, _, rfl, hsim⟩
  | left _ => exact .inl rfl

end ObjectMachine

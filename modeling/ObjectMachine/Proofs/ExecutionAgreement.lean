import ObjectMachine.Proofs.Agreement

/-!
# Running code on corresponding machines

Primitives, calls and instructions agree, one after the other, and so do whole
runs. What decides a branch is never a place: numbers, texts, sizes, the shape
of a body, and whether two values are equal are the same on both sides.
-/

namespace ObjectMachine

open ObjectMachine.Action

section

variable {w : World} {m₁ m₂ : Machine}

/-- What the same primitive wants done on the two sides. -/
inductive Effect.Rel (w : World) : Effect → Effect → Prop
  | decline : Rel w .decline .decline
  | answer {v u : Value} : w.Rel v u → Rel w (.answer v) (.answer u)
  | putElement {t₁ t₂ v u : Value} (place : Nat) : w.Rel t₁ t₂ → w.Rel v u →
      Rel w (.putElement t₁ place v) (.putElement t₂ place u)
  | putByte {t₁ t₂ v u : Value} (place : Nat) (byte : UInt8) : w.Rel t₁ t₂ → w.Rel v u →
      Rel w (.putByte t₁ place byte v) (.putByte t₂ place byte u)
  | create {o₁ o₂ : HeapObject} : o₁.Rel w o₂ → Rel w (.create o₁) (.create o₂)
  | call {b₁ b₂ : Value} {args₁ args₂ : Array Value} : w.Rel b₁ b₂ →
      Pointwise w.Rel args₁ args₂ → Rel w (.call b₁ args₁) (.call b₂ args₂)

namespace Primitive

/-- Readings that do not depend on places. -/
theorem matches_refl {α : Type} (x : Except Fault α) : Matches Eq x x := by
  cases x with
  | ok a => exact .ok rfl
  | error e => exact .error rfl

theorem number_matches (h : m₁.Sim w m₂) {v u : Value} (hv : w.Rel v u) :
    Matches Eq (number m₁ v) (number m₂ u) := by
  cases hv with
  | immediate hp =>
    cases v with
    | pointer i => exact absurd hp (by simp [Value.isPointer])
    | _ => exact .ok rfl
  | pointer hi =>
    apply (h.classOf (.pointer hi)).bind
    intro c₁ c₂ hc
    rw [if_congr (h.memory.oneToOne.eq_iff hc h.core.integer) rfl rfl]
    split_ifs
    · exact .error rfl
    · exact .ok rfl

theorem integerOperands_matches (h : m₁.Sim w m₂) {v u v' u' : Value} (hv : w.Rel v u)
    (hv' : w.Rel v' u') :
    Matches Eq (integerOperands m₁ v v') (integerOperands m₂ u u') := by
  apply (number_matches h hv).bind
  rintro n _ rfl
  split
  · apply (number_matches h hv').bind
    rintro n' _ rfl
    exact .ok rfl
  · exact .ok rfl

theorem floatOperands_matches (h : m₁.Sim w m₂) {v u v' u' : Value} (hv : w.Rel v u)
    (hv' : w.Rel v' u') :
    Matches Eq (floatOperands m₁ v v') (floatOperands m₂ u u') := by
  apply (number_matches h hv).bind
  rintro n _ rfl
  split
  · exact .ok rfl
  · apply (number_matches h hv').bind
    rintro n' _ rfl
    exact .ok rfl

theorem floatEffect_matches (h : m₁.Sim w m₂) {v u v' u' : Value} (hv : w.Rel v u)
    (hv' : w.Rel v' u') {f : Binary64 → Binary64 → Value}
    (hf : ∀ a b, (f a b).isPointer = false) :
    Matches (Effect.Rel w) (floatEffect m₁ f v v') (floatEffect m₂ f u u') := by
  apply (floatOperands_matches h hv hv').bind
  rintro operands _ rfl
  cases operands with
  | none => exact .ok .decline
  | some ab => exact .ok (.answer (.immediate (hf ab.1 ab.2)))

theorem isPointer_of_ofInt? {n : Int} {v : Value} (h : Value.ofInt? n = some v) :
    v.isPointer = false := by
  obtain ⟨i, -, rfl⟩ := Option.map_eq_some_iff.mp h
  rfl

theorem whole_matches {n k : Nat} (h : n = k) : Matches (Effect.Rel w) (whole n) (whole k) := by
  subst h
  unfold whole Value.ofInt
  cases hn : Value.ofInt? n with
  | none => exact .error rfl
  | some v => exact .ok (.answer (.immediate (isPointer_of_ofInt? hn)))

theorem integerResult_matches (op : Arithmetic) (a b : Int) :
    Matches (Effect.Rel w) (integerResult op a b) (integerResult op a b) := by
  unfold integerResult
  cases hn : Value.ofInt? (op.onInt a b) with
  | none => exact .error rfl
  | some v => exact .ok (.answer (.immediate (isPointer_of_ofInt? hn)))

theorem place_matches (what : Indexed) (index : Int) {n k : Nat} (h : n = k) :
    Matches Eq (place what index n) (place what index k) := by
  rw [h]
  exact matches_refl _

theorem effect_nullary_matches (h : m₁.Sim w m₂) (p : Primitive) {v u : Value} (hv : w.Rel v u) :
    Matches (Effect.Rel w) (p.effect m₁ v []) (p.effect m₂ u []) := by
  have hb := h.memory.body? hv
  cases p with
  | basicClass =>
    apply (h.classOf hv).bind
    intro c₁ c₂ hc
    exact .ok (.answer hc)
  | blockNew => exact .ok (.create ⟨h.core.block, .block ⟨rfl, .empty, rfl, h.active, h.shared⟩⟩)
  | blockValue =>
    unfold effect
    dsimp only
    generalize m₁.memory.body? v = r₁, m₂.memory.body? u = r₂ at hb
    cases hb with
    | none => exact .ok .decline
    | some hb =>
      cases hb with
      | block _ => exact .ok (.call hv .empty)
      | _ => exact .ok .decline
  | stringSize =>
    unfold effect
    dsimp only
    rw [h.characters? hv]
    split
    · exact whole_matches rfl
    · exact .ok .decline
  | arraySize =>
    unfold effect
    dsimp only
    generalize m₁.memory.body? v = r₁, m₂.memory.body? u = r₂ at hb
    cases hb with
    | none => exact .ok .decline
    | some hb =>
      cases hb with
      | array he => exact whole_matches he.size
      | _ => exact .ok .decline
  | byteArraySize =>
    unfold effect
    dsimp only
    generalize m₁.memory.body? v = r₁, m₂.memory.body? u = r₂ at hb
    cases hb with
    | none => exact .ok .decline
    | some hb =>
      cases hb with
      | bytes bs => exact whole_matches rfl
      | _ => exact .ok .decline
  | basicNew =>
    unfold effect
    dsimp only
    rw [h.isClass hv]
    split_ifs
    · exact .ok (.create (h.blank hv 0))
    · exact .ok .decline
  | _ => exact .ok .decline

theorem effect_unary_matches (h : m₁.Sim w m₂) (p : Primitive) {v u a b : Value} (hv : w.Rel v u)
    (ha : w.Rel a b) : Matches (Effect.Rel w) (p.effect m₁ v [a]) (p.effect m₂ u [b]) := by
  have hb := h.memory.body? hv
  cases p with
  | integerArithmetic op =>
    apply (integerOperands_matches h hv ha).bind
    rintro operands _ rfl
    rcases operands with _ | ⟨n, k | x⟩
    · exact .ok .decline
    · exact integerResult_matches op n k
    · exact .ok (.answer (.immediate rfl))
  | integerComparison op =>
    apply (integerOperands_matches h hv ha).bind
    rintro operands _ rfl
    rcases operands with _ | ⟨n, k | x⟩
    · exact .ok .decline
    · exact .ok (.answer (.immediate rfl))
    · exact .ok (.answer (.immediate rfl))
  | floatArithmetic op => exact floatEffect_matches h hv ha fun _ _ => rfl
  | floatDivide => exact floatEffect_matches h hv ha fun _ _ => rfl
  | floatComparison op => exact floatEffect_matches h hv ha fun _ _ => rfl
  | blockValueArg =>
    unfold effect
    dsimp only
    generalize m₁.memory.body? v = r₁, m₂.memory.body? u = r₂ at hb
    cases hb with
    | none => exact .ok .decline
    | some hb =>
      cases hb with
      | block _ => exact .ok (.call hv (Pointwise.empty.push ha))
      | _ => exact .ok .decline
  | stringConcat =>
    unfold effect
    dsimp only
    rw [h.characters? hv, h.characters? ha]
    split
    · exact .ok (.create ⟨h.core.string, .string _⟩)
    · exact .ok .decline
  | arrayAt =>
    unfold effect
    dsimp only
    cases ha with
    | pointer _ => exact .ok .decline
    | immediate hp =>
      cases a with
      | integer n =>
        generalize m₁.memory.body? v = r₁, m₂.memory.body? u = r₂ at hb
        cases hb with
        | none => exact .ok .decline
        | some hb =>
          cases hb with
          | array he =>
            apply (place_matches _ _ he.size).bind
            rintro k _ rfl
            exact .ok (.answer (getD_rel (he.getElem? k)))
          | _ => exact .ok .decline
      | _ => exact .ok .decline
  | byteArrayAt =>
    unfold effect
    dsimp only
    cases ha with
    | pointer _ => exact .ok .decline
    | immediate hp =>
      cases a with
      | integer n =>
        generalize m₁.memory.body? v = r₁, m₂.memory.body? u = r₂ at hb
        cases hb with
        | none => exact .ok .decline
        | some hb =>
          cases hb with
          | bytes bs =>
            apply (place_matches _ _ rfl).bind
            rintro k _ rfl
            exact .ok (.answer (.immediate rfl))
          | _ => exact .ok .decline
      | _ => exact .ok .decline
  | basicNewSized =>
    unfold effect
    dsimp only
    cases ha with
    | pointer _ => exact .ok .decline
    | immediate hp =>
      cases a with
      | integer n =>
        dsimp only
        rw [h.isClass hv]
        split_ifs
        · exact .ok (.create (h.blank hv _))
        · exact .ok .decline
      | _ => exact .ok .decline
  | _ => exact .ok .decline

theorem effect_binary_matches (h : m₁.Sim w m₂) (p : Primitive) {v u a b a' b' : Value}
    (hv : w.Rel v u) (ha : w.Rel a b) (ha' : w.Rel a' b') :
    Matches (Effect.Rel w) (p.effect m₁ v [a, a']) (p.effect m₂ u [b, b']) := by
  have hb := h.memory.body? hv
  cases p with
  | arrayAtPut =>
    unfold effect
    dsimp only
    cases ha with
    | pointer _ => exact .ok .decline
    | immediate hp =>
      cases a with
      | integer n =>
        generalize m₁.memory.body? v = r₁, m₂.memory.body? u = r₂ at hb
        cases hb with
        | none => exact .ok .decline
        | some hb =>
          cases hb with
          | array he =>
            apply (place_matches _ _ he.size).bind
            rintro k _ rfl
            exact .ok (.putElement k hv ha')
          | _ => exact .ok .decline
      | _ => exact .ok .decline
  | byteArrayAtPut =>
    unfold effect
    dsimp only
    cases ha with
    | pointer _ => exact .ok .decline
    | immediate hp =>
      cases a with
      | integer n =>
        cases ha' with
        | pointer _ => exact .ok .decline
        | immediate hp' =>
          cases a' with
          | integer k =>
            generalize m₁.memory.body? v = r₁, m₂.memory.body? u = r₂ at hb
            cases hb with
            | none => exact .ok .decline
            | some hb =>
              cases hb with
              | bytes bs =>
                apply (place_matches _ _ rfl).bind
                rintro i _ rfl
                split_ifs
                · exact .ok (.putByte i _ hv (.immediate hp'))
                · exact .error rfl
              | _ => exact .ok .decline
          | _ => exact .ok .decline
      | _ => exact .ok .decline
  | _ => exact .ok .decline

theorem effect_matches (h : m₁.Sim w m₂) (p : Primitive) {v u : Value} (hv : w.Rel v u)
    {args₁ args₂ : List Value} (hargs : List.Forall₂ w.Rel args₁ args₂) :
    Matches (Effect.Rel w) (p.effect m₁ v args₁) (p.effect m₂ u args₂) := by
  rcases hargs with _ | ⟨ha, _ | ⟨ha', _ | ⟨_, _⟩⟩⟩
  · exact effect_nullary_matches h p hv
  · exact effect_unary_matches h p hv ha
  · exact effect_binary_matches h p hv ha ha'
  · cases p <;> exact .ok .decline

end Primitive

theorem Memory.EpochsPast.modifyContext {mem : Memory} (h : mem.EpochsPast) {id : ContextId}
    {g : Context → Context}
    (hg : ∀ c, mem.contexts[id]? = some c → (g c).epoch = c.epoch) :
    (mem.modifyContext id g).EpochsPast := by
  intro id' c' hc'
  rw [Memory.modifyContext, Array.getElem?_modify] at hc'
  split_ifs at hc' with hid
  · subst hid
    obtain ⟨c, hc, rfl⟩ := Option.map_eq_some_iff.mp hc'
    rw [hg c hc]
    exact h id c hc
  · exact h id' c' hc'

/-- Corresponding contexts may be changed alike. -/
theorem Memory.Sim.modifyContext {mem₁ mem₂ : Memory} (h : mem₁.Sim w mem₂) (id : ContextId)
    {f₁ f₂ : Context → Context} (hf : ∀ c₁ c₂, c₁.Rel w c₂ → (f₁ c₁).Rel w (f₂ c₂))
    (he₁ : ∀ c, (f₁ c).epoch = c.epoch) (he₂ : ∀ c, (f₂ c).epoch = c.epoch) :
    (mem₁.modifyContext id f₁).Sim w (mem₂.modifyContext id f₂) := by
  constructor
  case oneToOne => exact h.oneToOne
  case objects => exact h.objects
  case grounded =>
    intro i j hij
    obtain ⟨n, hn⟩ := h.grounded hij
    exact ⟨n, hn.of_body?_eq fun _ => rfl⟩
  case contextCount => simpa [Memory.modifyContext] using h.contextCount
  case contexts =>
    intro id' hid'
    obtain ⟨c₁, c₂, hc₁, hc₂, hrel⟩ := h.contexts hid'
    simp only [Memory.modifyContext, Array.getElem?_modify, hc₁, hc₂]
    split_ifs
    · exact ⟨_, _, rfl, rfl, hf _ _ hrel⟩
    · exact ⟨_, _, rfl, rfl, hrel⟩
  case left => exact h.left.modifyContext fun c _ => he₁ c
  case right => exact h.right.modifyContext fun c _ => he₂ c

theorem activeId_agrees :
    Agrees w (Still w fun id₁ id₂ => id₁ = id₂ ∧ w.context id₁) activeId activeId := by
  apply Agrees.read
  intro m₁ m₂ h
  rw [← h.active]
  cases hid : m₁.active with
  | none => exact .fail rfl
  | some id => exact .pure ⟨rfl, rfl, h.shared id hid⟩

theorem active_agrees : Agrees w (Still w (Context.Rel w)) active active := by
  apply activeId_agrees.bind_still
  rintro id _ ⟨rfl, hid⟩
  apply Agrees.read
  intro m₁ m₂ h
  obtain ⟨c₁, c₂, hc₁, hc₂, hrel⟩ := h.memory.contexts hid
  rw [hc₁, hc₂]
  exact .pure ⟨rfl, hrel⟩

theorem modifyActive_agrees {f₁ f₂ : Context → Context}
    (hf : ∀ c₁ c₂, c₁.Rel w c₂ → (f₁ c₁).Rel w (f₂ c₂))
    (he₁ : ∀ c, (f₁ c).epoch = c.epoch) (he₂ : ∀ c, (f₂ c).epoch = c.epoch) :
    Agrees w (Still w Anything) (modifyActive f₁) (modifyActive f₂) := by
  apply Agrees.change
  intro m₁ m₂ h
  rw [← h.active]
  cases hid : m₁.active with
  | none => exact h
  | some id =>
    have hsim := h.withMemory (.refl w) (h.memory.modifyContext id hf he₁ he₂)
    rwa [← h.active, hid] at hsim

theorem push_agrees {v u : Value} (hv : w.Rel v u) :
    Agrees w (Still w Anything) (push v) (push u) := by
  apply modifyActive_agrees
  · exact fun _ _ h => { h with stack := h.stack.push hv }
  · exact fun _ => rfl
  · exact fun _ => rfl

theorem top_agrees : Agrees w (Still w w.Rel) top top := by
  apply active_agrees.bind_still
  intro c₁ c₂ hc
  apply Agrees.ofExcept
  have hback := hc.stack.back?
  unfold Context.top
  generalize c₁.stack.back? = r₁, c₂.stack.back? = r₂ at hback
  cases hback with
  | some hv => exact .ok hv
  | none =>
    rw [hc.pc]
    exact .error rfl

theorem pop_agrees : Agrees w (Still w w.Rel) pop pop := by
  apply top_agrees.bind_still
  intro v u hv
  apply Agrees.bind_still
  · apply modifyActive_agrees
    · exact fun _ _ h => { h with stack := h.stack.pop }
    · exact fun _ => rfl
    · exact fun _ => rfl
  · exact fun _ _ _ => .pure ⟨rfl, hv⟩

theorem popMany_agrees (count : Nat) :
    Agrees w (Still w (Pointwise w.Rel)) (popMany count) (popMany count) := by
  apply active_agrees.bind_still
  intro c₁ c₂ hc
  have hvalues : Matches (fun r₁ r₂ => Pointwise w.Rel r₁.1 r₂.1) (c₁.popMany count)
      (c₂.popMany count) := by
    unfold Context.popMany
    dsimp only
    rw [hc.stack.size, hc.pc]
    split_ifs
    · exact .error rfl
    · exact .ok (hc.stack.extract _ _)
  apply (Agrees.ofExcept hvalues).bind_still
  rintro ⟨vs, _⟩ ⟨us, _⟩ hvs
  apply Agrees.bind_still
  · apply modifyActive_agrees
    · intro c₁ c₂ h
      rw [h.stack.size]
      exact { h with stack := h.stack.extract _ _ }
    · exact fun _ => rfl
    · exact fun _ => rfl
  · exact fun _ _ _ => .pure ⟨rfl, hvs⟩

def World.open (w : World) (id : ContextId) : World where
  index := w.index
  context id' := w.context id' ∨ id' = id

theorem World.le_open (id : ContextId) : w.Le (w.open id) := ⟨fun hij => hij, .inl⟩

theorem Memory.EpochsPast.addContext {mem : Memory} (h : mem.EpochsPast) {c : Context}
    (hc : c.epoch = 0) : (mem.addContext c).EpochsPast := by
  intro id c' hc'
  rw [addContext_contexts, Array.getElem?_push] at hc'
  split_ifs at hc'
  · obtain rfl := Option.some.inj hc'
    rw [hc]
    exact Nat.zero_le _
  · exact h id c' hc'

theorem Memory.Sim.addContext {mem₁ mem₂ : Memory} (h : mem₁.Sim w mem₂) {c₁ c₂ : Context}
    (hc : c₁.Rel w c₂) (he₁ : c₁.epoch = 0) (he₂ : c₂.epoch = 0) :
    (mem₁.addContext c₁).Sim (w.open mem₁.contexts.size) (mem₂.addContext c₂) := by
  have hle := w.le_open mem₁.contexts.size
  constructor
  case oneToOne => exact ⟨h.oneToOne.left, h.oneToOne.right⟩
  case objects =>
    intro i j hij
    obtain ⟨o₁, o₂, ho₁, ho₂, hrel⟩ := h.objects hij
    exact ⟨o₁, o₂, ho₁, ho₂, hrel.mono hle⟩
  case grounded =>
    intro i j hij
    obtain ⟨n, hn⟩ := h.grounded hij
    exact ⟨n, hn.of_body?_eq fun _ => rfl⟩
  case contextCount => simp [h.contextCount]
  case contexts =>
    rintro id (hid | rfl)
    · obtain ⟨x₁, x₂, hx₁, hx₂, hrel⟩ := h.contexts hid
      have hlt₁ := (Array.getElem?_eq_some_iff.mp hx₁).1
      have hlt₂ := (Array.getElem?_eq_some_iff.mp hx₂).1
      refine ⟨x₁, x₂, ?_, ?_, hrel.mono hle⟩
      · rw [addContext_contexts, Array.getElem?_push, if_neg (Nat.ne_of_lt hlt₁), hx₁]
      · rw [addContext_contexts, Array.getElem?_push, if_neg (Nat.ne_of_lt hlt₂), hx₂]
    · refine ⟨c₁, c₂, by simp, ?_, hc.mono hle⟩
      rw [h.contextCount]
      simp
  case left => exact h.left.addContext he₁
  case right => exact h.right.addContext he₂

theorem Context.Rel.new {method₁ method₂ receiver₁ receiver₂ : Value} {args₁ args₂ : Array Value}
    (hmethod : w.Rel method₁ method₂) (hreceiver : w.Rel receiver₁ receiver₂)
    (hargs : Pointwise w.Rel args₁ args₂) (count : Nat) {sender outer : Option ContextId}
    (hsender : ∀ id, sender = some id → w.context id)
    (houter : ∀ id, outer = some id → w.context id) :
    (Context.new method₁ receiver₁ args₁ count sender outer).Rel w
      (Context.new method₂ receiver₂ args₂ count sender outer) := by
  constructor
  case method => exact hmethod
  case receiver => exact hreceiver
  case args => exact hargs
  case temporaries =>
    unfold Context.new
    dsimp only
    rw [hargs.size]
    exact hargs.append (.replicate _ World.rel_nil)
  case stack => exact .empty
  case pc => rfl
  case sender => rfl
  case outer => rfl
  case shared => exact fun id hid => hid.elim (hsender id) (houter id)

theorem enter_agrees {method₁ method₂ receiver₁ receiver₂ : Value} {args₁ args₂ : Array Value}
    (hmethod : w.Rel method₁ method₂) (hreceiver : w.Rel receiver₁ receiver₂)
    (hargs : Pointwise w.Rel args₁ args₂) (count : Nat) {outer : Option ContextId}
    (houter : ∀ id, outer = some id → w.context id) :
    Agrees w (fun _ => Anything) (enter method₁ receiver₁ args₁ count outer)
      (enter method₂ receiver₂ args₂ count outer) := by
  apply Agrees.read
  intro m₁ m₂ h
  rw [h.depth, h.maxDepth]
  split_ifs
  · exact .bind_raise rfl
  · intro m₁ m₂ h
    have hcontext : Context.Rel w (Context.new method₁ receiver₁ args₁ count m₁.active outer)
        (Context.new method₂ receiver₂ args₂ count m₂.active outer) := by
      rw [← h.active]
      exact .new hmethod hreceiver hargs count h.shared houter
    have hsim := h.withMemory (World.le_open _) (h.memory.addContext hcontext rfl rfl)
    apply Agree.ok _ trivial
    · exact w.open m₁.memory.contexts.size
    · exact { hsim with
        active := congrArg some h.memory.contextCount
        shared := fun id hid => .inr (Option.some.inj hid).symm
        depth := congrArg (· + 1) h.depth }

theorem enterMethod_agrees {method₁ method₂ receiver₁ receiver₂ : Value}
    {args₁ args₂ : Array Value} (hmethod : w.Rel method₁ method₂)
    (hreceiver : w.Rel receiver₁ receiver₂) (hargs : Pointwise w.Rel args₁ args₂) :
    Agrees w (fun _ => Anything) (enterMethod method₁ receiver₁ args₁)
      (enterMethod method₂ receiver₂ args₂) := by
  apply Agrees.read
  intro m₁ m₂ h
  have hb := h.memory.body? hmethod
  have htype : RuntimeError.erase (.type .method method₁) = .erase (.type .method method₂) :=
    congrArg (RuntimeError.type _) hmethod.erase
  generalize m₁.memory.body? method₁ = r₁, m₂.memory.body? method₂ = r₂ at hb
  cases hb with
  | none => exact .raise htype
  | some hb =>
    cases hb with
    | method hc =>
      dsimp only
      rw [hc.temporaries]
      exact enter_agrees hmethod hreceiver hargs _ fun _ hid => nomatch hid
    | _ => exact .raise htype

theorem enterBlock_agrees {block₁ block₂ : Value} {args₁ args₂ : Array Value}
    (hblock : w.Rel block₁ block₂) (hargs : Pointwise w.Rel args₁ args₂) :
    Agrees w (fun _ => Anything) (enterBlock block₁ args₁) (enterBlock block₂ args₂) := by
  apply Agrees.read
  intro m₁ m₂ h
  have hb := h.memory.body? hblock
  have htype : RuntimeError.erase (.type .block block₁) = .erase (.type .block block₂) :=
    congrArg (RuntimeError.type _) hblock.erase
  generalize m₁.memory.body? block₁ = r₁, m₂.memory.body? block₂ = r₂ at hb
  cases hb with
  | none => exact .raise htype
  | some hb =>
    cases hb with
    | block hb =>
      dsimp only
      rw [hb.temporaryCount, ← hb.outer]
      exact enter_agrees hblock hblock hargs _ hb.shared
    | _ => exact .raise htype

/-- Primitives ended alike. One that has declined is still in its world. -/
inductive Reply.Rel (w w' : World) : Reply → Reply → Prop
  | declined : w' = w → Rel w w' .declined .declined
  | answered {v u : Value} : w'.Rel v u → Rel w w' (.answered v) (.answered u)
  | entered : Rel w w' .entered .entered

theorem write_agrees {t₁ t₂ : Value} (ht : w.Rel t₁ t₂) {g₁ g₂ : Body → Body}
    (hg : ∀ b₁ b₂, b₁.Rel w b₂ → (g₁ b₁).Rel w (g₂ b₂))
    (hclass : ∀ b c, g₁ b = .classInfo c → b = .classInfo c) :
    Agrees w (Still w Anything)
      (modify fun m => { m with memory := m.memory.modifyBody t₁ g₁ })
      (modify fun m => { m with memory := m.memory.modifyBody t₂ g₂ }) :=
  .change fun _ _ h => h.withMemory (.refl w) (h.memory.modifyBody ht hg hclass)

theorem perform_agrees {e₁ e₂ : Effect} (he : e₁.Rel w e₂) :
    Agrees w (Reply.Rel w) (perform e₁) (perform e₂) := by
  cases he with
  | decline => exact .pure (.declined rfl)
  | answer hv => exact .pure (.answered hv)
  | putElement place ht hv =>
    apply Agrees.bind_still
    · apply write_agrees ht
      · intro b₁ b₂ hb
        have hkeep := hb
        cases hb with
        | array h => exact .array (h.set place hv)
        | _ => exact hkeep
      · intro b c heq
        cases b with
        | array elements => exact nomatch heq
        | _ => exact heq
    · exact fun _ _ _ => .pure (.answered hv)
  | putByte place byte ht hv =>
    apply Agrees.bind_still
    · apply write_agrees ht
      · intro b₁ b₂ hb
        have hkeep := hb
        cases hb with
        | bytes bs => exact .bytes _
        | _ => exact hkeep
      · intro b c heq
        cases b with
        | bytes bs => exact nomatch heq
        | _ => exact heq
    · exact fun _ _ _ => .pure (.answered hv)
  | create ho =>
    apply (allocate_agrees ho).bind
    exact fun _ _ _ hv => .pure (.answered hv)
  | call hb hargs =>
    apply (enterBlock_agrees hb hargs).bind
    exact fun _ _ _ _ => .pure .entered

theorem tryPrimitive_agrees (index : Nat) {v u : Value} (hv : w.Rel v u)
    {args₁ args₂ : Array Value} (hargs : Pointwise w.Rel args₁ args₂) :
    Agrees w (Reply.Rel w) (tryPrimitive index v args₁) (tryPrimitive index u args₂) := by
  unfold tryPrimitive
  cases Primitive.row? index with
  | none => exact .fail rfl
  | some row =>
    apply Agrees.read
    intro m₁ m₂ h
    apply (Agrees.ofExcept (Primitive.effect_matches h row.primitive hv hargs.forall₂)).bind_still
    exact fun _ _ he => perform_agrees he

def AnswerRel (w : World) : Option Value → Option Value → Prop := Option.Rel w.Rel

theorem startSend_agrees {v u : Value} (hv : w.Rel v u) (selector : String)
    {args₁ args₂ : Array Value} (hargs : Pointwise w.Rel args₁ args₂) :
    Agrees w AnswerRel (startSend v selector args₁) (startSend u selector args₂) := by
  apply Agrees.read
  intro m₁ m₂ h
  apply (Agrees.ofExcept (h.resolve hv selector)).bind_still
  rintro ⟨class₁, found₁⟩ ⟨class₂, found₂⟩ ⟨hclass, hfound⟩
  apply Agrees.read
  intro m₁ m₂ h
  dsimp only
  rw [h.className hclass]
  cases hfound with
  | none => exact .raise rfl
  | @some method₁ method₂ hmethod =>
    have henter : ∀ count, Agrees w AnswerRel
        (enter method₁ v args₁ count none >>= fun _ => pure none)
        (enter method₂ u args₂ count none >>= fun _ => pure none) := by
      intro count
      apply Agrees.bind
      · exact enter_agrees hmethod hv hargs count fun _ hid => nomatch hid
      · exact fun _ _ _ _ => .pure .none
    apply (record_agrees _ _).bind_still
    intro _ _ _
    apply Agrees.read
    intro m₁ m₂ h
    apply (Agrees.ofExcept (h.entry hmethod selector)).bind_still
    intro c₁ c₂ hc
    rw [hc.primitive, hc.temporaries]
    cases c₂.primitive with
    | none => exact henter _
    | some index =>
      apply (tryPrimitive_agrees index hv hargs).bind
      intro w' r₁ r₂ hr
      cases hr with
      | answered hv => exact .pure (.some hv)
      | entered => exact .pure .none
      | declined hw =>
        subst hw
        apply (record_agrees _ _).bind_still
        exact fun _ _ _ => henter _

theorem literal_agrees {literals₁ literals₂ : Array Value}
    (h : Pointwise w.Rel literals₁ literals₂) (index : Nat) :
    Agrees w (Still w w.Rel) (literal literals₁ index) (literal literals₂ index) := by
  have hfound := h.getElem? index
  unfold literal
  rw [h.size]
  generalize literals₁[index]? = r₁, literals₂[index]? = r₂ at hfound
  cases hfound with
  | some hv => exact .pure ⟨rfl, hv⟩
  | none => exact .raise rfl

theorem jumpTo_agrees (target : Int) (length : Nat) :
    Agrees w (fun _ => Anything) (jumpTo target length) (jumpTo target length) := by
  unfold jumpTo
  split_ifs
  · exact .bind_raise rfl
  · apply Agrees.discard
    apply modifyActive_agrees
    · exact fun _ _ h => { h with pc := rfl }
    · exact fun _ => rfl
    · exact fun _ => rfl

section

variable (code : Code) {literals₁ literals₂ : Array Value} (next : Nat)

theorem pushInstanceVariable_agrees (index : UInt32) :
    Agrees w (fun _ => Anything) (execute code literals₁ next (.pushInstanceVariable index))
      (execute code literals₂ next (.pushInstanceVariable index)) := by
  apply Agrees.read
  intro m₁ m₂ h
  apply active_agrees.bind_still
  intro c₁ c₂ hc
  have hslots := h.slots hc.receiver
  have hfound := hslots.getElem? index.toNat
  dsimp only
  rw [hslots.size]
  generalize (m₁.memory.slots c₁.receiver)[index.toNat]? = r₁,
    (m₂.memory.slots c₂.receiver)[index.toNat]? = r₂ at hfound
  cases hfound with
  | some hv => exact (push_agrees hv).discard
  | none => exact .raise rfl

theorem pushTemporary_agrees (index : UInt32) :
    Agrees w (fun _ => Anything) (execute code literals₁ next (.pushTemporary index))
      (execute code literals₂ next (.pushTemporary index)) := by
  apply Agrees.read
  intro m₁ m₂ h
  apply activeId_agrees.bind_still
  rintro id _ ⟨rfl, hid⟩
  have hfound := h.temporary? index.toNat hid
  generalize m₁.memory.temporary? id index.toNat = r₁,
    m₂.memory.temporary? id index.toNat = r₂ at hfound
  cases hfound with
  | some hv => exact (push_agrees hv).discard
  | none => exact .raise rfl

theorem storeInstanceVariable_agrees (index : UInt32) :
    Agrees w (fun _ => Anything) (execute code literals₁ next (.storeInstanceVariable index))
      (execute code literals₂ next (.storeInstanceVariable index)) := by
  apply active_agrees.bind_still
  intro c₁ c₂ hc
  apply top_agrees.bind_still
  intro v u hv
  apply Agrees.read
  intro m₁ m₂ h
  dsimp only
  rw [(h.slots hc.receiver).size]
  split_ifs
  · exact .bind_raise rfl
  apply Agrees.discard
  apply write_agrees hc.receiver
  · intro b₁ b₂ hb
    have hkeep := hb
    cases hb with
    | slots hs => exact .slots (hs.set _ hv)
    | _ => exact hkeep
  · intro b c heq
    cases b with
    | slots values => exact nomatch heq
    | _ => exact heq

/-- A temporary may live in an outer context, which is the same one on both
sides. -/
theorem storeTemporary_agrees (index : UInt32) :
    Agrees w (fun _ => Anything) (execute code literals₁ next (.storeTemporary index))
      (execute code literals₂ next (.storeTemporary index)) := by
  apply top_agrees.bind_still
  intro v u hv
  apply Agrees.read
  intro m₁ m₂ h
  apply activeId_agrees.bind_still
  rintro id _ ⟨rfl, hid⟩
  obtain ⟨hhome, -⟩ := h.home? index.toNat hid
  rw [← hhome]
  cases m₁.memory.home? id index.toNat with
  | none => exact .raise rfl
  | some home =>
    apply Agrees.discard
    apply Agrees.change
    intro m₁ m₂ h
    apply h.withMemory (.refl w)
    apply h.memory.modifyContext
    · exact fun _ _ hc => { hc with temporaries := hc.temporaries.set _ hv }
    · exact fun _ => rfl
    · exact fun _ => rfl

theorem sendInstruction_agrees (hl : Pointwise w.Rel literals₁ literals₂) (index argc : UInt32) :
    Agrees w (fun _ => Anything) (execute code literals₁ next (.send index argc))
      (execute code literals₂ next (.send index argc)) := by
  apply (literal_agrees hl _).bind_still
  intro selector₁ selector₂ hselector
  apply Agrees.read
  intro m₁ m₂ h
  rw [h.symbolName? hselector]
  cases m₂.symbolName? selector₂ with
  | none => exact .raise (congrArg RuntimeError.selectorNotSymbol hselector.erase)
  | some name =>
    apply (popMany_agrees _).bind_still
    intro args₁ args₂ hargs
    apply active_agrees.bind_still
    intro c₁ c₂ hc
    have hempty : c₁.stack.isEmpty = c₂.stack.isEmpty := by
      simp only [Array.isEmpty, hc.stack.size]
    rw [hempty]
    split_ifs
    · exact .bind_raise rfl
    apply pop_agrees.bind_still
    intro receiver₁ receiver₂ hreceiver
    apply (startSend_agrees hreceiver name hargs).bind
    intro w' r₁ r₂ hr
    cases hr with
    | some hv => exact (push_agrees hv).discard
    | none => exact .pure trivial

theorem jump_agrees (kind : JumpKind) (offset : Int32) :
    Agrees w (fun _ => Anything) (execute code literals₁ next (.jump kind offset))
      (execute code literals₂ next (.jump kind offset)) := by
  cases kind with
  | always => exact jumpTo_agrees _ _
  | ifTrue =>
    apply pop_agrees.bind_still
    intro v u hv
    rw [hv.isTrue]
    split_ifs
    · exact jumpTo_agrees _ _
    · exact .pure trivial
  | ifFalse =>
    apply pop_agrees.bind_still
    intro v u hv
    rw [hv.isTrue]
    split_ifs
    · exact jumpTo_agrees _ _
    · exact .pure trivial

theorem createBlock_agrees (hl : Pointwise w.Rel literals₁ literals₂) (body : Code)
    (count temporaries : UInt32) :
    Agrees w (fun _ => Anything) (execute code literals₁ next (.createBlock body count temporaries))
      (execute code literals₂ next (.createBlock body count temporaries)) := by
  dsimp only [execute]
  rw [hl.size]
  split_ifs
  · exact .bind_raise rfl
  apply activeId_agrees.bind_still
  rintro id _ ⟨rfl, hid⟩
  apply Agrees.bind (A := World.Rel)
  · apply newBlock_agrees
    constructor
    case literals => exact hl.extract _ _
    case shared => exact fun id' hid' => Option.some.inj hid' ▸ hid
    all_goals rfl
  · exact fun _ _ _ hv => (push_agrees hv).discard

/-- Every instruction does the same on both sides. -/
theorem execute_agrees (hl : Pointwise w.Rel literals₁ literals₂) (i : Instruction) :
    Agrees w (fun _ => Anything) (execute code literals₁ next i)
      (execute code literals₂ next i) := by
  cases i with
  | pushLiteral index =>
    apply (literal_agrees hl _).bind_still
    exact fun _ _ hv => (push_agrees hv).discard
  | pushInstanceVariable index => exact pushInstanceVariable_agrees code next index
  | pushTemporary index => exact pushTemporary_agrees code next index
  | pushSelf =>
    apply active_agrees.bind_still
    exact fun _ _ hc => (push_agrees hc.receiver).discard
  | storeInstanceVariable index => exact storeInstanceVariable_agrees code next index
  | storeTemporary index => exact storeTemporary_agrees code next index
  | send index argc => exact sendInstruction_agrees code next hl index argc
  | returnTop => exact .pure trivial
  | jump kind offset => exact jump_agrees code next kind offset
  | pop =>
    apply pop_agrees.bind_still
    exact fun _ _ _ => .pure trivial
  | duplicate =>
    apply top_agrees.bind_still
    exact fun _ _ hv => (push_agrees hv).discard
  | createBlock body count temporaries =>
    exact createBlock_agrees code next hl body count temporaries
  | executeBlock argc =>
    apply (popMany_agrees _).bind_still
    intro args₁ args₂ hargs
    apply pop_agrees.bind_still
    exact fun _ _ hblock => enterBlock_agrees hblock hargs

end

theorem Machine.Sim.leave (h : m₁.Sim w m₂) : m₁.leave.Sim w m₂.leave := by
  unfold Machine.leave
  rw [← h.active]
  cases hid : m₁.active with
  | none => exact h
  | some id =>
    obtain ⟨c₁, c₂, hc₁, hc₂, hc⟩ := h.memory.contexts (h.shared id hid)
    have hmemory : (m₁.memory.modifyContext id fun c => { c with sender := none }).Sim w
        (m₂.memory.modifyContext id fun c => { c with sender := none }) := by
      apply h.memory.modifyContext
      · intro c₁ c₂ hc
        exact { hc with
          sender := rfl
          shared := fun id hid => hc.shared id (.inr (by simpa using hid)) }
      · exact fun _ => rfl
      · exact fun _ => rfl
    dsimp only
    rw [hc₁, hc₂]
    exact { h with
      memory := hmemory
      active := hc.sender
      shared := fun id hid => hc.shared id (.inl hid)
      depth := congrArg (· - 1) h.depth }

theorem Machine.Sim.unwind (h : m₁.Sim w m₂) (base : Nat) :
    (m₁.unwind base).Sim w (m₂.unwind base) := by
  have hrepeat : ∀ k, (Nat.repeat Machine.leave k m₁).Sim w (Nat.repeat Machine.leave k m₂) := by
    intro k
    induction k with
    | zero => exact h
    | succ k ih => exact ih.leave
  unfold Machine.unwind
  rw [h.depth]
  exact hrepeat _

theorem finish_agrees : Agrees w (Still w w.Rel) finish finish := by
  apply active_agrees.bind_still
  intro c₁ c₂ hc
  apply Agrees.bind_still
  · exact .change fun _ _ h => h.leave
  · exact fun _ _ _ => .pure ⟨rfl, getD_rel hc.stack.back?⟩

theorem step_agrees : Agrees w AnswerRel step step := by
  have hfinish : Agrees w AnswerRel (finish >>= fun v => pure (some v))
      (finish >>= fun v => pure (some v)) := by
    apply finish_agrees.bind_still
    exact fun _ _ hv => .pure (.some hv)
  apply active_agrees.bind_still
  intro c₁ c₂ hc
  apply Agrees.read
  intro m₁ m₂ h
  apply (Agrees.ofExcept (h.program hc.method)).bind_still
  rintro ⟨code, literals₁⟩ ⟨_, literals₂⟩ ⟨hcode, hl⟩
  obtain rfl : code = _ := hcode
  dsimp only
  rw [hc.pc]
  split
  case h_1 => exact hfinish
  case h_2 e _ => exact .raise rfl
  case h_3 i _ =>
    apply Agrees.bind_still
    · apply modifyActive_agrees
      · exact fun _ _ h => { h with pc := rfl }
      · exact fun _ => rfl
      · exact fun _ => rfl
    intro _ _ _
    split_ifs
    · exact hfinish
    · apply (execute_agrees code _ hl i).bind
      exact fun _ _ _ _ => .pure .none

theorem run_agrees (base fuel : Nat) : Agrees w World.Rel (run base fuel) (run base fuel) := by
  induction fuel generalizing w with
  | zero => exact fun _ _ h => .stop h rfl
  | succ fuel ih =>
    apply step_agrees.bind
    intro w' r₁ r₂ hr
    cases hr with
    | none => exact ih
    | some hv =>
      apply Agrees.read
      intro m₁ m₂ h
      rw [h.depth]
      split_ifs
      · exact .pure hv
      · apply (push_agrees hv).bind_still
        exact fun _ _ _ => ih

theorem protect_agrees {α β : Type} {A : World → α → β → Prop} {x₁ : Action α} {x₂ : Action β}
    (h : Agrees w A x₁ x₂) : Agrees w A (protect x₁) (protect x₂) := by
  intro m₁ m₂ hsim
  have hx := h m₁ m₂ hsim
  unfold protect
  dsimp only
  rw [hsim.depth]
  generalize x₁ m₁ = r₁, x₂ m₂ = r₂ at hx
  cases hx with
  | ok hsim ha => exact .ok hsim ha
  | @stop w' e₁ e₂ m₁' m₂' hsim he =>
    cases e₁ <;> cases e₂ <;> simp only [Stop.erase, reduceCtorEq] at he
    · exact .stop (hsim.unwind _) (by simpa only [Stop.erase] using he)
    · exact .stop hsim (by simpa only [Stop.erase] using he)
    · exact .stop hsim rfl
  | left hfull => exact .left hfull
  | right hfull => exact .right hfull

end

end ObjectMachine

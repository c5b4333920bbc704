import ObjectMachine.Proofs.Edges
import Mathlib.Data.List.Forall2

/-!
# Values that correspond across two machines

Two machines that run the same program may keep their objects in different
places. A world pairs the places that hold the same object and names the
contexts that both use. Values, bodies, objects and contexts correspond when
they agree in everything but places, and their places are paired.
-/

namespace ObjectMachine

/-- Arrays of one size whose elements are related place by place. -/
structure Pointwise {α β : Type} (R : α → β → Prop) (xs : Array α) (ys : Array β) : Prop where
  size : xs.size = ys.size
  get : ∀ (k : Nat) (x : α) (y : β), xs[k]? = some x → ys[k]? = some y → R x y

namespace Pointwise

variable {α β : Type} {R : α → β → Prop} {xs xs' : Array α} {ys ys' : Array β} {x : α} {y : β}

theorem getElem? (h : Pointwise R xs ys) (k : Nat) : Option.Rel R xs[k]? ys[k]? := by
  cases hx : xs[k]? with
  | some x =>
    have hk : k < ys.size := h.size ▸ (Array.getElem?_eq_some_iff.mp hx).1
    rw [Array.getElem?_eq_getElem hk]
    exact .some (h.get k x _ hx (Array.getElem?_eq_getElem hk))
  | none =>
    have hk : ys.size ≤ k := h.size ▸ Array.getElem?_eq_none_iff.mp hx
    rw [Array.getElem?_eq_none_iff.mpr hk]
    exact .none

theorem back? (h : Pointwise R xs ys) : Option.Rel R xs.back? ys.back? := by
  rw [Array.back?_eq_getElem?, Array.back?_eq_getElem?, h.size]
  exact h.getElem? _

theorem empty : Pointwise R #[] #[] := ⟨rfl, by simp⟩

theorem replicate (n : Nat) (h : R x y) :
    Pointwise R (Array.replicate n x) (Array.replicate n y) := by
  refine ⟨by simp, fun k u v hu hv => ?_⟩
  simp only [Array.getElem?_replicate] at hu hv
  split_ifs at hu hv
  obtain rfl := Option.some.inj hu
  obtain rfl := Option.some.inj hv
  exact h

theorem push (h : Pointwise R xs ys) (hxy : R x y) : Pointwise R (xs.push x) (ys.push y) := by
  refine ⟨by simp [h.size], fun k u v hu hv => ?_⟩
  rw [Array.getElem?_push] at hu hv
  rw [h.size] at hu
  split_ifs at hu hv
  · obtain rfl := Option.some.inj hu
    obtain rfl := Option.some.inj hv
    exact hxy
  · exact h.get k u v hu hv

theorem pop (h : Pointwise R xs ys) : Pointwise R xs.pop ys.pop := by
  refine ⟨by simp [h.size], fun k u v hu hv => ?_⟩
  rw [Array.getElem?_pop] at hu hv
  split_ifs at hu hv
  exact h.get k u v hu hv

theorem append (h : Pointwise R xs ys) (h' : Pointwise R xs' ys') :
    Pointwise R (xs ++ xs') (ys ++ ys') := by
  refine ⟨by simp [h.size, h'.size], fun k u v hu hv => ?_⟩
  rw [Array.getElem?_append] at hu hv
  rw [h.size] at hu
  split_ifs at hu hv
  · exact h.get k u v hu hv
  · exact h'.get _ u v hu hv

theorem extract (h : Pointwise R xs ys) (start stop : Nat) :
    Pointwise R (xs.extract start stop) (ys.extract start stop) := by
  refine ⟨by simp [h.size], fun k u v hu hv => ?_⟩
  rw [Array.getElem?_extract] at hu hv
  split_ifs at hu hv
  exact h.get _ u v hu hv

theorem set (h : Pointwise R xs ys) (place : Nat) (hxy : R x y) :
    Pointwise R (xs.set! place x) (ys.set! place y) := by
  refine ⟨by simp [h.size], fun k u v hu hv => ?_⟩
  rw [Array.set!_eq_setIfInBounds, Array.getElem?_setIfInBounds] at hu hv
  rw [h.size] at hu
  split_ifs at hu hv
  · obtain rfl := Option.some.inj hu
    obtain rfl := Option.some.inj hv
    exact hxy
  · exact h.get k u v hu hv

theorem map {γ δ : Type} {S : γ → δ → Prop} {g : α → γ} {g' : β → δ} (h : Pointwise R xs ys)
    (hS : ∀ x ∈ xs, ∀ y ∈ ys, R x y → S (g x) (g' y)) : Pointwise S (xs.map g) (ys.map g') := by
  refine ⟨by simp [h.size], fun k u v hu hv => ?_⟩
  rw [Array.getElem?_map, Option.map_eq_some_iff] at hu hv
  obtain ⟨x, hx, rfl⟩ := hu
  obtain ⟨y, hy, rfl⟩ := hv
  exact hS x (Array.mem_of_getElem? hx) y (Array.mem_of_getElem? hy) (h.get k x y hx hy)

theorem forall₂ (h : Pointwise R xs ys) : List.Forall₂ R xs.toList ys.toList := by
  refine List.forall₂_iff_get.mpr ⟨by simpa using h.size, fun k hx hy => ?_⟩
  exact h.get k _ _ (by simp at hx; simp [hx]) (by simp at hy; simp [hy])

end Pointwise

structure World where
  /-- The object at the first place in the left machine is the one at the second
  place in the right machine. -/
  index : Nat → Nat → Prop
  /-- Both machines use this context. -/
  context : ContextId → Prop

namespace World

variable {w : World}

/-- The same value, as the left and the right machine hold it. -/
inductive Rel (w : World) : Value → Value → Prop
  | pointer {i j : Nat} : w.index i j → Rel w (.pointer i) (.pointer j)
  | immediate {v : Value} : v.isPointer = false → Rel w v v

@[simp] theorem rel_nil : w.Rel .nil .nil := .immediate rfl

theorem Rel.isNil {v u : Value} (h : w.Rel v u) : v.isNil = u.isNil := by
  cases h <;> rfl

theorem Rel.isTrue {v u : Value} (h : w.Rel v u) : v.isTrue = u.isTrue := by
  cases h <;> rfl

structure OneToOne (w : World) : Prop where
  left : ∀ {i j j'}, w.index i j → w.index i j' → j = j'
  right : ∀ {i i' j}, w.index i j → w.index i' j → i = i'

/-- Comparing values gives the same answer on both sides. -/
theorem OneToOne.eq_iff (hw : w.OneToOne) {v u v' u' : Value} (h : w.Rel v u) (h' : w.Rel v' u') :
    v = v' ↔ u = u' := by
  cases h with
  | pointer hi =>
    cases h' with
    | pointer hi' =>
      refine ⟨?_, ?_⟩
      · rintro ⟨⟩
        exact congrArg Value.pointer (hw.left hi hi')
      · rintro ⟨⟩
        exact congrArg Value.pointer (hw.right hi hi')
    | immediate hp =>
      refine ⟨?_, ?_⟩ <;> rintro rfl <;> exact absurd hp (by simp [Value.isPointer])
  | immediate hp =>
    cases h' with
    | pointer hi' =>
      refine ⟨?_, ?_⟩ <;> rintro rfl <;> exact absurd hp (by simp [Value.isPointer])
    | immediate _ => exact Iff.rfl

end World

/-- The same names, in the same order, for corresponding values. -/
def Dictionary.Rel (w : World) (t₁ t₂ : Dictionary) : Prop :=
  List.Forall₂ (fun e₁ e₂ => e₁.1 = e₂.1 ∧ w.Rel e₁.2 e₂.2) t₁.entries t₂.entries

structure ClassInfo.Rel (w : World) (c₁ c₂ : ClassInfo) : Prop where
  name : c₁.name = c₂.name
  superclass : w.Rel c₁.superclass c₂.superclass
  ownVariables : c₁.ownVariables = c₂.ownVariables
  instanceSize : c₁.instanceSize = c₂.instanceSize
  methods : w.Rel c₁.methods c₂.methods

structure Method.Rel (w : World) (c₁ c₂ : Method) : Prop where
  selector : w.Rel c₁.selector c₂.selector
  code : c₁.code = c₂.code
  literals : Pointwise w.Rel c₁.literals c₂.literals
  temporaries : c₁.temporaries = c₂.temporaries
  owner : w.Rel c₁.owner c₂.owner
  primitive : c₁.primitive = c₂.primitive

structure Block.Rel (w : World) (b₁ b₂ : Block) : Prop where
  code : b₁.code = b₂.code
  literals : Pointwise w.Rel b₁.literals b₂.literals
  temporaryCount : b₁.temporaryCount = b₂.temporaryCount
  outer : b₁.outer = b₂.outer
  shared : ∀ id, b₁.outer = some id → w.context id

inductive Body.Rel (w : World) : Body → Body → Prop
  | slots {a b : Array Value} : Pointwise w.Rel a b → Rel w (.slots a) (.slots b)
  | classInfo {c₁ c₂ : ClassInfo} : c₁.Rel w c₂ → Rel w (.classInfo c₁) (.classInfo c₂)
  | method {c₁ c₂ : Method} : c₁.Rel w c₂ → Rel w (.method c₁) (.method c₂)
  | block {b₁ b₂ : Block} : b₁.Rel w b₂ → Rel w (.block b₁) (.block b₂)
  | array {a b : Array Value} : Pointwise w.Rel a b → Rel w (.array a) (.array b)
  | bytes (bs : Array UInt8) : Rel w (.bytes bs) (.bytes bs)
  | dictionary {t₁ t₂ : Dictionary} : t₁.Rel w t₂ → Rel w (.dictionary t₁) (.dictionary t₂)
  | string (s : String) : Rel w (.string s) (.string s)
  | symbol (s : String) : Rel w (.symbol s) (.symbol s)

structure HeapObject.Rel (w : World) (o₁ o₂ : HeapObject) : Prop where
  classRef : w.Rel o₁.header.classRef o₂.header.classRef
  body : o₁.body.Rel w o₂.body

structure Context.Rel (w : World) (c₁ c₂ : Context) : Prop where
  method : w.Rel c₁.method c₂.method
  receiver : w.Rel c₁.receiver c₂.receiver
  args : Pointwise w.Rel c₁.args c₂.args
  temporaries : Pointwise w.Rel c₁.temporaries c₂.temporaries
  stack : Pointwise w.Rel c₁.stack c₂.stack
  pc : c₁.pc = c₂.pc
  sender : c₁.sender = c₂.sender
  outer : c₁.outer = c₂.outer
  shared : ∀ id, c₁.sender = some id ∨ c₁.outer = some id → w.context id

theorem forall₂_map {α β γ δ : Type} {R : α → β → Prop} {S : γ → δ → Prop} {g : α → γ}
    {g' : β → δ} {l₁ : List α} {l₂ : List β} (h : List.Forall₂ R l₁ l₂)
    (hS : ∀ x ∈ l₁, ∀ y ∈ l₂, R x y → S (g x) (g' y)) :
    List.Forall₂ S (l₁.map g) (l₂.map g') := by
  induction h with
  | nil => exact .nil
  | cons hr _ ih =>
    apply List.Forall₂.cons
    · exact hS _ (List.mem_cons_self ..) _ (List.mem_cons_self ..) hr
    · exact ih fun x hx y hy => hS x (List.mem_cons_of_mem _ hx) y (List.mem_cons_of_mem _ hy)

variable {w w' : World} {g₁ g₂ : Value → Value}

theorem Dictionary.Rel.carry {t₁ t₂ : Dictionary} (h : t₁.Rel w t₂)
    (hv : ∀ v ∈ t₁.values, ∀ u ∈ t₂.values, w.Rel v u → w'.Rel (g₁ v) (g₂ u)) :
    (t₁.map g₁).Rel w' (t₂.map g₂) := by
  apply forall₂_map h
  intro e₁ he₁ e₂ he₂ hrel
  exact ⟨hrel.1, hv _ (List.mem_map_of_mem he₁) _ (List.mem_map_of_mem he₂) hrel.2⟩

theorem Body.Rel.carry {b₁ b₂ : Body} (h : b₁.Rel w b₂)
    (hv : ∀ v ∈ b₁.edges, ∀ u ∈ b₂.edges, w.Rel v u → w'.Rel (g₁ v) (g₂ u))
    (hc : ∀ id, b₁.outer? = some id → w.context id → w'.context id) :
    (b₁.map g₁).Rel w' (b₂.map g₂) := by
  cases h with
  | slots h =>
    exact .slots (h.map fun v hv' u hu' =>
      hv v (by simpa [edges] using hv') u (by simpa [edges] using hu'))
  | array h =>
    exact .array (h.map fun v hv' u hu' =>
      hv v (by simpa [edges] using hv') u (by simpa [edges] using hu'))
  | classInfo h =>
    exact .classInfo ⟨h.name, hv _ (by simp [edges]) _ (by simp [edges]) h.superclass,
      h.ownVariables, h.instanceSize, hv _ (by simp [edges]) _ (by simp [edges]) h.methods⟩
  | method h =>
    refine .method ⟨hv _ (by simp [edges]) _ (by simp [edges]) h.selector, h.code, ?_,
      h.temporaries, hv _ (by simp [edges]) _ (by simp [edges]) h.owner, h.primitive⟩
    exact h.literals.map fun v hv' u hu' => hv v (by simp [edges, hv']) u (by simp [edges, hu'])
  | block h =>
    refine .block ⟨h.code, ?_, h.temporaryCount, h.outer, fun id hid => hc id hid (h.shared id hid)⟩
    exact h.literals.map fun v hv' u hu' =>
      hv v (by simpa [edges] using hv') u (by simpa [edges] using hu')
  | dictionary h => exact .dictionary (h.carry hv)
  | bytes bs => exact .bytes bs
  | string s => exact .string s
  | symbol s => exact .symbol s

theorem HeapObject.Rel.carry {o₁ o₂ o₁' o₂' : HeapObject} (h : o₁.Rel w o₂)
    (g₁ g₂ : Value → Value)
    (hv : ∀ v ∈ o₁.edges, ∀ u ∈ o₂.edges, w.Rel v u → w'.Rel (g₁ v) (g₂ u))
    (hc : ∀ id, o₁.body.outer? = some id → w.context id → w'.context id)
    (hclass₁ : o₁'.header.classRef = g₁ o₁.header.classRef) (hbody₁ : o₁'.body = o₁.body.map g₁)
    (hclass₂ : o₂'.header.classRef = g₂ o₂.header.classRef) (hbody₂ : o₂'.body = o₂.body.map g₂) :
    o₁'.Rel w' o₂' := by
  refine ⟨?_, ?_⟩
  · rw [hclass₁, hclass₂]
    exact hv _ (by simp [edges]) _ (by simp [edges]) h.classRef
  · rw [hbody₁, hbody₂]
    exact h.body.carry (fun v hv' u hu' => hv v (by simp [edges, hv']) u (by simp [edges, hu'])) hc

theorem Context.Rel.carry {c₁ c₂ : Context} (h : c₁.Rel w c₂) (g₁ g₂ : Value → Value)
    (hv : ∀ v ∈ c₁.edges, ∀ u ∈ c₂.edges, w.Rel v u → w'.Rel (g₁ v) (g₂ u))
    (hc : ∀ id, c₁.sender = some id ∨ c₁.outer = some id → w.context id → w'.context id)
    (epoch₁ epoch₂ : Nat) :
    Context.Rel w' { c₁.mapEdges g₁ with epoch := epoch₁ }
      { c₂.mapEdges g₂ with epoch := epoch₂ } := by
  rw [mapEdges_eq, mapEdges_eq]
  refine ⟨hv _ (by simp [edges]) _ (by simp [edges]) h.method,
    hv _ (by simp [edges]) _ (by simp [edges]) h.receiver, h.args.map ?_, h.temporaries.map ?_,
    h.stack.map ?_, h.pc, h.sender, h.outer, fun id hid => hc id hid (h.shared id hid)⟩
  all_goals exact fun v hv' u hu' => hv v (by simp [edges, hv']) u (by simp [edges, hu'])

/-- Everything paired stays paired. -/
structure World.Le (w w' : World) : Prop where
  index : ∀ {i j}, w.index i j → w'.index i j
  context : ∀ {id}, w.context id → w'.context id

theorem World.Rel.mono {v u : Value} (h : w.Rel v u) (hle : w.Le w') : w'.Rel v u := by
  cases h with
  | pointer h => exact .pointer (hle.index h)
  | immediate h => exact .immediate h

theorem Pointwise.mono {a b : Array Value} (h : Pointwise w.Rel a b) (hle : w.Le w') :
    Pointwise w'.Rel a b :=
  ⟨h.size, fun k v u hv hu => (h.get k v u hv hu).mono hle⟩

theorem Dictionary.Rel.mono {t₁ t₂ : Dictionary} (h : t₁.Rel w t₂) (hle : w.Le w') :
    t₁.Rel w' t₂ :=
  List.Forall₂.imp (fun _ _ he => ⟨he.1, he.2.mono hle⟩) h

theorem HeapObject.Rel.mono {o₁ o₂ : HeapObject} (h : o₁.Rel w o₂) (hle : w.Le w') :
    o₁.Rel w' o₂ :=
  h.carry id id (fun _ _ _ _ hr => hr.mono hle) (fun _ _ hc => hle.context hc)
    rfl (Body.map_id _).symm rfl (Body.map_id _).symm

theorem Context.Rel.mono {c₁ c₂ : Context} (h : c₁.Rel w c₂) (hle : w.Le w') : c₁.Rel w' c₂ := by
  have hcarry := h.carry id id (fun _ _ _ _ hr => hr.mono hle)
    (fun _ _ hc => hle.context hc) c₁.epoch c₂.epoch
  rwa [mapEdges_id, mapEdges_id] at hcarry

theorem forall₂_mem_left {α β : Type} {R : α → β → Prop} {l₁ : List α} {l₂ : List β}
    (h : List.Forall₂ R l₁ l₂) {x : α} (hx : x ∈ l₁) : ∃ y ∈ l₂, R x y := by
  induction h with
  | nil => exact absurd hx List.not_mem_nil
  | cons hr _ ih =>
    rcases List.mem_cons.mp hx with rfl | hx
    · exact ⟨_, List.mem_cons_self .., hr⟩
    · obtain ⟨y, hy, hR⟩ := ih hx
      exact ⟨y, List.mem_cons_of_mem _ hy, hR⟩

theorem forall₂_mem_right {α β : Type} {R : α → β → Prop} {l₁ : List α} {l₂ : List β}
    (h : List.Forall₂ R l₁ l₂) {y : β} (hy : y ∈ l₂) : ∃ x ∈ l₁, R x y :=
  forall₂_mem_left (List.Forall₂.flip (R := fun y x => R x y) h) hy

theorem Dictionary.Rel.values {t₁ t₂ : Dictionary} (h : t₁.Rel w t₂) :
    List.Forall₂ w.Rel t₁.values t₂.values := by
  unfold Dictionary.values
  rw [List.forall₂_map_left_iff, List.forall₂_map_right_iff]
  exact List.Forall₂.imp (fun _ _ he => he.2) h

theorem Body.Rel.edges {b₁ b₂ : Body} (h : b₁.Rel w b₂) :
    List.Forall₂ w.Rel b₁.edges b₂.edges := by
  cases h with
  | slots h => exact h.forall₂
  | array h => exact h.forall₂
  | classInfo h => exact .cons h.superclass (.cons h.methods .nil)
  | method h => exact .cons h.selector (.cons h.owner h.literals.forall₂)
  | block h => exact h.literals.forall₂
  | dictionary h => exact h.values
  | bytes _ | string _ | symbol _ => exact .nil

theorem HeapObject.Rel.edges {o₁ o₂ : HeapObject} (h : o₁.Rel w o₂) :
    List.Forall₂ w.Rel o₁.edges o₂.edges := .cons h.classRef h.body.edges

theorem Context.Rel.edges {c₁ c₂ : Context} (h : c₁.Rel w c₂) :
    List.Forall₂ w.Rel c₁.edges c₂.edges :=
  .cons h.method (.cons h.receiver
    (List.rel_append (List.rel_append h.args.forall₂ h.temporaries.forall₂) h.stack.forall₂))

theorem Body.Rel.outer {b₁ b₂ : Body} (h : b₁.Rel w b₂) :
    b₁.outer? = b₂.outer? ∧ ∀ id, b₁.outer? = some id → w.context id := by
  cases h with
  | block h => exact ⟨h.outer, h.shared⟩
  | _ => exact ⟨rfl, fun _ hid => absurd hid (by simp [outer?])⟩

end ObjectMachine

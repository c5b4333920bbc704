import ObjectMachine.Proofs.Displacement
import ObjectMachine.Proofs.Intact

/-!
# Actions that agree

Two actions agree when, started in corresponding machines, they end alike and
leave corresponding machines. An allocation may collect on one side and not on
the other, so the world in which they end need not be the one they started in;
an action that allocates nothing stays in its world. A collection whose
capacity would overflow agrees with anything.
-/

namespace ObjectMachine

/-- Two results agree: answers are related by `A` in the world they end in, and
stops are the same up to places. -/
inductive Agree {α β : Type} (A : World → α → β → Prop) :
    EStateM.Result Stop Machine α → EStateM.Result Stop Machine β → Prop
  | ok {w : World} {a : α} {b : β} {m₁ m₂ : Machine} :
      m₁.Sim w m₂ → A w a b → Agree A (.ok a m₁) (.ok b m₂)
  | stop {w : World} {e₁ e₂ : Stop} {m₁ m₂ : Machine} :
      m₁.Sim w m₂ → e₁.erase = e₂.erase → Agree A (.error e₁ m₁) (.error e₂ m₂)
  | left {m₁ : Machine} {r : EStateM.Result Stop Machine β} : m₁.memory.CapacityOverflow →
      Agree A (.error (.fault .multiplicationOverflow) m₁) r
  | right {m₂ : Machine} {r : EStateM.Result Stop Machine α} : m₂.memory.CapacityOverflow →
      Agree A r (.error (.fault .multiplicationOverflow) m₂)

/-- Two actions agree from a world on. -/
def Agrees {α β : Type} (w : World) (A : World → α → β → Prop) (x₁ : Action α) (x₂ : Action β) :
    Prop :=
  ∀ m₁ m₂, m₁.Sim w m₂ → Agree A (x₁ m₁) (x₂ m₂)

def Still {α β : Type} (w : World) (R : α → β → Prop) (w' : World) (a : α) (b : β) : Prop :=
  w' = w ∧ R a b

def Anything {α β : Type} (_ : α) (_ : β) : Prop := True

namespace Agrees

variable {α β α' β' : Type} {w : World} {A : World → α → β → Prop} {B : World → α' → β' → Prop}
  {R : α → β → Prop} {x₁ : Action α} {x₂ : Action β} {f₁ : α → Action α'} {f₂ : β → Action β'}

theorem pure {a : α} {b : β} (h : A w a b) : Agrees w A (Pure.pure a) (Pure.pure b) :=
  fun _ _ hsim => .ok hsim h

theorem raise {e₁ e₂ : RuntimeError} (h : e₁.erase = e₂.erase) :
    Agrees w A (Action.raise e₁) (Action.raise e₂) :=
  fun _ _ hsim => .stop hsim (congrArg Stop.raised h)

theorem fail {e₁ e₂ : Fault} (h : e₁.erase = e₂.erase) :
    Agrees w A (Action.fail e₁) (Action.fail e₂) :=
  fun _ _ hsim => .stop hsim (congrArg Stop.fault h)

theorem mono {A' : World → α → β → Prop} (h : Agrees w A x₁ x₂)
    (hA : ∀ w' a b, A w' a b → A' w' a b) : Agrees w A' x₁ x₂ := by
  intro m₁ m₂ hsim
  have hx := h m₁ m₂ hsim
  generalize x₁ m₁ = r₁, x₂ m₂ = r₂ at hx
  cases hx with
  | ok hsim ha => exact .ok hsim (hA _ _ _ ha)
  | stop hsim he => exact .stop hsim he
  | left hfull => exact .left hfull
  | right hfull => exact .right hfull

theorem discard (h : Agrees w A x₁ x₂) : Agrees w (fun _ => Anything) x₁ x₂ :=
  h.mono fun _ _ _ _ => trivial

theorem bind (h : Agrees w A x₁ x₂) (hf : ∀ w' a b, A w' a b → Agrees w' B (f₁ a) (f₂ b)) :
    Agrees w B (x₁ >>= f₁) (x₂ >>= f₂) := by
  intro m₁ m₂ hsim
  have hx := h m₁ m₂ hsim
  simp only [Bind.bind, EStateM.bind]
  generalize x₁ m₁ = r₁, x₂ m₂ = r₂ at hx
  cases hx with
  | ok hsim ha => exact hf _ _ _ ha _ _ hsim
  | stop hsim he => exact .stop hsim he
  | left hfull => exact .left hfull
  | right hfull => exact .right hfull

/-- After an action that stays in its world the same world goes on. -/
theorem bind_still (h : Agrees w (Still w R) x₁ x₂)
    (hf : ∀ a b, R a b → Agrees w B (f₁ a) (f₂ b)) : Agrees w B (x₁ >>= f₁) (x₂ >>= f₂) := by
  apply h.bind
  rintro w' a b ⟨rfl, hr⟩
  exact hf a b hr

theorem bind_raise {γ δ : Type} {f₁ : γ → Action α} {f₂ : δ → Action β} {e₁ e₂ : RuntimeError}
    (h : e₁.erase = e₂.erase) :
    Agrees w A (Action.raise e₁ >>= f₁) (Action.raise e₂ >>= f₂) :=
  fun _ _ hsim => .stop hsim (congrArg Stop.raised h)

theorem read {g₁ : Machine → Action α} {g₂ : Machine → Action β}
    (h : ∀ m₁ m₂, m₁.Sim w m₂ → Agrees w A (g₁ m₁) (g₂ m₂)) :
    Agrees w A (get >>= g₁) (get >>= g₂) :=
  fun m₁ m₂ hsim => h m₁ m₂ hsim m₁ m₂ hsim

theorem ofExcept {y₁ : Except Fault α} {y₂ : Except Fault β} (h : Matches R y₁ y₂) :
    Agrees w (Still w R) (Action.ofExcept y₁) (Action.ofExcept y₂) := by
  cases h with
  | ok h => exact .pure ⟨rfl, h⟩
  | error h => exact .fail h

theorem forM {γ : Type} (l : List γ) {f : γ → Action Unit}
    (hf : ∀ e {w}, Agrees w (fun _ => Anything) (f e) (f e)) :
    Agrees w (fun _ => Anything) (l.forM f) (l.forM f) := by
  induction l generalizing w with
  | nil => exact .pure trivial
  | cons e rest ih => exact (hf e).bind fun _ _ _ _ => ih

theorem change {g₁ g₂ : Machine → Machine} (h : ∀ m₁ m₂, m₁.Sim w m₂ → (g₁ m₁).Sim w (g₂ m₂)) :
    Agrees w (Still w Anything) (modify g₁) (modify g₂) :=
  fun m₁ m₂ hsim => .ok (h m₁ m₂ hsim) ⟨rfl, trivial⟩

end Agrees

variable {w w' : World} {m₁ m₂ : Machine}

theorem World.Le.refl (w : World) : w.Le w := ⟨id, id⟩

theorem CoreClasses.Rel.mono {c₁ c₂ : CoreClasses} (h : c₁.Rel w c₂) (hle : w.Le w') :
    c₁.Rel w' c₂ :=
  rel_iff.mpr (List.Forall₂.imp (fun _ _ hrel => hrel.mono hle) (rel_iff.mp h))

theorem Machine.Sim.withMemory (h : m₁.Sim w m₂) (hle : w.Le w') {mem₁ mem₂ : Memory}
    (hmem : mem₁.Sim w' mem₂) :
    { m₁ with memory := mem₁ }.Sim w' { m₂ with memory := mem₂ } where
  memory := hmem
  core := h.core.mono hle
  globals := h.globals.mono hle
  symbols := h.symbols.mono hle
  scratch := h.scratch.mono hle
  active := h.active
  shared id hid := hle.context (h.shared id hid)
  depth := h.depth
  maxDepth := h.maxDepth

theorem Dictionary.Rel.insert {t₁ t₂ : Dictionary} (h : t₁.Rel w t₂) (name : String)
    {v u : Value} (hv : w.Rel v u) : (t₁.insert name v).Rel w (t₂.insert name u) := by
  obtain ⟨es₁⟩ := t₁
  obtain ⟨es₂⟩ := t₂
  simp only [Dictionary.Rel, Dictionary.insert] at h ⊢
  induction h with
  | nil => exact .cons ⟨rfl, hv⟩ .nil
  | @cons e₁ e₂ es₁ es₂ he hes ih =>
    obtain ⟨key, v'⟩ := e₁
    obtain ⟨key', u'⟩ := e₂
    obtain ⟨hkey, hrel⟩ := he
    obtain rfl : key = key' := hkey
    unfold insertEntry
    split_ifs
    · exact .cons ⟨rfl, hv⟩ hes
    · exact .cons ⟨rfl, hrel⟩ ih

/-- A chain of superclasses is as long in a memory with the same bodies on it. -/
theorem Memory.Height.transfer {mem mem' : Memory} {v : Value} {n : Nat} (hn : mem.Height v n)
    {P : Value → Prop} (hsame : ∀ v, P v → mem'.body? v = mem.body? v)
    (hup : ∀ v c, P v → mem.body? v = some (.classInfo c) → P c.superclass) (hv : P v) :
    mem'.Height v n := by
  induction hn with
  | @top v hnone =>
    apply Memory.Height.top
    rw [hsame v hv]
    exact hnone
  | @up v c n hc _ ih =>
    apply Memory.Height.up _ (ih (hup v c hv hc))
    rw [hsame v hv, hc]

theorem Memory.Height.of_body?_eq {mem mem' : Memory} {v : Value} {n : Nat} (hn : mem.Height v n)
    (hsame : ∀ v, mem'.body? v = mem.body? v) : mem'.Height v n :=
  hn.transfer (P := fun _ => True) (fun v _ => hsame v) (fun _ _ _ _ => trivial) trivial

def World.pair (w : World) (i j : Nat) : World where
  index i' j' := w.index i' j' ∨ i' = i ∧ j' = j
  context := w.context

theorem World.le_pair (i j : Nat) : w.Le (w.pair i j) := ⟨.inl, id⟩

theorem World.OneToOne.pair (hw : w.OneToOne) {i j : Nat}
    (hfresh : ∀ {i' j'}, w.index i' j' → i' < i ∧ j' < j) : (w.pair i j).OneToOne := by
  constructor
  · rintro i' j' j'' (hij | ⟨rfl, rfl⟩) (hij' | ⟨hi, rfl⟩)
    · exact hw.left hij hij'
    · exact absurd hi (Nat.ne_of_lt (hfresh hij).1)
    · exact absurd rfl (Nat.ne_of_lt (hfresh hij').1)
    · rfl
  · rintro i' i'' j' (hij | ⟨rfl, rfl⟩) (hij' | ⟨rfl, hj⟩)
    · exact hw.right hij hij'
    · exact absurd hj (Nat.ne_of_lt (hfresh hij).2)
    · exact absurd rfl (Nat.ne_of_lt (hfresh hij').2)
    · rfl

theorem Memory.body?_append_old {mem : Memory} {o : HeapObject} {v : Value}
    (hv : mem.InRange (.value v)) : (mem.append o).body? v = mem.body? v := by
  cases v with
  | pointer i => simp only [Memory.body?, mem.object?_append_old o hv]
  | _ => rfl

/-- A new object has a chain of superclasses that ends, and the old ones keep
theirs. -/
theorem Memory.Sim.exists_height_append {mem₁ mem₂ : Memory} (h : mem₁.Sim w mem₂)
    {o₁ o₂ : HeapObject} (ho : o₁.Rel w o₂) {i j : Nat}
    (hij : (w.pair mem₁.objects.size mem₂.objects.size).index i j) :
    ∃ n, (mem₁.append o₁).Height (.pointer i) n := by
  have hheight : ∀ {v u n}, w.Rel v u → mem₁.Height v n → (mem₁.append o₁).Height v n := by
    intro v u n hv hn
    apply hn.transfer (P := fun v => ∃ u, w.Rel v u) _ _ ⟨u, hv⟩
    · rintro v ⟨u, hv⟩
      exact body?_append_old (h.inRange (.value hv)).1
    · rintro v c ⟨u, hv⟩ hc
      exact h.superclass hv hc
  rcases hij with hij | ⟨rfl, rfl⟩
  · obtain ⟨n, hn⟩ := h.grounded hij
    exact ⟨n, hheight (.pointer hij) hn⟩
  · have hnew : (mem₁.append o₁).body? (.pointer mem₁.objects.size) = some o₁.body := by
      rw [Memory.body?, object?_append_new]
      rfl
    have hbody := ho.body
    generalize hb₁ : o₁.body = b₁, o₂.body = b₂ at hbody
    rw [hb₁] at hnew
    cases hbody with
    | classInfo hc =>
      obtain ⟨n, hn⟩ := h.exists_height hc.superclass
      exact ⟨n + 1, .up hnew (hheight hc.superclass hn)⟩
    | _ => exact ⟨0, .top fun c hc => by simp [hnew] at hc⟩

/-- Corresponding objects may be added on both sides. -/
theorem Memory.Sim.append {mem₁ mem₂ : Memory} (h : mem₁.Sim w mem₂) {o₁ o₂ : HeapObject}
    (ho : o₁.Rel w o₂) :
    (mem₁.append o₁).Sim (w.pair mem₁.objects.size mem₂.objects.size) (mem₂.append o₂) := by
  have hle := w.le_pair mem₁.objects.size mem₂.objects.size
  have hrange : ∀ {i j}, w.index i j → i < mem₁.objects.size ∧ j < mem₂.objects.size :=
    fun hij => h.inRange (.value (.pointer hij))
  constructor
  case oneToOne => exact h.oneToOne.pair hrange
  case objects =>
    rintro i j (hij | ⟨rfl, rfl⟩)
    · obtain ⟨x₁, x₂, hx₁, hx₂, hrel⟩ := h.objects hij
      obtain ⟨hi, hj⟩ := hrange hij
      refine ⟨x₁, x₂, ?_, ?_, hrel.mono hle⟩
      · rw [append_objects, Array.getElem?_push, if_neg (Nat.ne_of_lt hi), hx₁]
      · rw [append_objects, Array.getElem?_push, if_neg (Nat.ne_of_lt hj), hx₂]
    · exact ⟨o₁, o₂, by simp, by simp, ho.mono hle⟩
  case grounded => exact h.exists_height_append ho
  case contextCount => exact h.contextCount
  case contexts =>
    intro id hid
    obtain ⟨c₁, c₂, hc₁, hc₂, hrel⟩ := h.contexts hid
    exact ⟨c₁, c₂, hc₁, hc₂, hrel.mono hle⟩
  case left => exact h.left
  case right => exact h.right

theorem allocate_agrees {o₁ o₂ : HeapObject} (ho : o₁.Rel w o₂) :
    Agrees w World.Rel (allocate o₁) (allocate o₂) := by
  intro m₁ m₂ h
  have hroots := List.rel_append h.roots ho.roots
  rcases allocate_moves (h.memory.inRange_left hroots) h.memory.left with
    ⟨herr, hfull⟩ | ⟨kept₁, f₁, m₁', hmoved₁, hkept₁, hok₁⟩
  · rw [herr]
    exact .left hfull
  rcases allocate_moves (h.memory.inRange_right hroots) h.memory.right with
    ⟨herr, hfull⟩ | ⟨kept₂, f₂, m₂', hmoved₂, hkept₂, hok₂⟩
  · rw [herr]
    exact .right hfull
  rw [hok₁, hok₂]
  have hsim := h.displace hmoved₁ hmoved₂
  have hobject := ho.displace hkept₁ hkept₂ (o₁.mapEdges_classRef (Value.rename f₁))
    (o₁.mapEdges_body _) (o₂.mapEdges_classRef (Value.rename f₂)) (o₂.mapEdges_body _)
  apply Agree.ok (hsim.withMemory (World.le_pair _ _) (hsim.memory.append hobject))
  exact .pointer (.inr ⟨rfl, rfl⟩)

theorem intern_agrees (name : String) : Agrees w World.Rel (intern name) (intern name) := by
  apply Agrees.read
  intro m₁ m₂ h
  have hfound := h.symbols.get? name
  generalize m₁.symbols.get? name = r₁, m₂.symbols.get? name = r₂ at hfound
  cases hfound with
  | some hv => exact .pure hv
  | none =>
    apply Agrees.read
    intro m₁ m₂ h
    apply (allocate_agrees ⟨h.core.symbol, .symbol name⟩).bind
    intro w' v u hv
    apply Agrees.bind_still
    · exact .change fun m₁ m₂ h => { h with symbols := h.symbols.insert name hv }
    · exact fun _ _ _ => .pure hv

theorem pushScratch_agrees {v u : Value} (hv : w.Rel v u) :
    Agrees w (Still w Anything) (pushScratch v) (pushScratch u) :=
  .change fun _ _ h => { h with scratch := h.scratch.push hv }

theorem getD_rel {v? u? : Option Value} (h : Option.Rel w.Rel v? u?) :
    w.Rel (v?.getD .nil) (u?.getD .nil) := by
  cases h with
  | some h => exact h
  | none => exact World.rel_nil

theorem popScratch_agrees : Agrees w (Still w w.Rel) popScratch popScratch := by
  apply Agrees.read
  intro m₁ m₂ h
  apply Agrees.bind_still
  · exact .change fun m₁ m₂ h => { h with scratch := h.scratch.pop }
  · exact fun _ _ _ => .pure ⟨rfl, getD_rel h.scratch.back?⟩

theorem setGlobal_agrees (name : String) {v u : Value} (hv : w.Rel v u) :
    Agrees w (Still w Anything) (setGlobal name v) (setGlobal name u) :=
  .change fun _ _ h => { h with globals := h.globals.insert name hv }

/-- What is reported plays no part. -/
theorem record_agrees (e₁ e₂ : Event) : Agrees w (Still w Anything) (record e₁) (record e₂) :=
  .change fun _ _ h => { h with }

theorem newString_agrees (s : String) : Agrees w World.Rel (newString s) (newString s) :=
  .read fun _ _ h => allocate_agrees ⟨h.core.string, .string s⟩

theorem newArray_agrees {a b : Array Value} (ha : Pointwise w.Rel a b) :
    Agrees w World.Rel (newArray a) (newArray b) :=
  .read fun _ _ h => allocate_agrees ⟨h.core.array, .array ha⟩

theorem newByteArray_agrees (bytes : Array UInt8) :
    Agrees w World.Rel (newByteArray bytes) (newByteArray bytes) :=
  .read fun _ _ h => allocate_agrees ⟨h.core.byteArray, .bytes bytes⟩

theorem newBlock_agrees {b₁ b₂ : Block} (hb : b₁.Rel w b₂) :
    Agrees w World.Rel (newBlock b₁) (newBlock b₂) :=
  .read fun _ _ h => allocate_agrees ⟨h.core.block, .block hb⟩

theorem newMethod_agrees {c₁ c₂ : Method} (hc : c₁.Rel w c₂) :
    Agrees w World.Rel (newMethod c₁) (newMethod c₂) :=
  .read fun _ _ h => allocate_agrees ⟨h.core.method, .method hc⟩

theorem newInstance_agrees {v u : Value} (hv : w.Rel v u) (size : Nat) :
    Agrees w World.Rel (newInstance v size) (newInstance u size) :=
  .read fun _ _ h => allocate_agrees (h.blank hv size)

theorem Machine.Sim.inheritedSize (h : m₁.Sim w m₂) {v u : Value} (hv : w.Rel v u) :
    (match m₁.memory.body? v with
      | some (.classInfo c) => c.instanceSize
      | _ => 0) =
    (match m₂.memory.body? u with
      | some (.classInfo c) => c.instanceSize
      | _ => 0) := by
  have hb := h.memory.body? hv
  generalize m₁.memory.body? v = r₁, m₂.memory.body? u = r₂ at hb
  cases hb with
  | none => rfl
  | some hb =>
    cases hb with
    | classInfo hc => exact hc.instanceSize
    | _ => rfl

theorem newClass_agrees (name : String) {v u : Value} (hv : w.Rel v u)
    (ownVariables : List String) :
    Agrees w World.Rel (newClass name v ownVariables) (newClass name u ownVariables) := by
  apply (pushScratch_agrees hv).bind_still
  intro _ _ _
  apply Agrees.read
  intro m₁ m₂ h
  apply (allocate_agrees ⟨h.core.dictionary, .dictionary .nil⟩).bind
  intro w₁ methods₁ methods₂ hmethods
  apply popScratch_agrees.bind_still
  intro v u hv
  apply Agrees.read
  intro m₁ m₂ h
  have hclass : ∀ {size₁ size₂ : Nat}, size₁ = size₂ → HeapObject.Rel w₁
      (.new .nil (.classInfo ⟨name, v, ownVariables, size₁, methods₁⟩))
      (.new .nil (.classInfo ⟨name, u, ownVariables, size₂, methods₂⟩)) :=
    fun hsize => ⟨World.rel_nil, .classInfo ⟨rfl, hv, rfl, hsize, hmethods⟩⟩
  apply (allocate_agrees (hclass (congrArg (· + _) (h.inheritedSize hv)))).bind
  intro w₂ c₁ c₂ hc
  apply (setGlobal_agrees name hc).bind_still
  exact fun _ _ _ => .pure hc

section

variable {mem₁ mem₂ : Memory} {v u : Value} {g₁ g₂ : Body → Body}

theorem Memory.body?_modifyBody (mem : Memory) (v x : Value) (g : Body → Body) :
    (mem.modifyBody v g).body? x = if v = x then (mem.body? x).map g else mem.body? x := by
  cases x with
  | pointer i =>
    simp only [body?, object?, getElem?_modifyBody]
    split_ifs
    · rw [Option.map_map, Option.map_map]
      rfl
    · rfl
  | _ => simp [body?, object?]

/-- A change that makes no new class leaves every chain of superclasses finite. -/
theorem Memory.Height.modifyBody {mem : Memory} {x : Value} {n : Nat} (h : mem.Height x n)
    (v : Value) {g : Body → Body} (hg : ∀ b c, g b = .classInfo c → b = .classInfo c) :
    ∃ n', (mem.modifyBody v g).Height x n' := by
  induction h with
  | @top x hnone =>
    use 0
    apply Memory.Height.top
    intro c hc
    rw [body?_modifyBody] at hc
    split_ifs at hc
    · obtain ⟨b, hb, hgb⟩ := Option.map_eq_some_iff.mp hc
      exact hnone c (hg b c hgb ▸ hb)
    · exact hnone c hc
  | @up x c n hc _ ih =>
    obtain ⟨n', hn'⟩ := ih
    by_cases hsame : (mem.modifyBody v g).body? x = some (.classInfo c)
    · exact ⟨n' + 1, .up hsame hn'⟩
    · use 0
      apply Memory.Height.top
      intro c' hc'
      rw [body?_modifyBody, hc] at hc' hsame
      split_ifs at hc' hsame
      · obtain ⟨b, hb, hgb⟩ := Option.map_eq_some_iff.mp hc'
        obtain rfl := Option.some.inj hb
        apply hsame
        rw [Option.map_some, hgb, hg _ _ hgb]
      · exact hsame rfl

/-- Corresponding objects may be changed alike on both sides, as long as no
class is made or altered. -/
theorem Memory.Sim.modifyBody (h : mem₁.Sim w mem₂) (hv : w.Rel v u)
    (hg : ∀ b₁ b₂, b₁.Rel w b₂ → (g₁ b₁).Rel w (g₂ b₂))
    (hclass : ∀ b c, g₁ b = .classInfo c → b = .classInfo c) :
    (mem₁.modifyBody v g₁).Sim w (mem₂.modifyBody u g₂) := by
  have hcount₁ : (mem₁.modifyBody v g₁).contexts = mem₁.contexts := mem₁.modifyObject_contexts v _
  have hcount₂ : (mem₂.modifyBody u g₂).contexts = mem₂.contexts := mem₂.modifyObject_contexts u _
  constructor
  case oneToOne => exact h.oneToOne
  case objects =>
    intro i j hij
    obtain ⟨o₁, o₂, ho₁, ho₂, hrel⟩ := h.objects hij
    rw [getElem?_modifyBody, getElem?_modifyBody, ho₁, ho₂,
      if_congr (h.oneToOne.eq_iff hv (.pointer hij)) rfl rfl]
    split_ifs
    · exact ⟨_, _, rfl, rfl, hrel.classRef, hg _ _ hrel.body⟩
    · exact ⟨_, _, rfl, rfl, hrel⟩
  case grounded =>
    intro i j hij
    obtain ⟨n, hn⟩ := h.grounded hij
    exact hn.modifyBody v hclass
  case contextCount => rw [hcount₁, hcount₂, h.contextCount]
  case contexts =>
    intro id hid
    rw [hcount₁, hcount₂]
    exact h.contexts hid
  case left => cases v <;> exact h.left
  case right => cases u <;> exact h.right

theorem defineMethod_agrees {c₁ c₂ : Value} (hc : w.Rel c₁ c₂) (selector : String)
    (hv : w.Rel v u) :
    Agrees w (Still w Anything) (defineMethod c₁ selector v) (defineMethod c₂ selector u) := by
  apply Agrees.read
  intro m₁ m₂ h
  apply (Agrees.ofExcept (h.body hc)).bind_still
  intro b₁ b₂ hb
  cases hb with
  | classInfo hinfo =>
    apply (Agrees.ofExcept (h.body hinfo.methods)).bind_still
    intro b₁ b₂ hb
    cases hb with
    | dictionary ht =>
      apply Agrees.change
      intro m₁ m₂ h
      apply h.withMemory (.refl w)
      apply h.memory.modifyBody hinfo.methods
      · exact fun _ _ _ => .dictionary (ht.insert selector hv)
      · exact fun _ _ heq => nomatch heq
    | _ => exact .fail rfl
  | _ => exact .fail rfl

end

inductive Literal.Rel (w : World) : Literal → Literal → Prop
  | value {v u : Value} : w.Rel v u → Rel w (.value v) (.value u)
  | symbol (name : String) : Rel w (.symbol name) (.symbol name)
  | string (s : String) : Rel w (.string s) (.string s)

theorem Literal.Rel.placeholder {l₁ l₂ : Literal} (h : l₁.Rel w l₂) :
    w.Rel l₁.placeholder l₂.placeholder := by
  cases h with
  | value hv => exact hv
  | symbol _ | string _ => exact World.rel_nil

structure Draft.Rel (w : World) (d₁ d₂ : Draft) : Prop where
  owner : w.Rel d₁.owner d₂.owner
  selector : d₁.selector = d₂.selector
  literals : Pointwise (Literal.Rel w) d₁.literals d₂.literals
  temporaries : d₁.temporaries = d₂.temporaries
  primitive : d₁.primitive = d₂.primitive
  assembly : d₁.assembly = d₂.assembly

theorem Literal.Rel.eq_iff (hw : w.OneToOne) {l₁ l₂ l₁' l₂' : Literal} (h : l₁.Rel w l₂)
    (h' : l₁'.Rel w l₂') : l₁ = l₁' ↔ l₂ = l₂' := by
  cases h with
  | value hv =>
    cases h' with
    | value hv' => simpa only [Literal.value.injEq] using hw.eq_iff hv hv'
    | _ => simp
  | symbol name => cases h' <;> simp
  | string s => cases h' <;> simp

theorem Literal.idxOf?_rel (hw : w.OneToOne) {ls₁ ls₂ : Array Literal}
    (h : Pointwise (Literal.Rel w) ls₁ ls₂) {l₁ l₂ : Literal} (hl : l₁.Rel w l₂) :
    ls₁.idxOf? l₁ = ls₂.idxOf? l₂ := by
  have hlists := h.forall₂
  rw [← ls₁.toArray_toList, ← ls₂.toArray_toList, List.idxOf?_toArray, List.idxOf?_toArray]
  generalize ls₁.toList = xs, ls₂.toList = ys at hlists
  induction hlists with
  | nil => rfl
  | cons hx _ ih =>
    simp only [List.idxOf?_cons, beq_iff_eq, ih, if_congr (hx.eq_iff hw hl) rfl rfl]

/-- A literal gets the same place on both sides. -/
theorem Draft.Rel.addLiteral (hw : w.OneToOne) {d₁ d₂ : Draft} (h : d₁.Rel w d₂)
    {l₁ l₂ : Literal} (hl : l₁.Rel w l₂) :
    (d₁.addLiteral l₁).1 = (d₂.addLiteral l₂).1 ∧
      (d₁.addLiteral l₁).2.Rel w (d₂.addLiteral l₂).2 := by
  unfold Draft.addLiteral
  rw [Literal.idxOf?_rel hw h.literals hl]
  cases d₂.literals.idxOf? l₂ with
  | some i => exact ⟨rfl, h⟩
  | none => exact ⟨congrArg UInt32.ofNat h.literals.size, { h with literals := h.literals.push hl }⟩

/-- What is filled in are texts, so the literals may correspond in another world. -/
theorem Draft.fill_agrees {ls₁ ls₂ : List Literal} (h : List.Forall₂ (Literal.Rel w') ls₁ ls₂)
    (place : Nat) : Agrees w (fun _ => Anything) (fill ls₁ place) (fill ls₂ place) := by
  induction h generalizing w place with
  | nil => exact .pure trivial
  | @cons l₁ l₂ rest₁ rest₂ hl _ ih =>
    have hstore : ∀ {x : Action Value}, Agrees w World.Rel x x →
        Agrees w (fun _ => Anything)
          (x >>= fun v => (modify fun m => { m with scratch := m.scratch.set! place v }) >>=
            fun _ => fill rest₁ (place + 1))
          (x >>= fun v => (modify fun m => { m with scratch := m.scratch.set! place v }) >>=
            fun _ => fill rest₂ (place + 1)) := by
      intro x hx
      apply hx.bind
      intro w₁ v u hv
      apply Agrees.bind_still
      · exact .change fun m₁ m₂ h => { h with scratch := h.scratch.set place hv }
      · exact fun _ _ _ => ih (place + 1)
    cases hl with
    | value _ => exact ih (place + 1)
    | symbol name => exact hstore (intern_agrees name)
    | string s => exact hstore (newString_agrees s)

theorem Draft.build_agrees {d₁ d₂ : Draft} (h : d₁.Rel w d₂) :
    Agrees w World.Rel d₁.build d₂.build := by
  apply Agrees.read
  intro m₁ m₂ hsim
  rw [hsim.scratch.size, h.selector, h.temporaries, h.primitive, h.assembly]
  apply Agrees.bind_still
  · apply Agrees.change
    intro m₁ m₂ hsim
    have hplaceholders : Pointwise w.Rel (d₁.literals.map Literal.placeholder)
        (d₂.literals.map Literal.placeholder) :=
      h.literals.map fun _ _ _ _ hl => hl.placeholder
    exact { hsim with scratch := (hsim.scratch.push h.owner).append hplaceholders }
  intro _ _ _
  apply (fill_agrees h.literals.forall₂ _).bind
  intro w₁ _ _ _
  apply (intern_agrees _).bind
  intro w₂ selector₁ selector₂ hselector
  apply Agrees.read
  intro m₁' m₂' hsim'
  rw [hsim'.scratch.size]
  apply Agrees.bind (A := World.Rel)
  · apply newMethod_agrees
    constructor
    case selector => exact hselector
    case literals => exact hsim'.scratch.extract _ _
    case owner => exact getD_rel (hsim'.scratch.getElem? _)
    all_goals rfl
  intro w₃ v u hv
  apply Agrees.bind_still
  · exact .change fun m₁ m₂ h => { h with scratch := h.scratch.extract _ _ }
  · exact fun _ _ _ => .pure hv

theorem Draft.install_agrees {d₁ d₂ : Draft} (h : d₁.Rel w d₂) :
    Agrees w World.Rel d₁.install d₂.install := by
  apply (build_agrees h).bind
  intro w₁ v u hv
  apply Agrees.read
  intro m₁ m₂ hsim
  rw [h.selector]
  apply (Agrees.ofExcept (hsim.body hv)).bind_still
  intro b₁ b₂ hb
  cases hb with
  | method hc =>
    apply (defineMethod_agrees hc.owner _ hv).bind_still
    intro _ _ _
    apply (record_agrees _ _).bind_still
    exact fun _ _ _ => .pure hv
  | _ => exact .fail rfl

end ObjectMachine

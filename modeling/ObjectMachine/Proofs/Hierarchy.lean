import ObjectMachine.Proofs.InstanceLayout
import ObjectMachine.Proofs.Soundness
import ObjectMachine.Proofs.Trails

/-!
# The class hierarchy

A class is made when its superclass is already there and with a method dictionary
that no other class has. Nothing changes either afterwards, so following
superclasses comes to an end and no two classes ever share a dictionary. This holds
between the operations of a host that passes live values, and at every step of the
programs it runs.
-/

namespace ObjectMachine

open ObjectMachine.Action

namespace Memory

/-- The classes from `v` upwards, `v` itself first. What is not a class ends it. -/
inductive Ancestry (mem : Memory) : Value → List Value → Prop
  | top {v : Value} : (∀ c, mem.body? v ≠ some (.classInfo c)) → Ancestry mem v []
  | up {v : Value} {c : ClassInfo} {vs : List Value} : mem.body? v = some (.classInfo c) →
      Ancestry mem c.superclass vs → Ancestry mem v (v :: vs)

namespace Ancestry

variable {mem mem' : Memory} {v : Value} {vs : List Value}

theorem height (h : mem.Ancestry v vs) : mem.Height v vs.length := by
  induction h with
  | top hv => exact .top hv
  | up hc _ ih => exact .up hc ih

theorem congr (h : mem.Ancestry v vs)
    (hclasses : ∀ u c, mem'.body? u = some (.classInfo c) ↔ mem.body? u = some (.classInfo c)) :
    mem'.Ancestry v vs := by
  induction h with
  | top hv => exact .top fun c hc => hv c ((hclasses _ c).mp hc)
  | up hc _ ih => exact .up ((hclasses _ _).mpr hc) ih

/-- A new object does not come into the ancestry of what is live. -/
theorem append (h : mem.Ancestry v vs) (hv : mem.Live v)
    (hsuper : ∀ u c, mem.body? u = some (.classInfo c) → mem.Live c.superclass) (o : HeapObject) :
    (mem.append o).Ancestry v vs := by
  induction h with
  | top hclass =>
    apply Ancestry.top
    intro c hc
    rcases body?_of_append hc with hc | ⟨rfl, -⟩
    · exact hclass c hc
    · exact absurd hv (Nat.lt_irrefl _)
  | up hc _ ih => exact .up (body?_append hc o) (ih (hsuper _ _ hc))

end Ancestry

/-- Every class has an ancestry and a method dictionary of its own. -/
structure Hierarchy (mem : Memory) : Prop where
  ancestry : ∀ v, mem.Live v → ∃ vs, mem.Ancestry v vs
  methods : ∀ v c, mem.body? v = some (.classInfo c) →
    ∃ t, mem.body? c.methods = some (.dictionary t)
  own : ∀ v c v' c', mem.body? v = some (.classInfo c) → mem.body? v' = some (.classInfo c') →
    c.methods = c'.methods → v = v'

namespace Hierarchy

variable {mem mem' : Memory}

/-- A value that refers to nothing has the empty ancestry. -/
theorem exists_ancestry (h : mem.Hierarchy) (v : Value) : ∃ vs, mem.Ancestry v vs := by
  by_cases hv : mem.Live v
  · exact h.ancestry v hv
  · exact ⟨[], .top fun c hc => hv (live_of_body? hc)⟩

/-- Changes that keep classes, and dictionaries as dictionaries, keep the hierarchy. -/
theorem carry (h : mem.Hierarchy) (hlive : ∀ v, mem'.Live v → mem.Live v)
    (hclasses : ∀ u c, mem'.body? u = some (.classInfo c) ↔ mem.body? u = some (.classInfo c))
    (hdictionaries : ∀ u t, mem.body? u = some (.dictionary t) →
      ∃ t', mem'.body? u = some (.dictionary t')) : mem'.Hierarchy := by
  constructor
  · intro v hv
    obtain ⟨vs, hvs⟩ := h.ancestry v (hlive v hv)
    exact ⟨vs, hvs.congr hclasses⟩
  · intro v c hc
    obtain ⟨t, ht⟩ := h.methods v c ((hclasses v c).mp hc)
    exact hdictionaries _ t ht
  · intro v c v' c' hc hc'
    exact h.own v c v' c' ((hclasses v c).mp hc) ((hclasses v' c').mp hc')

theorem congr (h : mem.Hierarchy) (hobjects : mem'.objects = mem.objects) : mem'.Hierarchy := by
  have hbody : ∀ u, mem'.body? u = mem.body? u := by
    intro u
    cases u with
    | pointer i => rw [body?_pointer, body?_pointer, hobjects]
    | _ => rfl
  refine h.carry (fun v hv => live_of_objects hobjects.symm hv) ?_ ?_
  · exact fun u c => by rw [hbody]
  · exact fun u t ht => ⟨t, (hbody u).trans ht⟩

theorem modifyBody (h : mem.Hierarchy) {v : Value} {g : Body → Body}
    (hg : ∀ b, mem.body? v = some b → b.Akin (g b)) : (mem.modifyBody v g).Hierarchy := by
  refine h.carry ?_ (classInfo_modifyBody hg) ?_
  · intro u hu
    cases u with
    | pointer i =>
      have hi : i < (mem.modifyBody v g).objects.size := hu
      obtain ⟨o, ho, -⟩ := exists_of_modifyBody hg (Array.getElem?_eq_getElem hi)
      exact live_of_object? (v := .pointer i) ho
    | _ => trivial
  · intro u t ht
    cases u with
    | pointer i =>
      obtain ⟨o, ho, hbody⟩ := Option.map_eq_some_iff.mp ht
      have ho : mem.objects[i]? = some o := ho
      rw [body?_pointer, getElem?_modifyBody, ho]
      split_ifs with hv
      · have hkind := (hg o.body (by rw [hv, ht, hbody])).kind_eq
        rw [hbody] at hkind
        obtain ⟨t', ht'⟩ := Body.kind_eq_dictionary.mp hkind
        exact ⟨t', by simp [hbody, ht']⟩
      · exact ⟨t, by simp [hbody]⟩
    | _ => cases ht

theorem append (h : mem.Hierarchy)
    (hsuper : ∀ u c, mem.body? u = some (.classInfo c) → mem.Live c.superclass) {o : HeapObject}
    (ho : ∀ c, o.body = .classInfo c → mem.Live c.superclass ∧
      (∃ t, mem.body? c.methods = some (.dictionary t)) ∧
      ∀ u c', mem.body? u = some (.classInfo c') → c'.methods ≠ c.methods) :
    (mem.append o).Hierarchy := by
  constructor
  · intro v hv
    by_cases hold : mem.Live v
    · obtain ⟨vs, hvs⟩ := h.ancestry v hold
      exact ⟨vs, hvs.append hold hsuper o⟩
    · by_cases hclass : ∃ c, (mem.append o).body? v = some (.classInfo c)
      · obtain ⟨c, hc⟩ := hclass
        rcases body?_of_append hc with hc' | ⟨rfl, hbody⟩
        · exact absurd (live_of_body? hc') hold
        · obtain ⟨hlive, -⟩ := ho c hbody.symm
          obtain ⟨vs, hvs⟩ := h.ancestry c.superclass hlive
          exact ⟨_, .up hc (hvs.append hlive hsuper o)⟩
      · exact ⟨[], .top fun c hc => hclass ⟨c, hc⟩⟩
  · intro v c hc
    have hmethods : ∃ t, mem.body? c.methods = some (.dictionary t) := by
      rcases body?_of_append hc with hc' | ⟨-, hbody⟩
      · exact h.methods v c hc'
      · exact (ho c hbody.symm).2.1
    obtain ⟨t, ht⟩ := hmethods
    exact ⟨t, body?_append ht o⟩
  · intro v c v' c' hc hc' heq
    rcases body?_of_append hc with hold | ⟨rfl, hbody⟩ <;>
      rcases body?_of_append hc' with hold' | ⟨rfl, hbody'⟩
    · exact h.own v c v' c' hold hold' heq
    · exact absurd heq ((ho c' hbody'.symm).2.2 v c hold)
    · exact absurd heq.symm ((ho c hbody.symm).2.2 v' c' hold')
    · rfl

end Hierarchy

end Memory

namespace Relocated

variable {kept : Root → Prop} {f : Nat → Nat} {m m' : Machine} (h : Relocated kept f m m')

include h

/-- Two values that are kept stay apart. -/
theorem eq_of_rename {v u : Value} (hv : kept (.value v)) (hu : kept (.value u))
    (heq : v.rename f = u.rename f) : v = u := by
  cases v with
  | pointer i =>
    cases u with
    | pointer j => exact congrArg _ (h.injective hv hu (Value.pointer.inj heq))
    | _ => cases heq
  | _ =>
    cases u with
    | pointer j => cases heq
    | _ => exact heq

/-- What a kept value refers to after the move is what it referred to, moved. -/
theorem body?_rename {v : Value} (hv : kept (.value v)) :
    m'.memory.body? (v.rename f) = (m.memory.body? v).map (Body.map (Value.rename f)) := by
  cases hb' : m'.memory.body? (v.rename f) with
  | some b' =>
    obtain ⟨u, b, hu, hb, heq, rfl⟩ := h.exists_body? hb'
    rw [h.eq_of_rename hv hu heq, hb]
    rfl
  | none =>
    cases hb : m.memory.body? v with
    | none => rfl
    | some b =>
      rw [h.body? hv hb] at hb'
      cases hb'

theorem kept_superclass {v : Value} {c : ClassInfo} (hv : kept (.value v))
    (hc : m.memory.body? v = some (.classInfo c)) : kept (.value c.superclass) :=
  h.carries.closed v _ hv hc _ (by simp [Body.edges])

theorem kept_methods {v : Value} {c : ClassInfo} (hv : kept (.value v))
    (hc : m.memory.body? v = some (.classInfo c)) : kept (.value c.methods) :=
  h.carries.closed v _ hv hc _ (by simp [Body.edges])

/-- A class moves with its whole ancestry. -/
theorem ancestry {v : Value} {vs : List Value} (hvs : m.memory.Ancestry v vs)
    (hv : kept (.value v)) :
    m'.memory.Ancestry (v.rename f) (vs.map (Value.rename f)) ∧ ∀ u ∈ vs, kept (.value u) := by
  induction hvs with
  | top hclass =>
    refine ⟨.top fun c' hc' => ?_, by simp⟩
    rw [h.body?_rename hv] at hc'
    obtain ⟨b, hb, hmap⟩ := Option.map_eq_some_iff.mp hc'
    cases b with
    | classInfo c => exact hclass c hb
    | _ => cases hmap
  | @up v c vs hc _ ih =>
    obtain ⟨hancestry, hkept⟩ := ih (h.kept_superclass hv hc)
    refine ⟨.up (h.body? hv hc) hancestry, ?_⟩
    intro u hu
    rcases List.mem_cons.mp hu with rfl | hu
    · exact hv
    · exact hkept u hu

theorem hierarchy (hm : m.memory.Hierarchy) : m'.memory.Hierarchy := by
  constructor
  · intro v' hv'
    by_cases hb' : ∃ b', m'.memory.body? v' = some b'
    · obtain ⟨b', hb'⟩ := hb'
      obtain ⟨v, b, hkept, hb, rfl, -⟩ := h.exists_body? hb'
      obtain ⟨vs, hvs⟩ := hm.exists_ancestry v
      exact ⟨_, (h.ancestry hvs hkept).1⟩
    · exact ⟨[], .top fun c hc => hb' ⟨_, hc⟩⟩
  · intro v' c' hc'
    obtain ⟨v, b, hkept, hb, -, hmap⟩ := h.exists_body? hc'
    cases b with
    | classInfo c =>
      cases hmap
      obtain ⟨t, ht⟩ := hm.methods v c hb
      exact ⟨_, h.body? (h.kept_methods hkept hb) ht⟩
    | _ => cases hmap
  · intro v₁' c₁' v₂' c₂' hc₁' hc₂' heq
    obtain ⟨v₁, b₁, hkept₁, hb₁, rfl, hmap₁⟩ := h.exists_body? hc₁'
    obtain ⟨v₂, b₂, hkept₂, hb₂, rfl, hmap₂⟩ := h.exists_body? hc₂'
    cases b₁ with
    | classInfo c₁ =>
      cases b₂ with
      | classInfo c₂ =>
        cases hmap₁
        cases hmap₂
        have hmethods := h.eq_of_rename (h.kept_methods hkept₁ hb₁) (h.kept_methods hkept₂ hb₂) heq
        rw [hm.own v₁ c₁ v₂ c₂ hb₁ hb₂ hmethods]
      | _ => cases hmap₂
    | _ => cases hmap₁

end Relocated

section

variable {d : Discipline} {m m' : Machine}

theorem Machine.Intact.live_superclass (h : m.Intact d) {v : Value} {c : ClassInfo}
    (hc : m.memory.body? v = some (.classInfo c)) : m.memory.Live c.superclass := by
  obtain ⟨inUse, h⟩ := h
  exact h.live_of_edge hc (by simp [Body.edges])

/-- The classes that are made stand on what is live and own their dictionary. -/
theorem Made.class_of_body {o : HeapObject} (h : Made d m o) {c : ClassInfo}
    (hc : o.body = .classInfo c) : m.memory.Live c.superclass ∧
      (∃ t, m.memory.body? c.methods = some (.dictionary t)) ∧
      ∀ u c', m.memory.body? u = some (.classInfo c') → c'.methods ≠ c.methods := by
  cases h with
  | classInfo c' hlive _ _ hmethods hown =>
    cases hc
    obtain ⟨s, hs, hdictionary⟩ := hmethods
    obtain ⟨b, hb, hkind⟩ := Memory.body?_of_stamp hs
    obtain ⟨t, rfl⟩ := Body.kind_eq_dictionary.mp (hkind.trans hdictionary)
    exact ⟨hlive, ⟨t, hb⟩, hown⟩
  | blank classRef size =>
    obtain ⟨body, heq, -, -, -, hkind, -⟩ := m.blank_eq classRef size (m.memory.view fun _ => True)
    rw [heq] at hc
    obtain rfl : body = .classInfo c := hc
    exact absurd rfl hkind
  | _ => cases hc

/-- Placing an object keeps the hierarchy, also where a collection comes first. -/
theorem Memory.Hierarchy.allocate (h : m.memory.Hierarchy) (hintact : m.Intact d) {o : HeapObject}
    (ho : ∀ c, o.body = .classInfo c → m.memory.Live c.superclass ∧
      (∃ t, m.memory.body? c.methods = some (.dictionary t)) ∧
      ∀ u c', m.memory.body? u = some (.classInfo c') → c'.methods ≠ c.methods) {v : Value}
    (hok : ObjectMachine.allocate o m = .ok v m') : m'.memory.Hierarchy := by
  have hrules := allocate_rules hintact.epochs o
  rw [hok] at hrules
  cases hrules with
  | @placed kept f m₁ hm₁ hkept =>
    apply (hm₁.hierarchy h).append
    · intro u' c' hc'
      obtain ⟨u, b, hu, hb, -, hmap⟩ := hm₁.exists_body? hc'
      cases b with
      | classInfo c =>
        cases hmap
        exact hm₁.live (hm₁.kept_superclass hu hb) (hintact.live_superclass hb)
      | _ => cases hmap
    · intro c' hc'
      rw [HeapObject.mapEdges_body] at hc'
      cases hb : o.body with
      | classInfo c =>
        rw [hb] at hc'
        cases hc'
        have hedge : ∀ u ∈ o.body.edges, kept (.value u) := fun u hu =>
          hkept _ ((o.value_mem_roots u).mpr (List.mem_cons_of_mem _ hu))
        rw [hb] at hedge
        have hmethods : kept (.value c.methods) := hedge _ (by simp [Body.edges])
        obtain ⟨hlive, ⟨t, ht⟩, hown⟩ := ho c hb
        refine ⟨hm₁.live (hedge _ (by simp [Body.edges])) hlive, ⟨_, hm₁.body? hmethods ht⟩, ?_⟩
        intro u' c₂' hc₂' heq
        obtain ⟨u, b₂, hu, hb₂, -, hmap⟩ := hm₁.exists_body? hc₂'
        cases b₂ with
        | classInfo c₂ =>
          cases hmap
          exact hown u c₂ hb₂ (hm₁.eq_of_rename (hm₁.kept_methods hu hb₂) hmethods heq)
        | _ => cases hmap
      | _ =>
        rw [hb] at hc'
        cases hc'

theorem Move.hierarchy (hmove : Move d m m') (hintact : m.Intact d) (h : m.memory.Hierarchy) :
    m'.memory.Hierarchy := by
  cases hmove with
  | record | operate | temporary | enter | attempt | scratch | global => exact h.congr rfl
  | leave =>
    unfold Machine.leave
    cases m.active with
    | none => exact h
    | some id => exact h.congr rfl
  | write target f hf => exact h.modifyBody fun b hb => (hf b hb).akin
  | define target entries selector method hb =>
    refine h.modifyBody (v := target)
      (g := fun _ => .dictionary (entries.insert selector method)) fun b hb' => ?_
    rw [hb] at hb'
    cases hb'
    exact .dictionary _ _
  | allocate hmade hok => exact h.allocate hintact (fun c hc => hmade.class_of_body hc) hok
  | @intern m₁ name v _ _ hok =>
    have hm₁ : m₁.memory.Hierarchy := by
      refine h.allocate hintact (fun c hc => ?_) hok
      exact absurd (show Body.symbol name = .classInfo c from hc) (by simp)
    exact hm₁.congr rfl
  | collect hok =>
    unfold collectGarbage at hok
    split at hok
    case h_1 => cases hok
    case h_2 c hc =>
      cases hok
      rw [← List.append_nil m.roots] at hc
      exact (Relocated.collected hintact.epochs hc).hierarchy h

theorem Path.hierarchy (hpath : Path d m m') (hintact : m.Intact d) (h : m.memory.Hierarchy) :
    m'.memory.Hierarchy := by
  induction hpath with
  | refl => exact h
  | tail hpath hmove ih => exact hmove.hierarchy (Path.intact hpath hintact) ih

end

/-- The first `n` core classes have been made, in a hierarchy. -/
structure Raising (n : Nat) (m : Machine) : Prop where
  booting : Booting n m
  hierarchy : m.memory.Hierarchy

theorem Machine.new_raising {settings : Settings} {maxDepth : Nat} {m : Machine}
    (h : Machine.new settings maxDepth = .ok m) : Raising 0 m := by
  refine ⟨Machine.new_booting h, ?_⟩
  rw [Machine.eq_of_new h]
  have hempty : ∀ v b, (Machine.bare settings maxDepth).memory.body? v ≠ some b := by
    intro v b hb
    rw [Machine.body?_bare] at hb
    cases hb
  constructor
  · exact fun v _ => ⟨[], .top fun c => hempty v _⟩
  · exact fun v c hc => absurd hc (hempty v _)
  · exact fun v c _ _ hc => absurd hc (hempty v _)

theorem addCoreClass_raising {n : Nat} {name : String} {superclass : CoreClasses → Value}
    {note : CoreClasses → Value → CoreClasses} (hn : n < 13) (hname : coreNames[n]? = some name)
    (hsuper : ∀ c, superclass c = .nil ∨ superclass c ∈ c.values)
    (hnote : ∀ c v, (note c v).values = c.values.set n v) :
    Leads (Raising n) (addCoreClass name superclass note) (Raising (n + 1)) := by
  intro m u m' hm hok
  refine ⟨addCoreClass_leads hname (coreNames_fresh n hn name hname) hsuper hnote m u m'
    hm.booting hok, ?_⟩
  obtain ⟨v, m₁, hr, hok⟩ := Action.ok_of_bind
    (show (newClass name (superclass m.core) [] >>= fun v =>
      modify fun m => { m with core := note m.core v }) m = .ok u m' from hok)
  cases hok
  obtain ⟨hlive, hbears⟩ := hm.booting.superclass (hsuper m.core)
  have hpath :=
    ((newClass_yields hm.booting.intact name hlive (fun _ => hbears) []).result hr).1
  exact hpath.hierarchy hm.booting.intact hm.hierarchy

theorem adoptDictionaries_raising :
    Leads (Raising 13) adoptDictionaries fun m => Furnished m ∧ m.memory.Hierarchy := by
  intro m a m' hm hok
  refine ⟨adoptDictionaries_leads m a m' hm.booting hok, ?_⟩
  cases hok
  refine hm.hierarchy.carry ?_ (fun u c => by rw [m.body?_adopt])
    fun u t ht => ⟨t, (m.body?_adopt u).trans ht⟩
  intro v hv
  cases v with
  | pointer i => simpa [Memory.Live] using hv
  | _ => trivial

theorem hierarchy_outlivesInstalls : OutlivesInstalls fun m => m.memory.Hierarchy := by
  intro b m m' v hok hm hlive hinstall hhierarchy
  have hpath := ((b.install_yields (by simp) hm.intact hlive hinstall).result hok).1
  exact hpath.hierarchy hm.intact hhierarchy

theorem bootstrap_hierarchy {settings : Settings} {maxDepth : Nat} {m : Machine}
    (h : bootstrap settings maxDepth = .ok m) : m.memory.Hierarchy :=
  (bootstrap_leads Machine.new_raising addCoreClass_raising adoptDictionaries_raising
    hierarchy_outlivesInstalls (fun _ _ hm => hm.congr rfl) h).2

section

variable {d : Discipline} {m m' : Machine}

theorem Yields.path_left {α : Type} {A : α → Machine → Prop} {x : Action α}
    (h : Yields d m A x) : Path d m (Action.left (x m)) := by
  unfold Yields at h
  cases hx : x m with
  | ok a m' =>
    rw [hx] at h
    exact h.1
  | error e m' =>
    rw [hx] at h
    exact h.1

/-- Running is a path through the machines that are visited. -/
theorem Visits.path (hd : d ≠ .booting) {base fuel left : Nat} (h : Visits base fuel m left m')
    (hm : m.Intact d) : Path d m m' := by
  induction h with
  | here => exact .refl
  | next hstep _ ih =>
    have hpath := ((step_yields hd hm).result hstep).1
    exact hpath.trans (ih (hpath.intact hm))
  | @resumed fuel left m m₁ m' v hstep _ _ ih =>
    obtain ⟨hpath, hlive⟩ := (step_yields hd hm).result hstep
    have hm₁ := hpath.intact hm
    have hpush := ((push_yields hm₁ (hlive v rfl)).result (push_eq m₁ v)).1
    exact (hpath.trans hpush).trans (ih (hpush.intact hm₁))

theorem Operation.Launches.path (hd : d ≠ .booting) {op : Operation} {fuel : Nat}
    {start : Action (Option Value)} {m₁ : Machine} (h : op.Launches m fuel start m₁)
    (hm : m.Intact d) (hop : op.Admitted d m) {r : Option Value} (hstart : start m₁ = .ok r m') :
    Path d m m' := by
  have hlive := hop.1.values
  cases h with
  | send _ receiver selector args =>
    have hargs : ∀ v ∈ args, m.memory.Live v := fun v hv => hlive v (by simp [values, hv])
    have hreceiver : m.memory.Live receiver := hlive receiver (by simp [values])
    exact ((startSend_yields hd hm selector hreceiver hargs).result hstart).1
  | executeMethod _ method receiver args =>
    have hargs : ∀ v ∈ args, m.memory.Live v := fun v hv => hlive v (by simp [values, hv])
    obtain ⟨_, m₂, henter, hok⟩ := Action.ok_of_bind hstart
    cases hok
    exact ((enterMethod_yields (hlive receiver (by simp [values])) hargs).result henter).1
  | callBlock _ block args =>
    have hargs : ∀ v ∈ args, m.memory.Live v := fun v hv => hlive v (by simp [values, hv])
    obtain ⟨_, m₂, henter, hok⟩ := Action.ok_of_bind hstart
    cases hok
    exact ((enterBlock_yields hargs).result henter).1
  | @evaluate _ draft method _ _ hbuild =>
    have hpath := ((draft.build_yields hd hm (Draft.live_of_values hlive)).result hbuild).1
    obtain ⟨_, m₂, henter, hok⟩ := Action.ok_of_bind hstart
    cases hok
    have hyields : Yields d m₁ (fun _ _ => True) (enterMethod method .nil #[]) :=
      enterMethod_yields trivial (by simp)
    exact hpath.trans (hyields.result henter).1

theorem Operation.Visits.path (hd : d ≠ .booting) {op : Operation} {left : Nat}
    (h : op.Visits m left m') (hm : m.Intact d) (hop : op.Admitted d m) : Path d m m' := by
  obtain ⟨fuel, start, m₁, m₂, hlaunch, hstart, hvisits⟩ := h
  have hpath := hlaunch.path hd hm hop hstart
  exact hpath.trans (hvisits.path hd (hpath.intact hm))

end

/-- A host of the free discipline has to pass live values and no more. -/
theorem Operation.admitted_free {m : Machine} {op : Operation}
    (hvalues : ∀ v ∈ op.values, m.memory.Live v) (houter : op.outer? = none) :
    op.Admitted .free m := by
  refine ⟨⟨hvalues, fun id hid => ?_⟩, by simp, by simp⟩
  rw [houter] at hid
  cases hid

theorem Operation.newString_admitted (s : String) (m : Machine) :
    (newString s).Admitted .free m :=
  admitted_free (by simp [values]) rfl

/-- No reference dangles and every class has its ancestry and its methods. -/
structure Machine.Ranked (m : Machine) : Prop where
  intact : m.Intact .free
  hierarchy : m.memory.Hierarchy

theorem Path.ranked {m m' : Machine} (h : Path .free m m') (hm : m.Ranked) : m'.Ranked :=
  ⟨h.intact hm.intact, h.hierarchy hm.intact hm.hierarchy⟩

/-- Hosts that pass live values keep machines so, between and during operations. -/
theorem Occurs.ranked {m : Machine} (h : Occurs (Operation.Admitted .free) m) : m.Ranked := by
  have hattained : ∀ {m}, Attained (Operation.Admitted .free) m → m.Ranked := by
    intro m h
    induction h with
    | boot hboot => exact ⟨(bootstrap_intact hboot).relax rfl, bootstrap_hierarchy hboot⟩
    | @operated m op _ hop ih =>
      rw [after_eq]
      exact (Operation.run_yields (by simp) ih.intact hop).path_left.ranked ih
  cases h with
  | attained hm => exact hattained hm
  | visited hm hop hvisits =>
    have hm := hattained hm
    exact (hvisits.path (by simp) hm.intact hop).ranked hm

end ObjectMachine

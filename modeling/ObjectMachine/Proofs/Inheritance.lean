import ObjectMachine.Proofs.FreshMachine
import ObjectMachine.Proofs.Hierarchy

/-!
# Inheritance

A lookup answers the entry of the first class, from the one it is asked for upwards,
whose own dictionary has one. Defining a method changes what is found by the classes
that have no nearer definition, and nothing else. Collections move classes and methods,
and lookups find the same ones where they have gone.
-/

namespace ObjectMachine

open ObjectMachine.Action

namespace Memory

def definition? (mem : Memory) (selector : String) (v : Value) : Option Value := do
  let c ← mem.class? v
  let t ← mem.dictionary? c.methods
  t.get? selector

/-- The class is on the chain of `v`, and no class before it there has the selector. -/
def Inherits (mem : Memory) (selector : String) (v classRef : Value) : Prop :=
  ∃ before after, mem.Ancestry v (before ++ classRef :: after) ∧
    ∀ u ∈ before, mem.definition? selector u = none

variable {mem : Memory} {selector : String} {v : Value}

theorem class?_eq_some {c : ClassInfo} :
    mem.class? v = some c ↔ mem.body? v = some (.classInfo c) := by
  cases hb : mem.body? v with
  | none => simp [class?, hb]
  | some b => cases b <;> simp [class?, hb, Body.classInfo?]

theorem definition?_of_class {c : ClassInfo} {t : Dictionary}
    (hc : mem.body? v = some (.classInfo c)) (ht : mem.body? c.methods = some (.dictionary t)) :
    mem.definition? selector v = t.get? selector := by
  simp [definition?, class?_eq_some.mpr hc, dictionary?, ht, Body.dictionary?]

theorem definition?_of_not_class (h : ∀ c, mem.body? v ≠ some (.classInfo c)) :
    mem.definition? selector v = none := by
  cases hc : mem.class? v with
  | none => simp [definition?, hc]
  | some c => exact absurd (class?_eq_some.mp hc) (h c)

theorem Ancestry.unique {vs us : List Value} (h : mem.Ancestry v vs) (h' : mem.Ancestry v us) :
    vs = us := by
  induction h generalizing us with
  | top hv =>
    cases h' with
    | top => rfl
    | up hc => exact absurd hc (hv _)
  | up hc _ ih =>
    cases h' with
    | top hv => exact absurd hc (hv _)
    | up hc' h' =>
      rw [hc] at hc'
      cases hc'
      rw [ih h']

/-- Along a known chain, inheriting is a matter of that list. -/
theorem Ancestry.inherits_iff {vs : List Value} (h : mem.Ancestry v vs) {classRef : Value} :
    mem.Inherits selector v classRef ↔ ∃ before after, vs = before ++ classRef :: after ∧
      ∀ u ∈ before, mem.definition? selector u = none := by
  constructor
  · rintro ⟨before, after, h', hbefore⟩
    exact ⟨before, after, h.unique h', hbefore⟩
  · rintro ⟨before, after, rfl, hbefore⟩
    exact ⟨before, after, h, hbefore⟩

end Memory

section

variable {m : Machine} {v : Value} {vs : List Value}

/-- Searching at least the whole chain gives the first entry on it. -/
theorem Memory.Hierarchy.lookupFrom_eq (hm : m.memory.Hierarchy) (hvs : m.memory.Ancestry v vs)
    (selector : String) {fuel : Nat} (hfuel : vs.length ≤ fuel) :
    m.lookupFrom selector fuel v = .ok (vs.findSome? (m.memory.definition? selector)) := by
  rw [Machine.lookupFrom_of_height hvs.height selector hfuel]
  clear hfuel
  induction hvs with
  | top => rfl
  | @up v c vs hc _ ih =>
    obtain ⟨t, ht⟩ := hm.methods v c hc
    have hown : m.ownMethod? c selector = .ok (t.get? selector) := by
      simp only [Machine.ownMethod?, Machine.body, ht]
      rfl
    rw [List.length_cons, Machine.lookupFrom, hc, List.findSome?_cons,
      Memory.definition?_of_class hc ht]
    dsimp only
    rw [hown]
    cases t.get? selector with
    | none => exact ih
    | some x => rfl

theorem Memory.Hierarchy.lookup_eq (hm : m.memory.Hierarchy) (hvs : m.memory.Ancestry v vs)
    (selector : String) :
    m.lookup v selector = .ok (vs.findSome? (m.memory.definition? selector)) :=
  hm.lookupFrom_eq hvs selector hvs.height.le_size

end

/-- Lookups end and answer the nearest definition. -/
structure Machine.FindsNearest (m : Machine) : Prop where
  ancestry : ∀ v, ∃ vs, m.memory.Ancestry v vs
  /-- The search comes to its answer by itself, however much further it might go. -/
  ends : ∀ v selector, ∃ found, m.lookup v selector = .ok found ∧
    ∀ fuel ≥ m.memory.objects.size, m.lookupFrom selector fuel v = .ok found
  found : ∀ v selector x, m.lookup v selector = .ok (some x) ↔
    ∃ u, m.memory.Inherits selector v u ∧ m.memory.definition? selector u = some x
  missing : ∀ v selector vs, m.memory.Ancestry v vs →
    (m.lookup v selector = .ok none ↔ ∀ u ∈ vs, m.memory.definition? selector u = none)

theorem Memory.Hierarchy.findsNearest {m : Machine} (hm : m.memory.Hierarchy) : m.FindsNearest where
  ancestry := hm.exists_ancestry
  ends v selector := by
    obtain ⟨vs, hvs⟩ := hm.exists_ancestry v
    refine ⟨_, hm.lookup_eq hvs selector, fun fuel hfuel => ?_⟩
    exact hm.lookupFrom_eq hvs selector (hvs.height.le_size.trans hfuel)
  found v selector x := by
    obtain ⟨vs, hvs⟩ := hm.exists_ancestry v
    rw [hm.lookup_eq hvs, Except.ok.injEq, List.findSome?_eq_some_iff]
    constructor
    · rintro ⟨before, u, after, rfl, hx, hbefore⟩
      exact ⟨u, ⟨before, after, hvs, hbefore⟩, hx⟩
    · rintro ⟨u, hu, hx⟩
      obtain ⟨before, after, heq, hbefore⟩ := hvs.inherits_iff.mp hu
      exact ⟨before, u, after, heq, hx, hbefore⟩
  missing v selector vs hvs := by
    rw [hm.lookup_eq hvs, Except.ok.injEq, List.findSome?_eq_none_iff]

section

variable {α β : Type} {f g : α → Option β} {a : α} {b : β}

/-- A new entry is found where nothing before it is. -/
theorem findSome?_of_new_entry (ha : g a = some b) (hg : ∀ u, u ≠ a → g u = f u)
    {before after : List α} (hbefore : ∀ u ∈ before, f u = none) :
    (before ++ a :: after).findSome? g = some b := by
  induction before with
  | nil => simp [ha]
  | cons u before ih =>
    rw [List.cons_append, List.findSome?_cons]
    by_cases hu : u = a
    · simp [hu, ha]
    · rw [hg u hu, hbefore u (by simp)]
      exact ih fun w hw => hbefore w (by simp [hw])

/-- A new entry that is not the first of its list is not found. -/
theorem findSome?_of_late_entry (hg : ∀ u, u ≠ a → g u = f u) {us : List α}
    (h : ¬∃ before after, us = before ++ a :: after ∧ ∀ u ∈ before, f u = none) :
    us.findSome? g = us.findSome? f := by
  induction us with
  | nil => rfl
  | cons u us ih =>
    have hu : u ≠ a := by
      rintro rfl
      exact h ⟨[], us, rfl, by simp⟩
    rw [List.findSome?_cons, List.findSome?_cons, hg u hu]
    cases hf : f u with
    | some x => rfl
    | none =>
      apply ih
      rintro ⟨before, after, rfl, hbefore⟩
      exact h ⟨u :: before, after, rfl, by simpa [hf] using hbefore⟩

/-- The first entry of a list of images is the image of the first entry. -/
theorem findSome?_of_map {β' : Type} {f' : α → Option β'} {k : β → β'} {us : List α}
    (h : ∀ u ∈ us, f' u = (f u).map k) : us.findSome? f' = (us.findSome? f).map k := by
  induction us with
  | nil => rfl
  | cons u us ih =>
    rw [List.findSome?_cons, List.findSome?_cons, h u (by simp)]
    cases f u with
    | some x => rfl
    | none => exact ih fun w hw => h w (by simp [hw])

end

section

variable {m : Machine} {classRef : Value} {c : ClassInfo} {t : Dictionary}

theorem defineMethod_eq (hc : m.memory.body? classRef = some (.classInfo c))
    (ht : m.memory.body? c.methods = some (.dictionary t)) (selector : String) (x : Value) :
    defineMethod classRef selector x m =
      .ok () (m.write c.methods fun _ => .dictionary (t.insert selector x)) := by
  have hclass : m.body classRef = .ok (.classInfo c) := by rw [Machine.body, hc]
  have hmethods : m.body c.methods = .ok (.dictionary t) := by rw [Machine.body, ht]
  rw [defineMethod, bind_get, hclass, bind_ok (ofExcept_ok _)]
  dsimp only
  rw [hmethods, bind_ok (ofExcept_ok _)]
  rfl

/-- Defining writes a dictionary over a dictionary. -/
theorem akin_of_dictionary {w : Value} (ht : m.memory.body? w = some (.dictionary t))
    (t' : Dictionary) : ∀ b, m.memory.body? w = some b → b.Akin (.dictionary t') := by
  intro b hb
  rw [ht] at hb
  cases hb
  exact .dictionary _ _

section

variable (ht : m.memory.body? c.methods = some (.dictionary t)) (t' : Dictionary)

include ht

theorem Memory.Hierarchy.define (hm : m.memory.Hierarchy) :
    (m.write c.methods fun _ => .dictionary t').memory.Hierarchy :=
  hm.modifyBody (v := c.methods) (g := fun _ => .dictionary t') (akin_of_dictionary ht t')

theorem Memory.Ancestry.define {v : Value} {vs : List Value} (h : m.memory.Ancestry v vs) :
    (m.write c.methods fun _ => .dictionary t').memory.Ancestry v vs :=
  h.congr (classInfo_modifyBody (akin_of_dictionary ht t'))

/-- Only the class that owns the dictionary sees the new one. -/
theorem Memory.Hierarchy.definition?_write (hm : m.memory.Hierarchy)
    (hc : m.memory.body? classRef = some (.classInfo c)) (key : String) (v : Value) :
    (m.write c.methods fun _ => .dictionary t').memory.definition? key v =
      if v = classRef then t'.get? key else m.memory.definition? key v := by
  have hclasses := classInfo_modifyBody (akin_of_dictionary ht t')
  have hbody := m.memory.body?_modifyBody c.methods
  split_ifs with hv
  · subst hv
    refine definition?_of_class ((hclasses _ c).mpr hc) ?_
    rw [Machine.write, hbody, if_pos rfl, ht]
    rfl
  · by_cases hclass : ∃ c', m.memory.body? v = some (.classInfo c')
    · obtain ⟨c', hc'⟩ := hclass
      obtain ⟨t₁, ht₁⟩ := hm.methods v c' hc'
      have hne : c.methods ≠ c'.methods := fun heq => hv (hm.own v c' classRef c hc' hc heq.symm)
      rw [definition?_of_class hc' ht₁]
      refine definition?_of_class ((hclasses v c').mpr hc') ?_
      rw [Machine.write, hbody, if_neg hne, ht₁]
    · rw [definition?_of_not_class fun c' hc' => hclass ⟨c', hc'⟩]
      exact definition?_of_not_class fun c' hc' => hclass ⟨c', (hclasses v c').mp hc'⟩

variable (hc : m.memory.body? classRef = some (.classInfo c)) {selector : String} {x : Value}

include hc

theorem Memory.Hierarchy.definition?_define (hm : m.memory.Hierarchy) :
    (m.write c.methods fun _ => .dictionary (t.insert selector x)).memory.definition? selector
      classRef = some x := by
  rw [hm.definition?_write ht _ hc, if_pos rfl, Dictionary.get?_insert, if_pos rfl]

theorem Memory.Hierarchy.definition?_define_of_ne (hm : m.memory.Hierarchy) {key : String}
    {v : Value} (hne : key ≠ selector ∨ v ≠ classRef) :
    (m.write c.methods fun _ => .dictionary (t.insert selector x)).memory.definition? key v =
      m.memory.definition? key v := by
  rw [hm.definition?_write ht _ hc]
  split_ifs with hv
  · have hkey : key ≠ selector := hne.resolve_right (not_not_intro hv)
    rw [Dictionary.get?_insert, if_neg hkey, hv, definition?_of_class hc ht]
  · rfl

/-- The new method is found through its class. -/
theorem Memory.Hierarchy.lookup_define (hm : m.memory.Hierarchy) {v : Value}
    (hv : m.memory.Inherits selector v classRef) :
    (m.write c.methods fun _ => .dictionary (t.insert selector x)).lookup v selector =
      .ok (some x) := by
  obtain ⟨before, after, hvs, hbefore⟩ := hv
  rw [(hm.define ht _).lookup_eq (hvs.define ht _)]
  congr 1
  exact findSome?_of_new_entry (hm.definition?_define ht hc)
    (fun u hu => hm.definition?_define_of_ne ht hc (.inr hu)) hbefore

/-- Every other lookup finds what it found. -/
theorem Memory.Hierarchy.lookup_define_of_not (hm : m.memory.Hierarchy) {key : String} {v : Value}
    (hv : ¬(key = selector ∧ m.memory.Inherits selector v classRef)) :
    (m.write c.methods fun _ => .dictionary (t.insert selector x)).lookup v key =
      m.lookup v key := by
  obtain ⟨vs, hvs⟩ := hm.exists_ancestry v
  rw [(hm.define ht _).lookup_eq (hvs.define ht _), hm.lookup_eq hvs]
  congr 1
  by_cases hkey : key = selector
  · subst hkey
    apply findSome?_of_late_entry fun u hu => hm.definition?_define_of_ne ht hc (.inr hu)
    exact fun hfirst => hv ⟨rfl, hvs.inherits_iff.mpr hfirst⟩
  · congr 1
    funext u
    exact hm.definition?_define_of_ne ht hc (.inl hkey)

end

end

/-- A collection that keeps the roots of the machine and what else is in use. -/
inductive Collects : Machine → Displacement → Machine → Prop
  | collect {m : Machine} {c : Collection} (pending : List Root) :
      m.memory.collect (m.roots ++ pending) = .ok c → Collects m c.displacement (m.settle c)

section

variable {kept : Root → Prop} {d : Displacement} {m m' : Machine}

theorem Collects.shifted (h : Collects m d m') (hepochs : m.memory.EpochsPast) :
    ∃ kept, Shifted kept d m m' := by
  cases h with
  | collect pending hc => exact ⟨_, .collected hepochs hc⟩

theorem collects_of_collectGarbage {u : Unit} (h : collectGarbage m = .ok u m') :
    ∃ d, Collects m d m' := by
  unfold collectGarbage at h
  split at h
  case h_1 => cases h
  case h_2 c hc =>
    cases h
    rw [← List.append_nil m.roots] at hc
    exact ⟨_, .collect [] hc⟩

namespace Shifted

variable (h : Shifted kept d m m') {v : Value} (hv : d.Keeps v)

include h hv

theorem body?_rename : m'.memory.body? (v.rename d.place) =
    (m.memory.body? v).map (Body.map (Value.rename d.place)) := by
  cases v with
  | pointer i => exact h.toRelocated.body?_rename ((h.survives i).mp (hv i rfl))
  | _ => rfl

theorem ancestry {vs : List Value} (hvs : m.memory.Ancestry v vs) :
    m'.memory.Ancestry (v.rename d.place) (vs.map (Value.rename d.place)) ∧
      ∀ u ∈ vs, d.Keeps u := by
  cases v with
  | pointer i =>
    obtain ⟨hancestry, hkept⟩ := h.toRelocated.ancestry hvs ((h.survives i).mp (hv i rfl))
    exact ⟨hancestry, fun u hu => h.keeps (hkept u hu)⟩
  | _ =>
    cases hvs with
    | top hclass => exact ⟨.top hclass, by simp⟩
    | up hc => cases hc

theorem definition?_rename (selector : String) :
    m'.memory.definition? selector (v.rename d.place) =
      (m.memory.definition? selector v).map (Value.rename d.place) := by
  have hbody := h.body?_rename hv
  by_cases hclass : ∃ c, m.memory.body? v = some (.classInfo c)
  · obtain ⟨c, hc⟩ := hclass
    have hmethods : d.Keeps c.methods := by
      cases v with
      | pointer i => exact h.keeps (h.kept_methods ((h.survives i).mp (hv i rfl)) hc)
      | _ => cases hc
    rw [hc] at hbody
    simp only [Memory.definition?, Memory.class?, Memory.dictionary?, hbody, hc, Option.map_some,
      Body.map, Body.classInfo?, Option.bind_eq_bind, Option.bind_some,
      h.body?_rename hmethods]
    cases hb : m.memory.body? c.methods with
    | none => rfl
    | some b =>
      cases b with
      | dictionary t => exact t.get?_map _ selector
      | _ => rfl
  · rw [Memory.definition?_of_not_class fun c hc => hclass ⟨c, hc⟩]
    refine Memory.definition?_of_not_class fun c' hc' => ?_
    rw [hbody] at hc'
    obtain ⟨b, hb, hmap⟩ := Option.map_eq_some_iff.mp hc'
    cases b with
    | classInfo c => exact hclass ⟨c, hb⟩
    | _ => cases hmap

theorem lookup_rename (hm : m.memory.Hierarchy) (selector : String) :
    m'.lookup (v.rename d.place) selector =
      (m.lookup v selector).map (Option.map (Value.rename d.place)) := by
  obtain ⟨vs, hvs⟩ := hm.exists_ancestry v
  obtain ⟨hancestry, hkept⟩ := h.ancestry hv hvs
  rw [(h.hierarchy hm).lookup_eq hancestry, hm.lookup_eq hvs, List.findSome?_map]
  exact congrArg _ (findSome?_of_map fun u hu => h.definition?_rename (hkept u hu) selector)

end Shifted

/-- Chains and lookups follow a displacement. -/
structure LookupsFollow (d : Displacement) (m m' : Machine) : Prop where
  ancestry : ∀ v vs, d.Keeps v → m.memory.Ancestry v vs →
    m'.memory.Ancestry (v.rename d.place) (vs.map (Value.rename d.place))
  lookup : ∀ v selector, d.Keeps v → m'.lookup (v.rename d.place) selector =
    (m.lookup v selector).map (Option.map (Value.rename d.place))

namespace LookupsFollow

theorem still (m : Machine) : LookupsFollow .still m m := by
  have hrename : Value.rename Displacement.still.place = id := Value.rename_id
  constructor
  · intro v vs _ hvs
    simpa [hrename] using hvs
  · intro v selector _
    cases h : m.lookup v selector <;> simp [hrename, h, Except.map]

theorem trans {m₁ : Machine} {e : Displacement} (h : LookupsFollow d m m₁)
    (h' : LookupsFollow e m₁ m') : LookupsFollow (d.andThen e) m m' := by
  have hrename := d.rename_andThen e
  constructor
  · intro v vs hv hvs
    obtain ⟨hv, hv'⟩ := Displacement.keeps_andThen.mp hv
    rw [hrename, ← List.map_map]
    exact h'.ancestry _ _ hv' (h.ancestry v vs hv hvs)
  · intro v selector hv
    obtain ⟨hv, hv'⟩ := Displacement.keeps_andThen.mp hv
    rw [hrename]
    rw [Function.comp_apply, h'.lookup _ selector hv', h.lookup v selector hv]
    cases m.lookup v selector <;> simp [Except.map]

end LookupsFollow

/-- However many collections there are, the hierarchy and all lookups follow them. -/
theorem Trail.lookupsFollow (h : Trail Collects m d m') (hepochs : m.memory.EpochsPast)
    (hm : m.memory.Hierarchy) : m'.memory.Hierarchy ∧ LookupsFollow d m m' := by
  suffices h : m'.memory.EpochsPast ∧ m'.memory.Hierarchy ∧ LookupsFollow d m m' from h.2
  induction h with
  | refl => exact ⟨hepochs, hm, .still m⟩
  | tail _ hcollects ih =>
    obtain ⟨hepochs₁, hm₁, hfollow⟩ := ih
    obtain ⟨kept, hshifted⟩ := hcollects.shifted hepochs₁
    refine ⟨hshifted.epochs, hshifted.hierarchy hm₁, hfollow.trans ?_⟩
    exact ⟨fun v vs hv hvs => (hshifted.ancestry hv hvs).1,
      fun v selector hv => hshifted.lookup_rename hv hm₁ selector⟩

/-- With `x` as the definition of the selector in a class, the classes without a nearer
one find `x`, and all else is found as before, where it has gone. -/
structure Overrides (classRef : Value) (selector : String) (x : Value) (d : Displacement)
    (m m' : Machine) : Prop where
  ancestry : ∀ v vs, d.Keeps v → m.memory.Ancestry v vs →
    m'.memory.Ancestry (v.rename d.place) (vs.map (Value.rename d.place))
  defined : ∀ v, d.Keeps v → m.memory.Inherits selector v classRef →
    m'.lookup (v.rename d.place) selector = .ok (some (x.rename d.place))
  unchanged : ∀ v key, d.Keeps v → ¬(key = selector ∧ m.memory.Inherits selector v classRef) →
    m'.lookup (v.rename d.place) key =
      (m.lookup v key).map (Option.map (Value.rename d.place))

end

/-- In every machine that a host gets to by passing live values, between its operations
and while its programs run, lookups answer the nearest definition. Defining a method in a
class succeeds and overrides what its heirs find. Both stay so across collections. -/
theorem nearest_definition_is_found {m : Machine} (h : Occurs (Operation.Admitted .free) m) :
    (∀ d m', Trail Collects m d m' → m'.FindsNearest ∧ LookupsFollow d m m') ∧
    ∀ classRef c, m.memory.body? classRef = some (.classInfo c) → ∀ selector x,
      ∃ m₁, defineMethod classRef selector x m = .ok () m₁ ∧
        ∀ d m', Trail Collects m₁ d m' →
          m'.FindsNearest ∧ Overrides classRef selector x d m m' := by
  have hm := h.ranked.hierarchy
  constructor
  · intro d m' htrail
    obtain ⟨hm', hfollow⟩ := htrail.lookupsFollow h.epochs hm
    exact ⟨hm'.findsNearest, hfollow⟩
  · intro classRef c hc selector x
    obtain ⟨t, ht⟩ := hm.methods classRef c hc
    refine ⟨_, defineMethod_eq hc ht selector x, fun d m' htrail => ?_⟩
    obtain ⟨hm', hfollow⟩ := htrail.lookupsFollow (h.epochs.write _ _) (hm.define ht _)
    refine ⟨hm'.findsNearest, fun v vs hv hvs => hfollow.ancestry v vs hv (hvs.define ht _), ?_, ?_⟩
    · intro v hv hinherits
      rw [hfollow.lookup v selector hv, hm.lookup_define ht hc hinherits]
      rfl
    · intro v key hv hother
      rw [hfollow.lookup v key hv, hm.lookup_define_of_not ht hc hother]

theorem Operation.newPoint_admitted {m : Machine} (hobject : m.isClass m.core.object = true) :
    (newPoint m).Admitted .free m := by
  have hlive := Machine.HasClass.live (Primitive.isClass_stamp hobject)
  exact admitted_free (by simpa [values, newPoint] using hlive) rfl

def Machine.finding (m : Machine) (v : Value) (selector : String) : Value :=
  ((m.lookup v selector).toOption.bind id).getD .nil

/-- Points get their own way of being made, and a collection moves their class. All other
classes go on as before. -/
theorem points_override_new : ∃ m point x y m₁ d m', Occurs (Operation.Admitted .free) m ∧
    (m.memory.method? x).isSome ∧ x ≠ y ∧ m.lookup point "new" = .ok (some y) ∧
    defineMethod point "new" x m = .ok () m₁ ∧ Trail Collects m₁ d m' ∧
    point.rename d.place ≠ point ∧
    m'.lookup (point.rename d.place) "new" = .ok (some (x.rename d.place)) ∧
    m'.lookup m'.core.object "new" = .ok (some (y.rename d.place)) := by
  have hboots : boots .tight 5 (fun m₀ =>
      let m₁ := after (Operation.newString "garbage").run m₀
      let m := after (Operation.newPoint m₁).run m₁
      let point := m.named "Point"
      let x := m.finding m.core.object "basicClass"
      let y := m.finding point "new"
      Action.answers (defineMethod point "new" x) m fun _ m₂ =>
        Action.answers collectGarbage m₂ fun _ m' =>
          decide (m₁.isClass m₁.core.object ∧ (m.memory.method? x).isSome ∧ x ≠ y ∧
            (m.lookup point "new").toOption = some (some y) ∧
            (m.lookup m.core.object "new").toOption = some (some y) ∧
            (m.memory.class? point).isSome ∧ point ≠ m.core.object ∧
            (m.memory.class? m.core.object).map ClassInfo.superclass = some .nil ∧
            (m₂.globals.get? "Point") = some point ∧
            (m'.globals.get? "Point") ≠ some point)) = true := by decide +kernel
  obtain ⟨m₀, hboot, htest⟩ := exists_of_boots hboots
  obtain ⟨_, m₂, hdefine, htest⟩ := Action.exists_of_answers htest
  obtain ⟨_, m', hcollect, htest⟩ := Action.exists_of_answers htest
  obtain ⟨hobject, hx, hne, hpoint, hinherited, hclass, hother, hroot, hglobal, hmoved⟩ :=
    of_decide_eq_true htest
  have hgarbage := Attained.operated (.boot hboot) (Operation.newString_admitted "garbage" m₀)
  have hm := Occurs.attained (hgarbage.operated (Operation.newPoint_admitted hobject))
  generalize after (Operation.newPoint _).run _ = m at *
  generalize m.finding _ "basicClass" = x at *
  generalize m.finding _ "new" = y at *
  generalize m.named "Point" = point at *
  obtain ⟨c, hc⟩ := Option.isSome_iff_exists.mp hclass
  obtain ⟨c₀, hc₀, hnil⟩ := Option.map_eq_some_iff.mp hroot
  have hc := Memory.class?_eq_some.mp hc
  have hc₀ := Memory.class?_eq_some.mp hc₀
  obtain ⟨m₂', hdefine', hafter⟩ := (nearest_definition_is_found hm).2 point c hc "new" x
  obtain ⟨t, ht⟩ := hm.ranked.hierarchy.methods point c hc
  have hwrite := defineMethod_eq hc ht "new" x
  rw [hwrite] at hdefine hdefine'
  cases hdefine
  cases hdefine'
  obtain ⟨d, hcollects⟩ := collects_of_collectGarbage hcollect
  obtain ⟨kept, hshifted⟩ := hcollects.shifted (hm.epochs.write _ _)
  have hfollow := hshifted.rootsFollow
  obtain ⟨-, hoverrides⟩ := hafter d m' (.one hcollects)
  have hvalue := Dictionary.mem_values_of_get? hglobal
  have hkeeps : d.Keeps point :=
    hfollow.kept point (Machine.value_mem_roots.mpr (.inr (.inl hvalue)))
  have hkeeps₀ : d.Keeps m.core.object :=
    hfollow.kept _
      (Machine.value_mem_roots.mpr (.inl (by simp [CoreClasses.values, Machine.write])))
  have hchain : m.memory.Ancestry m.core.object [m.core.object] :=
    .up hc₀ (hnil ▸ .top fun c hc => by cases hc)
  have hapart : ¬m.memory.Inherits "new" m.core.object point := by
    rw [hchain.inherits_iff]
    rintro ⟨before, after, heq, -⟩
    have hmem : point ∈ [m.core.object] := heq ▸ by simp
    exact hother (List.mem_singleton.mp hmem)
  obtain ⟨vs, hvs⟩ := hm.ranked.hierarchy.exists_ancestry c.superclass
  refine ⟨m, point, x, y, _, d, m', hm, hx, hne, eq_ok_of_toOption hpoint, hwrite,
    .one hcollects, ?_, hoverrides.defined point hkeeps ⟨[], vs, .up hc hvs, by simp⟩, ?_⟩
  · intro hstill
    rw [hfollow.globals, Dictionary.get?_map, hglobal, Option.map_some, hstill] at hmoved
    exact hmoved rfl
  · have hfound := hoverrides.unchanged m.core.object "new" hkeeps₀ (fun h => hapart h.2)
    rw [eq_ok_of_toOption hinherited] at hfound
    rw [hfollow.core]
    exact hfound

end ObjectMachine

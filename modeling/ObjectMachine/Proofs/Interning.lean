import ObjectMachine.Proofs.Trails

/-!
# One symbol for each name

The symbol table and the symbols in memory match: each entry refers to the symbol
of its name, and memory holds no other symbol. This is so in every machine that a
host can get to. Once a name has its symbol it keeps it: collections move it, and
interning the name again answers it where it has gone.
-/

namespace ObjectMachine

open ObjectMachine.Action

/-- The symbol table lists the symbols in memory. -/
structure Machine.Interned (m : Machine) : Prop where
  entry : ∀ name v, (name, v) ∈ m.symbols.entries → m.memory.body? v = some (.symbol name)
  listed : ∀ name v, m.memory.body? v = some (.symbol name) → m.symbols.get? name = some v

namespace Machine.Interned

variable {m m' : Machine}

theorem body?_of_get? (h : m.Interned) {name : String} {v : Value}
    (hv : m.symbols.get? name = some v) : m.memory.body? v = some (.symbol name) :=
  h.entry name v (m.symbols.mem_entries_of_get? hv)

theorem eq_iff (h : m.Interned) {v w : Value} {s t : String}
    (hv : m.memory.body? v = some (.symbol s)) (hw : m.memory.body? w = some (.symbol t)) :
    s = t ↔ v = w := by
  constructor
  · rintro rfl
    have heq := (h.listed s v hv).symm.trans (h.listed s w hw)
    exact Option.some.inj heq
  · rintro rfl
    exact Body.symbol.inj (Option.some.inj (hv.symm.trans hw))

theorem steady (h : m.Interned) (hsymbols : m'.symbols = m.symbols)
    (hbodies : ∀ v name, m'.memory.body? v = some (.symbol name) ↔
      m.memory.body? v = some (.symbol name)) : m'.Interned := by
  constructor
  · intro name v hv
    rw [hsymbols] at hv
    exact (hbodies v name).mpr (h.entry name v hv)
  · intro name v hv
    rw [hsymbols]
    exact h.listed name v ((hbodies v name).mp hv)

/-- Bodies may change as long as no symbol is touched or made. -/
theorem write (h : m.Interned) (v : Value) {g : Body → Body}
    (hg : ∀ b name, m.memory.body? v = some b → (g b = .symbol name ↔ b = .symbol name)) :
    (m.write v g).Interned := by
  refine h.steady rfl ?_
  intro v' name
  have hbody : (m.write v g).memory.body? v' = _ := m.memory.body?_modifyBody v v' g
  rw [hbody]
  by_cases hv : v = v'
  · subst hv
    rw [if_pos rfl]
    cases hb : m.memory.body? v with
    | none => rfl
    | some b =>
      rw [Option.map_some, Option.some.injEq, Option.some.injEq]
      exact hg b name hb
  · rw [if_neg hv]

theorem relocated {kept : Root → Prop} {f : Nat → Nat} (h : m.Interned)
    (hm' : Relocated kept f m m') : m'.Interned := by
  constructor
  · intro name v' hv'
    rw [hm'.symbols] at hv'
    obtain ⟨⟨_, v⟩, hv, heq⟩ := List.mem_map.mp hv'
    cases heq
    have hkept : kept (.value v) :=
      hm'.roots _ (Machine.value_mem_roots.mpr (.inr (.inr (.inl (List.mem_map_of_mem hv)))))
    exact hm'.body? hkept (h.entry _ v hv)
  · intro name v' hv'
    obtain ⟨v, b, -, hb, rfl, hsymbol⟩ := hm'.exists_body? hv'
    cases b with
    | symbol s =>
      cases hsymbol
      rw [hm'.symbols, Dictionary.get?_map, h.listed _ v hb]
      rfl
    | _ => cases hsymbol

theorem append (h : m.Interned) {o : HeapObject} (ho : ∀ name, o.body ≠ .symbol name) :
    (m.append o).Interned := by
  refine h.steady rfl ?_
  intro v name
  constructor
  · intro hv
    rcases Memory.body?_of_append hv with hold | ⟨-, hnew⟩
    · exact hold
    · exact absurd hnew.symm (ho name)
  · exact fun hv => Memory.body?_append hv o

/-- A name without a symbol gets one. -/
theorem add (h : m.Interned) {name : String} (hname : m.symbols.get? name = none)
    (classRef : Value) :
    Interned { m.append (.new classRef (.symbol name)) with
      symbols := m.symbols.insert name m.nextPlace } := by
  have hnew : (m.memory.append (.new classRef (.symbol name))).body? m.nextPlace =
      some (.symbol name) :=
    congrArg (Option.map HeapObject.body) (m.memory.object?_append_new _)
  constructor
  · intro name' v hv
    rcases Dictionary.mem_insertEntry hv with heq | hold
    · cases heq
      exact hnew
    · exact Memory.body?_append (h.entry name' v hold) _
  · intro name' v hv
    rw [Dictionary.get?_insert]
    rcases Memory.body?_of_append hv with hold | ⟨rfl, heq⟩
    · have hlisted := h.listed name' v hold
      have hne : name' ≠ name := by
        rintro rfl
        rw [hname] at hlisted
        cases hlisted
      rw [if_neg hne]
      exact hlisted
    · rw [if_pos (Body.symbol.inj heq)]
      rfl

theorem places (h : m.Interned) (hepochs : m.memory.EpochsPast) {o : HeapObject} {d : Displacement}
    {v : Value} (hp : Places m o d v m') (ho : ∀ name, o.body ≠ .symbol name) : m'.Interned := by
  obtain ⟨kept, m₁, hshifted, -, -, rfl⟩ := hp.shifted hepochs
  apply (h.relocated hshifted.toRelocated).append
  intro name hname
  rw [HeapObject.mapEdges_body] at hname
  cases hbody : o.body with
  | symbol s => exact ho s hbody
  | _ =>
    rw [hbody] at hname
    cases hname

end Machine.Interned

section

variable {m m' : Machine} {d : Displacement}

theorem Creates.ne_symbol {o : HeapObject} (h : Creates m o) (name : String) :
    o.body ≠ .symbol name := by
  intro hbody
  cases h with
  | block => cases hbody
  | primitive hmakes =>
    cases hmakes with
    | emptyBlock => cases hbody
    | other hlasts =>
      rw [hbody] at hlasts
      cases hlasts

theorem Act.interned (h : Act m d m') (hepochs : m.memory.EpochsPast) (hm : m.Interned) :
    m'.Interned := by
  cases h with
  | write v hg =>
    apply hm.write
    intro b name hb
    constructor
    · intro heq
      rwa [hg.eq_self (.inr (heq ▸ rfl))] at heq
    · intro heq
      rw [hg.eq_self (.inl (heq ▸ rfl)), heq]
  | create hcreates hplaces => exact hm.places hepochs hplaces hcreates.ne_symbol
  | leave =>
    rw [Machine.leave]
    cases m.active with
    | none => exact hm
    | some id => exact hm.steady rfl fun _ _ => Iff.rfl
  | _ => exact hm.steady rfl fun _ _ => Iff.rfl

variable {brings : Body → Prop}

theorem Change.interned (h : Change brings m d m') (hbrings : ∀ name, ¬brings (.symbol name))
    (hepochs : m.memory.EpochsPast) (hm : m.Interned) : m'.Interned := by
  cases h with
  | act hact => exact hact.interned hepochs hm
  | reroot hm' =>
    apply hm.steady hm'.symbols
    rw [hm'.memory]
    exact fun _ _ => Iff.rfl
  | make ho hplaces =>
    apply hm.places hepochs hplaces
    intro name hbody
    rw [hbody] at ho
    exact hbrings name (ho rfl)
  | intern hname hplaces =>
    obtain ⟨kept, m₁, hshifted, -, rfl, rfl⟩ := hplaces.shifted hepochs
    have hm₁ := hm.relocated hshifted.toRelocated
    apply hm₁.add
    rw [hshifted.symbols, Dictionary.get?_map, hname]
    rfl
  | define t' hd =>
    apply hm.write
    intro b name hb
    rw [hd] at hb
    cases hb
    exact ⟨fun heq => (by cases heq), fun heq => (by cases heq)⟩
  | adopt =>
    refine hm.steady rfl fun v name => ?_
    rw [m.body?_adopt]
  | collect hc =>
    rw [← List.append_nil m.roots] at hc
    exact hm.relocated (Relocated.collected hepochs hc)

theorem Linked.interned (h : Linked (Change brings) m m') (hbrings : ∀ name, ¬brings (.symbol name))
    (hepochs : m.memory.EpochsPast) (hm : m.Interned) : m'.Interned :=
  (h.keeps hepochs (fun hepochs hchange hm => hchange.interned hbrings hepochs hm) hm).2

theorem Operation.not_brings_symbol (op : Operation) (name : String) :
    ¬op.Brings (.symbol name) := by
  intro h
  cases h

/-- The symbol table and memory match in every machine that occurs. -/
theorem Occurs.interned {Q : Machine → Operation → Prop} (h : Occurs Q m) : m.Interned := by
  apply h.keeps
  · intro settings maxDepth
    constructor
    · intro name v hv
      cases hv
    · intro name v hv
      rw [Machine.body?_bare] at hv
      cases hv
  · intro m m' hepochs hlinked hm
    apply hlinked.interned _ hepochs hm
    intro name hinitial
    cases hinitial
  · intro m m' op _ hepochs hlinked hm
    exact hlinked.interned op.not_brings_symbol hepochs hm

theorem RootsFollow.symbol (h : RootsFollow d m m') {name : String} {v : Value}
    (hv : m.symbols.get? name = some v) :
    d.Keeps v ∧ m'.symbols.get? name = some (v.rename d.place) := by
  constructor
  · apply h.kept
    exact Machine.value_mem_roots.mpr (.inr (.inr (.inl (Dictionary.mem_values_of_get? hv))))
  · rw [h.symbols, Dictionary.get?_map, hv]
    rfl

theorem Change.symbol (h : Change brings m d m') (hepochs : m.memory.EpochsPast) {name : String}
    {v : Value} (hv : m.symbols.get? name = some v) :
    d.Keeps v ∧ m'.symbols.get? name = some (v.rename d.place) := by
  have hsame := (RootsFollow.still m).symbol hv
  cases h with
  | act hact => exact (hact.rootsFollow hepochs).symbol hv
  | reroot hm' =>
    rw [hm'.symbols]
    exact hsame
  | make _ hplaces => exact (hplaces.rootsFollow hepochs).symbol hv
  | @intern m₁ name' _ _ hname hplaces =>
    obtain ⟨hkept, hfound⟩ := (hplaces.rootsFollow hepochs).symbol hv
    have hne : name ≠ name' := by
      rintro rfl
      rw [hname] at hv
      cases hv
    rw [Dictionary.get?_insert, if_neg hne]
    exact ⟨hkept, hfound⟩
  | define | adopt => exact hsame
  | collect hc =>
    rw [← List.append_nil m.roots] at hc
    exact (Shifted.collected hepochs hc).rootsFollow.symbol hv

/-- Once a name has its symbol, it keeps it all the way. -/
theorem Trail.symbol (h : Trail (Change brings) m d m') (hepochs : m.memory.EpochsPast)
    {name : String} {v : Value} (hv : m.symbols.get? name = some v) :
    d.Keeps v ∧ m'.symbols.get? name = some (v.rename d.place) := by
  induction h with
  | refl => exact (RootsFollow.still _).symbol hv
  | tail htrail hchange ih =>
    have hepochs₁ := Linked.epochs ⟨_, htrail⟩ hepochs
    obtain ⟨hkept, hfound⟩ := ih
    obtain ⟨hkept', hfound'⟩ := hchange.symbol hepochs₁ hfound
    rw [Displacement.keeps_andThen, Displacement.rename_andThen]
    exact ⟨⟨hkept, hkept'⟩, hfound'⟩

theorem intern_of_get? {name : String} {v : Value} (hv : m.symbols.get? name = some v) :
    intern name m = .ok v m := by
  rw [intern, bind_get, hv]
  rfl

theorem get?_of_intern {name : String} {v : Value} (h : intern name m = .ok v m') :
    m'.symbols.get? name = some v := by
  rw [intern, bind_get] at h
  cases hfound : m.symbols.get? name with
  | some w =>
    rw [hfound] at h
    cases h
    exact hfound
  | none =>
    rw [hfound] at h
    dsimp only at h
    rw [bind_get] at h
    rcases allocate_places (.new m.core.symbol (.symbol name)) m with
      ⟨d, w, m₁, -, heq⟩ | ⟨f, -, heq⟩
    · rw [bind_ok heq, bind_modify] at h
      cases h
      rw [Dictionary.get?_insert, if_pos rfl]
    · rw [bind_error heq] at h
      cases h

end

/-- What comes after `m`: the machines that further operations leave, and those that
their programs go through. -/
inductive Ensues (m : Machine) : Machine → Prop
  | here : Ensues m m
  | operated {m₁ : Machine} (op : Operation) : Ensues m m₁ → Ensues m (after op.run m₁)
  | visited {m₁ m₂ : Machine} {op : Operation} {left : Nat} : Ensues m m₁ →
      op.Visits m₁ left m₂ → Ensues m m₂

def Operation.CanBring (b : Body) : Prop := ∃ op : Operation, op.Brings b

theorem Ensues.linked {m m' : Machine} (h : Ensues m m') :
    Linked (Change Operation.CanBring) m m' := by
  have hmono : ∀ {m m' : Machine} (op : Operation), Linked (Change op.Brings) m m' →
      Linked (Change Operation.CanBring) m m' :=
    fun op hlinked => hlinked.mono fun _ _ _ hchange => hchange.mono fun _ hb => ⟨op, hb⟩
  induction h with
  | here => exact .refl m
  | @operated m₁ op _ ih =>
    rw [after_eq]
    exact ih.trans (hmono op (op.run_linked m₁))
  | @visited _ _ op _ _ hvisits ih => exact ih.trans (hmono op hvisits.linked)

/-- In every machine that a host can get to, the symbol table lists exactly the
symbols in memory, one for each name. A name that has been interned has its symbol
for good: whatever happens next, the symbol survives, and interning the name answers
it where it has gone and changes nothing. -/
theorem names_have_one_symbol {m : Machine} (h : Occurs (fun _ _ => True) m) :
    (∀ name v, (name, v) ∈ m.symbols.entries → m.memory.body? v = some (.symbol name)) ∧
    (∀ name v, m.memory.body? v = some (.symbol name) → m.symbols.get? name = some v) ∧
    (∀ v w s t, m.memory.body? v = some (.symbol s) → m.memory.body? w = some (.symbol t) →
      (s = t ↔ v = w)) ∧
    ∀ name v m₁, intern name m = .ok v m₁ → ∀ m₂, Ensues m₁ m₂ →
      (∃ d, Trail (Change Operation.CanBring) m₁ d m₂) ∧
      ∀ d, Trail (Change Operation.CanBring) m₁ d m₂ →
        d.Keeps v ∧ m₂.memory.body? (v.rename d.place) = some (.symbol name) ∧
          intern name m₂ = .ok (v.rename d.place) m₂ := by
  have hm := h.interned
  refine ⟨hm.entry, hm.listed, fun v w s t => hm.eq_iff, ?_⟩
  intro name v m₁ hintern m₂ hensues
  refine ⟨hensues.linked, ?_⟩
  intro d htrail
  have hlinked : Linked (Change Operation.CanBring) m m₁ := by
    have hrun := (Operation.intern name).run_linked m
    rw [show (Operation.intern name).run m = _ from hintern] at hrun
    exact hrun.mono fun _ _ _ hchange => hchange.mono fun _ hb => ⟨_, hb⟩
  have hbrings : ∀ s, ¬Operation.CanBring (.symbol s) :=
    fun s hs => hs.elim fun op hop => op.not_brings_symbol s hop
  have hm₂ := (hlinked.trans ⟨d, htrail⟩).interned hbrings h.epochs hm
  obtain ⟨hkept, hfound⟩ := htrail.symbol (hlinked.epochs h.epochs) (get?_of_intern hintern)
  exact ⟨hkept, hm₂.body?_of_get? hfound, intern_of_get? hfound⟩

/-- A collection moves a symbol, and interning its name answers the new place. -/
theorem moved_symbol_is_still_the_one : ∃ m v m₁ m₂ w d, Occurs (fun _ _ => True) m ∧
    intern "fresh" m = .ok v m₁ ∧ Ensues m₁ m₂ ∧ Trail (Change Operation.CanBring) m₁ d m₂ ∧
    w ≠ v ∧ w = v.rename d.place ∧ intern "fresh" m₂ = .ok w m₂ := by
  have hboots : boots .tight 5 (fun m =>
      let m := after (Operation.newString "garbage").run m
      Action.answers (intern "fresh") m fun v m₁ =>
        Action.answers (intern "fresh") (after Operation.collectGarbage.run m₁) fun w _ =>
          decide (w ≠ v)) = true := by decide +kernel
  obtain ⟨m, hboot, htest⟩ := exists_of_boots hboots
  obtain ⟨v, m₁, hv, htest⟩ := Action.exists_of_answers htest
  obtain ⟨w, m₃, hw, hne⟩ := Action.exists_of_answers htest
  have hm : Occurs (fun _ _ => True) (after (Operation.newString "garbage").run m) :=
    .attained (.operated (.boot hboot) trivial)
  have hensues : Ensues m₁ (after Operation.collectGarbage.run m₁) := .operated _ .here
  obtain ⟨⟨d, htrail⟩, hafter⟩ := (names_have_one_symbol hm).2.2.2 "fresh" v m₁ hv _ hensues
  obtain ⟨-, -, hsame⟩ := hafter d htrail
  rw [hsame] at hw
  cases hw
  exact ⟨_, v, m₁, _, _, d, hm, hv, hensues, htrail, of_decide_eq_true hne, rfl, hsame⟩

end ObjectMachine

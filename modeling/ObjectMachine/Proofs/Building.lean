import ObjectMachine.Proofs.LiteralTable
import ObjectMachine.Proofs.Structure
import ObjectMachine.Proofs.Supplies

/-!
# Building a method

Building materializes exactly the literal table of the draft, wherever collections fall
between its allocations: the class and the values wait on the scratch stack, and what is
made joins them there. Nothing else stays on the stack, and a method that is installed is
the one that its class finds.
-/

namespace ObjectMachine

open ObjectMachine.Action

/-- What a literal has become: the value itself, moved, or the symbol of the name, or a
fresh string. -/
def Literal.Becomes (d : Displacement) (m m' : Machine) (u : Value) : Literal → Prop
  | .value v => d.Keeps v ∧ u = v.rename d.place
  | .symbol name => m'.symbols.get? name = some u ∧ m'.memory.body? u = some (.symbol name)
  | .string s => m'.memory.body? u = some (.string s) ∧ Fresh d m u

section

variable {literal : Literal} {m m₁ m' : Machine} {d e : Displacement} {u : Value}

theorem Trail.symbol_of_supplies (h : Trail Supplies m d m') (hepochs : m.memory.EpochsPast)
    {name : String} (hu : m.symbols.get? name = some u) :
    d.Keeps u ∧ m'.symbols.get? name = some (u.rename d.place) :=
  (h.mono fun _ _ _ hstep => hstep.change).symbol hepochs hu

theorem Trail.interned_of_supplies (h : Trail Supplies m d m') (hepochs : m.memory.EpochsPast)
    (hm : m.Interned) : m'.Interned :=
  Linked.interned ⟨d, h.mono fun _ _ _ hstep => hstep.change⟩
    (fun name hname => hname name rfl) hepochs hm

theorem Literal.Becomes.live (h : literal.Becomes d m m' u) (hmade : literal.isMade = true) :
    m'.memory.Live u := by
  cases literal with
  | value v => cases hmade
  | symbol name => exact Memory.live_of_body? h.2
  | string s => exact Memory.live_of_body? h.1

/-- What has been made for a literal moves with the rest. -/
theorem Literal.Becomes.trans (h : literal.Becomes e m m₁ u) (hepochs : m.memory.EpochsPast)
    (htrail : Trail Supplies m e m₁) (htrail' : Trail Supplies m₁ d m') (hu : d.Keeps u) :
    literal.Becomes (e.andThen d) m m' (u.rename d.place) := by
  obtain ⟨hepochs₁, hconveys⟩ := htrail.supplied hepochs
  obtain ⟨-, hconveys'⟩ := htrail'.supplied hepochs₁
  cases literal with
  | value v =>
    obtain ⟨hv, rfl⟩ := h
    exact ⟨Displacement.keeps_andThen.mpr ⟨hv, hu⟩, by rw [e.rename_andThen d]; rfl⟩
  | symbol name =>
    exact ⟨(htrail'.symbol_of_supplies hepochs₁ h.1).2, hconveys'.body? u _ hu h.2⟩
  | string s =>
    exact ⟨hconveys'.body? u _ hu h.1, hconveys.fresh_trans hconveys' h.2 hu h.1⟩

/-- What is made later was not there before. -/
theorem Literal.Becomes.of_later (h : literal.Becomes d m₁ m' u) (hmade : literal.isMade = true)
    (hepochs : m.memory.EpochsPast) (htrail : Trail Supplies m e m₁) :
    literal.Becomes (e.andThen d) m m' u := by
  cases literal with
  | value v => cases hmade
  | symbol name => exact h
  | string s => exact ⟨h.1, (htrail.supplied hepochs).2.fresh_of_later h.2⟩

end

/-- From `place` on, the scratch stack holds what has been made for the literals. The rest
of the stack, and the values among the literals, have only moved. -/
structure Filled (literals : List Literal) (place : Nat) (d : Displacement) (m m' : Machine) :
    Prop where
  trail : Trail Supplies m d m'
  size : m'.scratch.size = m.scratch.size
  moved : ∀ k v, m.scratch[k]? = some v →
    (∀ j l, literals[j]? = some l → k = place + j → l.isMade = false) →
    d.Keeps v ∧ m'.scratch[k]? = some (v.rename d.place)
  made : ∀ j l, literals[j]? = some l → l.isMade = true →
    ∃ u, m'.scratch[place + j]? = some u ∧ l.Becomes d m m' u

namespace Filled

variable {literal : Literal} {rest : List Literal} {place : Nat} {d e : Displacement}
  {m m₁ m' : Machine} {u : Value}

theorem nil (place : Nat) (m : Machine) : Filled [] place .still m m := by
  have hfollow : ScratchFollows .still m m := .still rfl
  exact ⟨.refl m, rfl, fun k v hv _ => hfollow.getElem? hv, by simp⟩

theorem cons (hepochs : m.memory.EpochsPast) (htrail : Trail Supplies m e m₁)
    (hsize : m₁.scratch.size = m.scratch.size)
    (hmoved : ∀ k v, m.scratch[k]? = some v → (k = place → literal.isMade = false) →
      e.Keeps v ∧ m₁.scratch[k]? = some (v.rename e.place))
    (hmade : literal.isMade = true →
      ∃ u, m₁.scratch[place]? = some u ∧ literal.Becomes e m m₁ u)
    (hrest : Filled rest (place + 1) d m₁ m') :
    Filled (literal :: rest) place (e.andThen d) m m' := by
  refine ⟨htrail.trans hrest.trail, hrest.size.trans hsize, ?_, ?_⟩
  · intro k v hv hk
    obtain ⟨hkeeps, hv₁⟩ := hmoved k v hv fun heq => hk 0 literal rfl heq
    obtain ⟨hkeeps', hv'⟩ := hrest.moved k _ hv₁ fun j l hl heq => hk (j + 1) l hl (by omega)
    refine ⟨Displacement.keeps_andThen.mpr ⟨hkeeps, hkeeps'⟩, ?_⟩
    rw [hv', e.rename_andThen d]
    rfl
  · intro j l hl hl'
    cases j with
    | zero =>
      cases hl
      obtain ⟨u, hu, hbecomes⟩ := hmade hl'
      obtain ⟨hkeeps, hu'⟩ := hrest.moved place u hu fun j l _ heq => by omega
      exact ⟨_, hu', hbecomes.trans hepochs htrail hrest.trail hkeeps⟩
    | succ j =>
      obtain ⟨u, hu, hbecomes⟩ := hrest.made j l hl hl'
      refine ⟨u, ?_, hbecomes.of_later hl' hepochs htrail⟩
      rwa [Nat.add_right_comm] at hu

theorem consValue (v : Value) (hepochs : m.memory.EpochsPast)
    (hrest : Filled rest (place + 1) d m m') : Filled (.value v :: rest) place d m m' := by
  have hfollow : ScratchFollows .still m m := .still rfl
  have h : Filled (.value v :: rest) place (Displacement.still.andThen d) m m' :=
    cons hepochs (.refl m) rfl (fun k v hv _ => hfollow.getElem? hv)
      (fun hmade => by cases hmade) hrest
  rwa [d.still_andThen] at h

theorem consMade (hepochs : m.memory.EpochsPast) (hplace : place < m.scratch.size)
    (hmade : literal.isMade = true) (htrail : Trail Supplies m e m₁)
    (hfollow : ScratchFollows e m m₁) (hbecomes : literal.Becomes e m m₁ u)
    (hrest : Filled rest (place + 1) d { m₁ with scratch := m₁.scratch.set! place u } m') :
    Filled (literal :: rest) place (e.andThen d) m m' := by
  have hsize : m₁.scratch.size = m.scratch.size := by rw [hfollow.scratch, Array.size_map]
  have htrail' := htrail.tail (.stack m₁ (m₁.scratch.set! place u))
  rw [e.andThen_still] at htrail'
  refine cons hepochs htrail' ?_ ?_ ?_ hrest
  · simp [hsize]
  · intro k v hv hk
    have hne : place ≠ k := by
      rintro rfl
      rw [hk rfl] at hmade
      cases hmade
    obtain ⟨hkeeps, hv'⟩ := hfollow.getElem? hv
    exact ⟨hkeeps, by simp [hne, hv']⟩
  · intro _
    refine ⟨u, by simp [hsize, hplace], ?_⟩
    cases literal <;> exact hbecomes

/-- What is made afterwards moves the table along. -/
theorem follow {literals : List Literal} (h : Filled literals place d m m₁)
    (hepochs : m.memory.EpochsPast) (htrail : Trail Supplies m₁ e m')
    (hfollow : ScratchFollows e m₁ m') : Filled literals place (d.andThen e) m m' := by
  refine ⟨h.trail.trans htrail, ?_, ?_, ?_⟩
  · rw [hfollow.scratch, Array.size_map, h.size]
  · intro k v hv hk
    obtain ⟨hkeeps, hv₁⟩ := h.moved k v hv hk
    obtain ⟨hkeeps', hv'⟩ := hfollow.getElem? hv₁
    refine ⟨Displacement.keeps_andThen.mpr ⟨hkeeps, hkeeps'⟩, ?_⟩
    rw [hv', d.rename_andThen e]
    rfl
  · intro j l hl hmade
    obtain ⟨u, hu, hbecomes⟩ := h.made j l hl hmade
    obtain ⟨hkeeps, hu'⟩ := hfollow.getElem? hu
    exact ⟨_, hu', hbecomes.trans hepochs h.trail htrail hkeeps⟩

end Filled

/-- The symbol or string of a literal is made, or the memory cannot grow. -/
def Makes (literal : Literal) (x : Action Value) (m : Machine) : Prop :=
  OutOfCapacity (x m) ∨ ∃ d v m', x m = .ok v m' ∧ m'.Intact .free ∧ Trail Supplies m d m' ∧
    ScratchFollows d m m' ∧ literal.Becomes d m m' v

section

variable {m : Machine} (hm : m.Intact .free)

include hm

theorem intern_makes (hinterned : m.Interned) (name : String) :
    Makes (.symbol name) (intern name) m := by
  rcases intern_supplies hm name with hfull | ⟨d, v, m', hok, hm', htrail, hfollow, hv⟩
  · exact .inl hfull
  · have hbody := (htrail.interned_of_supplies hm.epochs hinterned).body?_of_get? hv
    exact .inr ⟨d, v, m', hok, hm', htrail, hfollow, hv, hbody⟩

theorem newString_makes (s : String) : Makes (.string s) (newString s) m := by
  rcases (Made.string s (by simp)).supplies hm (by simp [HeapObject.new]) with
    hfull | ⟨d, v, m', hok, hm', hsupplies, hfollow, hbody, hfresh⟩
  · exact .inl hfull
  · exact .inr ⟨d, v, m', hok, hm', .one hsupplies, hfollow, hbody, hfresh⟩

end

namespace Draft

/-- Filling makes every literal that has to be made, or the memory cannot grow. -/
theorem fill_filled {m : Machine} {literals : List Literal} {place : Nat} (hm : m.Intact .free)
    (hinterned : m.Interned) (hsize : place + literals.length ≤ m.scratch.size) :
    OutOfCapacity (fill literals place m) ∨ ∃ d m', fill literals place m = .ok () m' ∧
      m'.Intact .free ∧ Filled literals place d m m' := by
  induction literals generalizing m place with
  | nil => exact .inr ⟨.still, m, rfl, hm, .nil place m⟩
  | cons literal rest ih =>
    rw [List.length_cons] at hsize
    have hrest : place + 1 + rest.length ≤ m.scratch.size := by omega
    -- symbols and strings are made and put on the stack in the same way
    have hmake : ∀ x, Makes literal x m → literal.isMade = true →
        fill (literal :: rest) place = (do
          let v ← x
          modify fun m => { m with scratch := m.scratch.set! place v }
          fill rest (place + 1)) →
        OutOfCapacity (fill (literal :: rest) place m) ∨ ∃ d m',
          fill (literal :: rest) place m = .ok () m' ∧ m'.Intact .free ∧
            Filled (literal :: rest) place d m m' := by
      rintro x (hfull | ⟨e, v, m₁, hok, hm₁, htrail, hfollow, hbecomes⟩) hmade hfill
      · left
        rw [hfill]
        exact hfull.bind
      · have hsize₁ : (m₁.scratch.set! place v).size = m.scratch.size := by simp [hfollow.scratch]
        have hm₂ := (Move.set_scratch hm₁ place (hbecomes.live hmade)).intact hm₁
        have hinterned₂ := (htrail.tail (.stack m₁ (m₁.scratch.set! place v))).interned_of_supplies
          hm.epochs hinterned
        have hrun : fill (literal :: rest) place m =
            fill rest (place + 1) { m₁ with scratch := m₁.scratch.set! place v } := by
          rw [hfill, bind_ok hok]
          rfl
        rw [hrun]
        rcases ih hm₂ hinterned₂ (hrest.trans_eq hsize₁.symm) with
          hfull | ⟨d, m', hok', hm', hfilled⟩
        · exact .inl hfull
        · exact .inr ⟨_, m', hok', hm',
            .consMade hm.epochs (by omega) hmade htrail hfollow hbecomes hfilled⟩
    cases literal with
    | value v =>
      rcases ih hm hinterned hrest with hfull | ⟨d, m', hok, hm', hfilled⟩
      · exact .inl hfull
      · exact .inr ⟨d, m', hok, hm', .consValue v hm.epochs hfilled⟩
    | symbol name => exact hmake _ (intern_makes hm hinterned name) rfl rfl
    | string s => exact hmake _ (newString_makes hm s) rfl rfl

/-- A method that is what the draft says, up to where things have gone since `m`. -/
structure Materializes (b : Draft) (d : Displacement) (m m' : Machine) (c : Method) : Prop where
  code : c.code = b.assembly.code
  temporaries : c.temporaries = b.temporaries
  primitive : c.primitive = b.primitive
  selector : (Literal.symbol b.selector).Becomes d m m' c.selector
  owner : d.Keeps b.owner ∧ c.owner = b.owner.rename d.place
  size : c.literals.size = b.literals.size
  literals : ∀ (i : Nat) l, b.literals[i]? = some l →
    ∃ u, c.literals[i]? = some u ∧ l.Becomes d m m' u

/-- Building has made a new method from the draft. Only objects have been placed on the way,
and the scratch stack is what it was. -/
structure Built (b : Draft) (d : Displacement) (m : Machine) (v : Value) (m' : Machine) :
    Prop where
  trail : Trail Supplies m d m'
  conveys : Conveys d m m'
  scratch : ScratchFollows d m m'
  fresh : Fresh d m v
  method : ∃ c, m'.memory.body? v = some (.method c) ∧ b.Materializes d m m' c

variable {b : Draft} {m : Machine}

/-- The class and the values of the draft wait on the scratch stack. -/
def opening (b : Draft) (m : Machine) : Machine :=
  { m with scratch := m.scratch.push b.owner ++ b.literals.map Literal.placeholder }

theorem size_opening : (b.opening m).scratch.size = m.scratch.size + 1 + b.literals.size := by
  simp [opening]

theorem opening_old {k : Nat} (hk : k < m.scratch.size) :
    (b.opening m).scratch[k]? = m.scratch[k]? := by
  rw [opening, Array.getElem?_append_left (by simp; omega), Array.getElem?_push, if_neg hk.ne]

theorem opening_owner : (b.opening m).scratch[m.scratch.size]? = some b.owner := by
  have hlt : m.scratch.size < (m.scratch.push b.owner).size := by
    rw [Array.size_push]
    omega
  rw [opening, Array.getElem?_append_left hlt, Array.getElem?_push_size]

theorem opening_literal {i : Nat} {l : Literal} (hl : b.literals[i]? = some l) :
    (b.opening m).scratch[m.scratch.size + 1 + i]? = some l.placeholder := by
  have hle : (m.scratch.push b.owner).size ≤ m.scratch.size + 1 + i := by
    rw [Array.size_push]
    omega
  rw [opening, Array.getElem?_append_right hle, Array.size_push, Nat.add_sub_cancel_left,
    Array.getElem?_map, hl, Option.map_some]

section

variable {d : Displacement} {m₁ : Machine}
  (h : Filled b.literals.toList (m.scratch.size + 1) d (b.opening m) m₁)

include h

/-- Dropping the table leaves the stack as it was. -/
theorem scratchFollows_of_filled :
    ScratchFollows d m { m₁ with scratch := m₁.scratch.take m.scratch.size } := by
  have hslot : ∀ (k : Nat) v, m.scratch[k]? = some v →
      d.Keeps v ∧ m₁.scratch[k]? = some (v.rename d.place) := by
    intro k v hv
    have hk : k < m.scratch.size := (Array.getElem?_eq_some_iff.mp hv).1
    exact h.moved k v ((opening_old hk).trans hv) fun j l _ heq => by omega
  constructor
  · intro v hv
    obtain ⟨k, hk, hv⟩ := Array.mem_iff_getElem.mp hv
    exact (hslot k v (Array.getElem?_eq_some_iff.mpr ⟨hk, hv⟩)).1
  · have hsize := h.size
    rw [size_opening] at hsize
    apply Array.ext_getElem?
    intro k
    rw [Array.take_eq_extract, Array.getElem?_extract, Nat.sub_zero, Nat.zero_add,
      Array.getElem?_map]
    by_cases hk : k < m.scratch.size
    · have hv := Array.getElem?_eq_getElem hk
      rw [if_pos (by omega), (hslot k _ hv).2, hv, Option.map_some]
    · rw [if_neg (by omega), Array.getElem?_eq_none (by omega), Option.map_none]

theorem owner_of_filled : d.Keeps b.owner ∧
    m₁.scratch[m.scratch.size]? = some (b.owner.rename d.place) :=
  h.moved _ _ opening_owner fun j l _ heq => by omega

theorem literal_of_filled {i : Nat} {l : Literal} (hl : b.literals[i]? = some l) :
    ∃ u, (m₁.scratch.extract (m.scratch.size + 1) m₁.scratch.size)[i]? = some u ∧
      l.Becomes d m m₁ u := by
  have hlist : b.literals.toList[i]? = some l := by rw [Array.getElem?_toList, hl]
  have hi : i < m₁.scratch.size - (m.scratch.size + 1) := by
    have hlt := (Array.getElem?_eq_some_iff.mp hl).1
    have hsize := h.size
    rw [size_opening] at hsize
    omega
  rw [Array.getElem?_extract, if_pos (by omega)]
  cases hmade : l.isMade with
  | false =>
    have hmoved := h.moved _ _ (opening_literal hl) fun j l' hl' heq => ?_
    · cases l with
      | value v => exact ⟨_, hmoved.2, hmoved.1, rfl⟩
      | _ => cases hmade
    · obtain rfl : i = j := by omega
      rw [hlist] at hl'
      cases hl'
      exact hmade
  | true =>
    obtain ⟨u, hu, hbecomes⟩ := h.made i l hlist hmade
    refine ⟨u, hu, ?_⟩
    cases l <;> exact hbecomes

end

/-- The method that is made once the table has been filled. -/
def gathered (b : Draft) (mark : Nat) (selector : Value) (m : Machine) : Method where
  selector := selector
  code := b.assembly.code
  literals := m.scratch.extract (mark + 1) m.scratch.size
  temporaries := b.temporaries
  owner := m.scratch[mark]?.getD .nil
  primitive := b.primitive

/-- A method takes its class and its literals from the stack as they are when it has
been placed. -/
theorem map_gathered {d : Displacement} {m₁ m' : Machine} (h : ScratchFollows d m₁ m') (mark : Nat)
    (selector : Value) : (Body.method (b.gathered mark selector m₁)).map (Value.rename d.place) =
      .method (b.gathered mark (selector.rename d.place) m') := by
  simp only [gathered, Body.map, h.scratch, Body.method.injEq, Method.mk.injEq, Array.size_map,
    Array.getElem?_map, Array.map_extract, true_and, and_true]
  cases m₁.scratch[mark]? <;> rfl

/-- The method is what the draft says, whatever becomes of the stack after it. -/
theorem gathered_materializes {d : Displacement} {m₁ : Machine}
    (h : Filled b.literals.toList (m.scratch.size + 1) d (b.opening m) m₁)
    (hinterned : m₁.Interned) {selector : Value}
    (hselector : m₁.symbols.get? b.selector = some selector) (scratch : Array Value) :
    b.Materializes d m { m₁ with scratch } (b.gathered m.scratch.size selector m₁) := by
  obtain ⟨hkept, hmoved⟩ := owner_of_filled h
  refine ⟨rfl, rfl, rfl, ⟨hselector, hinterned.body?_of_get? hselector⟩, ⟨hkept, ?_⟩, ?_, ?_⟩
  · simp [gathered, hmoved]
  · have hsize := h.size
    rw [size_opening] at hsize
    simp only [gathered, Array.size_extract]
    omega
  · intro i l hl
    obtain ⟨u, hu, hbecomes⟩ := literal_of_filled h hl
    refine ⟨u, hu, ?_⟩
    cases l <;> exact hbecomes

theorem build_built (hm : m.Intact .free) (hinterned : m.Interned) (hb : b.Live m) :
    OutOfCapacity (b.build m) ∨ ∃ d v m', b.build m = .ok v m' ∧ b.Built d m v m' := by
  have hopen : Trail Supplies m .still (b.opening m) := .one (.stack m _)
  have hm₁ : (b.opening m).Intact .free := (hb.begin hm).intact hm
  have hinterned₁ := hopen.interned_of_supplies hm.epochs hinterned
  have hsize : m.scratch.size + 1 + b.literals.toList.length ≤ (b.opening m).scratch.size := by
    rw [size_opening, Array.length_toList]
  have hbuild : b.build m = (do
      fill b.literals.toList (m.scratch.size + 1)
      let selector ← intern b.selector
      let v ← newMethod (b.gathered m.scratch.size selector (← get))
      modify fun m' => { m' with scratch := m'.scratch.take m.scratch.size }
      return v : Action Value) (b.opening m) := rfl
  rcases fill_filled hm₁ hinterned₁ hsize with hfull | ⟨d₂, m₂, hfill, hm₂, hfilled⟩
  · left
    rw [hbuild]
    exact hfull.bind
  have hinterned₂ := hfilled.trail.interned_of_supplies hm₁.epochs hinterned₁
  rcases intern_makes hm₂ hinterned₂ b.selector with
    hfull | ⟨d₃, selector, m₃, hintern, hm₃, htrail₃, hfollow₃, hselector⟩
  · left
    rw [hbuild]
    exact .of_bind hfill hfull.bind
  have hfilled₃ := hfilled.follow hm₁.epochs htrail₃ hfollow₃
  have howner : m₃.memory.Live (m₃.scratch[m.scratch.size]?.getD .nil) := by
    rw [(owner_of_filled hfilled₃).2]
    exact hm₃.live_scratch (Array.mem_of_getElem? (owner_of_filled hfilled₃).2)
  have hliterals : ∀ v ∈ (b.gathered m.scratch.size selector m₃).literals, m₃.memory.Live v :=
    fun v hv => hm₃.live_scratch (mem_of_mem_extract hv)
  rcases newMethod_supplies hm₃ (hselector.live rfl) howner hliterals with
    hfull | ⟨d₄, v, m₄, hmethod, -, hsupplies, hfollow₄, hbody, hfresh⟩
  · left
    rw [hbuild]
    exact .of_bind hfill (.of_bind hintern (OutOfCapacity.of_bind rfl hfull.bind))
  right
  have hfilled₄ := hfilled₃.follow hm₁.epochs (.one hsupplies) hfollow₄
  have hinterned₃ := htrail₃.interned_of_supplies hm₂.epochs hinterned₂
  have hinterned₄ := (Trail.one hsupplies).interned_of_supplies hm₃.epochs hinterned₃
  obtain ⟨-, hselector'⟩ := (Trail.one hsupplies).symbol_of_supplies hm₃.epochs hselector.1
  rw [map_gathered hfollow₄] at hbody
  have htrail := (hopen.trans hfilled₄.trail).tail
    (.stack m₄ (m₄.scratch.take m.scratch.size))
  rw [Displacement.still_andThen, Displacement.andThen_still] at htrail
  refine ⟨_, v, { m₄ with scratch := m₄.scratch.take m.scratch.size }, ?_, htrail,
    (htrail.supplied hm.epochs).2, scratchFollows_of_filled hfilled₄, ?_, _, hbody, ?_⟩
  · rw [hbuild, bind_ok hfill, bind_ok hintern, bind_get, bind_ok hmethod]
    rfl
  · exact (hfilled₃.trail.supplied hm₁.epochs).2.fresh_of_later hfresh
  · exact gathered_materializes hfilled₄ hinterned₄ hselector' _

theorem lookupFrom_note (e : Event) (selector : String) (fuel : Nat) (v : Value) :
    (m.note e).lookupFrom selector fuel v = m.lookupFrom selector fuel v := by
  induction fuel generalizing v with
  | zero => rfl
  | succ fuel ih =>
    simp only [Machine.lookupFrom, ih]
    rfl

/-- Installing defines what has been built in the class that it was built for. -/
theorem install_eq {v : Value} {m' : Machine} {c : Method} {k : ClassInfo} {t : Dictionary}
    (hbuild : b.build m = .ok v m') (hc : m'.memory.body? v = some (.method c))
    (hk : m'.memory.body? c.owner = some (.classInfo k))
    (ht : m'.memory.body? k.methods = some (.dictionary t)) :
    b.install m = .ok v ((m'.write k.methods fun _ => .dictionary (t.insert b.selector v)).note
      (.installed (m'.className c.owner) b.selector)) := by
  have hbody : m'.body v = .ok (.method c) := by rw [Machine.body, hc]
  rw [install, bind_ok hbuild, bind_get, hbody, bind_ok (ofExcept_ok _)]
  dsimp only
  rw [bind_ok (defineMethod_eq hk ht b.selector v)]
  rfl

theorem install_finds (hm : m.Ranked) (hb : b.Live m) {d : Displacement} {v : Value} {m' : Machine}
    (hbuild : b.build m = .ok v m') (hbuilt : b.Built d m v m') {k : ClassInfo}
    (hk : m.memory.body? b.owner = some (.classInfo k)) :
    ∃ m'', b.install m = .ok v m'' ∧ m''.memory.body? v = m'.memory.body? v ∧
      m''.lookup (b.owner.rename d.place) b.selector = .ok (some v) := by
  have hm' := (((b.build_yields (by simp) hm.intact hb).result hbuild).1).ranked hm
  obtain ⟨c, hc, hmaterial⟩ := hbuilt.method
  obtain ⟨hkept, howner⟩ := hmaterial.owner
  have hk' := hbuilt.conveys.body? b.owner _ hkept hk
  obtain ⟨t, ht⟩ := hm'.hierarchy.methods _ _ hk'
  refine ⟨_, install_eq hbuild hc (howner ▸ hk') ht, ?_, ?_⟩
  · have hne : k.methods.rename d.place ≠ v := by
      rintro rfl
      cases hc.symm.trans ht
    exact (m'.memory.body?_modifyBody ..).trans (if_neg hne)
  · obtain ⟨vs, hvs⟩ := hm'.hierarchy.exists_ancestry (k.superclass.rename d.place)
    rw [Machine.lookup, lookupFrom_note]
    exact hm'.hierarchy.lookup_define ht hk' ⟨[], vs, .up hk' hvs, by simp⟩

end Draft

/-- A draft keeps one place for each of its literals. Building it in any machine that a host
gets to by passing live values, with its class and values live, materializes just that table
as a new method of that class; only the memory may be unable to grow. Installed in a
class, it is what the class finds. -/
theorem drafts_are_built_as_written :
    (∀ owner selector earlier later,
      let b := ((Draft.new owner selector).make earlier).2
      b.Tabulates later (b.make later).1 (b.make later).2) ∧
    ∀ m, Occurs (Operation.Admitted .free) m → ∀ b : Draft, b.Live m →
      OutOfCapacity (b.build m) ∨ ∃ d v m', b.build m = .ok v m' ∧ b.Built d m v m' ∧
        ∀ k, m.memory.body? b.owner = some (.classInfo k) →
          ∃ m'', b.install m = .ok v m'' ∧ m''.memory.body? v = m'.memory.body? v ∧
            m''.lookup (b.owner.rename d.place) b.selector = .ok (some v) := by
  constructor
  · intro owner selector earlier later
    have hnew : (Draft.new owner selector).literals.toList.Nodup := List.nodup_nil
    exact Draft.make_tabulates (Draft.make_tabulates hnew earlier).apart later
  · intro m hm b hb
    have hranked := hm.ranked
    rcases Draft.build_built hranked.intact hm.interned hb with hfull | ⟨d, v, m', hbuild, hbuilt⟩
    · exact .inl hfull
    · exact .inr ⟨d, v, m', hbuild, hbuilt,
        fun k hk => Draft.install_finds hranked hb hbuild hbuilt hk⟩

def Draft.greetingEdits (m : Machine) : List Edit :=
  [.push (.value m.core.object), .push (.string "hello"), .send "greet" 0,
    .addLiteral (.value m.core.object)]

def Draft.greeting (m : Machine) : Draft :=
  ((Draft.new (m.named "Point") "greet").make (greetingEdits m)).2

theorem Draft.greeting_tabulates (m : Machine) : ∃ places,
    Tabulates (Draft.new (m.named "Point") "greet") (greetingEdits m) places (greeting m) :=
  ⟨_, make_tabulates List.nodup_nil _⟩

theorem Draft.greeting_frame (m : Machine) :
    (greeting m).owner = m.named "Point" ∧ (greeting m).selector = "greet" := by
  obtain ⟨places, htable⟩ := greeting_tabulates m
  rw [htable.rest]
  exact ⟨rfl, rfl⟩

theorem Draft.greeting_live {m : Machine} (hpoint : m.memory.Live (m.named "Point"))
    (hobject : m.memory.Live m.core.object) : (Draft.greeting m).Live m := by
  constructor
  · rwa [(greeting_frame m).1]
  · intro l hl
    obtain ⟨places, htable⟩ := greeting_tabulates m
    rcases htable.added l hl with hl | hl
    · simp [Draft.new] at hl
    · simp only [greetingEdits, List.map_cons, List.map_nil, List.mem_cons, List.not_mem_nil,
        or_false] at hl
      rcases hl with rfl | rfl | rfl | rfl
      · exact hobject
      · trivial
      · trivial
      · exact hobject

/-- A collection moves the class of points while their greeting is built. -/
theorem greeting_is_built_across_a_collection : ∃ m d v m' m'',
    Occurs (Operation.Admitted .free) m ∧ (Draft.greeting m).Live m ∧
    (Draft.greeting m).build m = .ok v m' ∧ (Draft.greeting m).Built d m v m' ∧
    (m.named "Point").rename d.place ≠ m.named "Point" ∧
    (Draft.greeting m).install m = .ok v m'' ∧
    m''.lookup ((m.named "Point").rename d.place) "greet" = .ok (some v) := by
  have hboots : boots .snug 5 (fun m₀ =>
      let m₁ := after (Operation.newString "garbage").run m₀
      let m := after (Operation.newPoint m₁).run m₁
      Action.answers (Draft.greeting m).build m fun v m' =>
        decide (m₁.isClass m₁.core.object ∧ m.isClass m.core.object ∧
          (m.memory.class? (m.named "Point")).isSome ∧
          (m'.memory.method? v).map Method.owner ≠ some (m.named "Point"))) = true := by
    decide +kernel
  obtain ⟨m₀, hboot, htest⟩ := exists_of_boots hboots
  obtain ⟨v, m', hbuild, htest⟩ := Action.exists_of_answers htest
  obtain ⟨hobject₁, hobject, hclass, hmoved⟩ := of_decide_eq_true htest
  have hgarbage := Attained.operated (.boot hboot) (Operation.newString_admitted "garbage" m₀)
  have hm := Occurs.attained (hgarbage.operated (Operation.newPoint_admitted hobject₁))
  generalize after (Operation.newPoint _).run _ = m at *
  obtain ⟨k, hk⟩ := Option.isSome_iff_exists.mp hclass
  have hk := Memory.class?_eq_some.mp hk
  have hlive : (Draft.greeting m).Live m :=
    Draft.greeting_live (Memory.live_of_body? hk)
      (Machine.HasClass.live (Primitive.isClass_stamp hobject))
  obtain ⟨howner, hselector⟩ := Draft.greeting_frame m
  rcases drafts_are_built_as_written.2 m hm _ hlive with
    hfull | ⟨d, v', m₂, hbuild', hbuilt, hinstall⟩
  · rw [hbuild] at hfull
    cases hfull
  · rw [hbuild] at hbuild'
    cases hbuild'
    obtain ⟨m'', hinstall, -, hlookup⟩ := hinstall k (howner ▸ hk)
    rw [howner, hselector] at hlookup
    refine ⟨m, d, v, m', m'', hm, hlive, hbuild, hbuilt, fun hstill => hmoved ?_, hinstall, hlookup⟩
    obtain ⟨c, hc, hmaterial⟩ := hbuilt.method
    rw [Memory.method?, hc]
    exact congrArg some (hmaterial.owner.2.trans (howner ▸ hstill))

end ObjectMachine

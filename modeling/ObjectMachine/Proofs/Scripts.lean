import ObjectMachine.Proofs.Patching
import Mathlib.Data.List.Induction

/-!
# Scripts and what reading makes of them

A script is a list of calls on an assembly: instructions to append, forward jumps
and the bindings of their labels, backward jumps. The bytes that it writes are those
of the sketch that it draws. Reading them gives back the instructions in order, at
the offsets at which they were appended. A forward jump lands where its label was
bound and a backward jump on its target.
-/

namespace ObjectMachine

/-- A call on an assembly. Labels are numbered in the order of their jumps. -/
inductive Directive where
  | emit (i : Instruction)
  | jumpForward (kind : JumpKind)
  | bind (label : Nat)
  | jumpBack (target : Nat)

namespace Directive

/-- Labels that have not been given out are passed over. -/
def carryOut (s : Assembler) : Directive → Except Fault Assembler
  | emit i => .ok { s with assembly := s.assembly.emit i }
  | jumpForward kind =>
    .ok ⟨(s.assembly.jumpForward kind).2, s.labels.push (s.assembly.jumpForward kind).1⟩
  | bind k =>
    match s.labels[k]? with
    | some label => (s.assembly.bind label).map fun a => { s with assembly := a }
    | none => .ok s
  | jumpBack target => (s.assembly.jumpBack target).map fun a => { s with assembly := a }

/-- The same call on a sketch. -/
def draw (t : Sketch) : Directive → Except Fault Sketch
  | emit i => .ok (t.emit i)
  | jumpForward kind => .ok (t.jumpForward kind)
  | bind k => .ok ((t.jumps[k]?).elim t t.bind)
  | jumpBack target =>
    (Assembly.distanceBack t.offset target).map fun o => t.emit (.jump .always o)

def size : Directive → Nat
  | emit i => i.size
  | jumpForward _ | jumpBack _ => Opcode.jump.size
  | bind _ => 0

def emits : Directive → Bool
  | bind _ => false
  | _ => true

def isForward : Directive → Bool
  | jumpForward _ => true
  | _ => false

end Directive

abbrev Script := List Directive

namespace Script

def size (ds : Script) : Nat := ds.foldr (fun d bytes => d.size + bytes) 0

def emitted (ds : Script) : Nat := ds.countP Directive.emits

def forwards (ds : Script) : Nat := ds.countP Directive.isForward

def runFrom (s : Assembler) (ds : Script) : Except Fault Assembler :=
  ds.foldlM (fun s d => d.carryOut s) s

def assemble (ds : Script) : Except Fault Assembler := runFrom ⟨.empty, #[]⟩ ds

def drawFrom (t : Sketch) (ds : Script) : Except Fault Sketch :=
  ds.foldlM (fun t d => d.draw t) t

def sketch (ds : Script) : Except Fault Sketch := drawFrom .empty ds

@[simp] theorem size_append (ds ds' : Script) : size (ds ++ ds') = size ds + size ds' := by
  induction ds with
  | nil => simp [size]
  | cons d ds ih =>
    simp only [size, List.cons_append, List.foldr_cons] at ih ⊢
    omega

@[simp] theorem size_cons (d : Directive) (ds : Script) : size (d :: ds) = d.size + size ds := rfl

end Script

/-- What a script does to a sketch: it appends, and it changes the offsets of the
jumps that it binds. -/
structure Extends (ds : Script) (t t' : Sketch) : Prop where
  offset : t'.offset = t.offset + ds.size
  count : t'.instructions.size = t.instructions.size + ds.emitted
  jumpCount : t'.jumps.size = t.jumps.size + ds.forwards
  offsetOf : ∀ m ≤ t.instructions.size, t'.offsetOf m = t.offsetOf m
  jumps : ∀ k n : Nat, t.jumps[k]? = some n → t'.jumps[k]? = some n
  oldJumps : ∀ k n : Nat, n < t.instructions.size → t'.jumps[k]? = some n → t.jumps[k]? = some n
  jump : ∀ (n : Nat) (kind : JumpKind) (o : Int32), t.instructions[n]? = some (.jump kind o) →
    ∃ o', t'.instructions[n]? = some (.jump kind o')
  kept : ∀ (n : Nat) (i : Instruction), t.instructions[n]? = some i →
    (∀ k : Nat, t.jumps[k]? = some n → .bind k ∉ ds) → t'.instructions[n]? = some i
  labelled : t'.Labelled

namespace Extends

variable {ds ds' : Script} {t t' t'' : Sketch}

theorem refl (h : t.Labelled) : Extends [] t t where
  offset := rfl
  count := rfl
  jumpCount := rfl
  offsetOf _ _ := rfl
  jumps _ _ h := h
  oldJumps _ _ _ h := h
  jump _ _ o h := ⟨o, h⟩
  kept _ _ h _ := h
  labelled := h

theorem trans (h : Extends ds t t') (h' : Extends ds' t' t'') : Extends (ds ++ ds') t t'' where
  offset := by rw [h'.offset, h.offset, Script.size_append, Nat.add_assoc]
  count := by
    rw [h'.count, h.count, Script.emitted, Script.emitted, Script.emitted, List.countP_append,
      Nat.add_assoc]
  jumpCount := by
    rw [h'.jumpCount, h.jumpCount, Script.forwards, Script.forwards, Script.forwards,
      List.countP_append, Nat.add_assoc]
  offsetOf m hm := by
    rw [h'.offsetOf m (by rw [h.count]; omega), h.offsetOf m hm]
  jumps k n hk := h'.jumps k n (h.jumps k n hk)
  oldJumps k n hlt hk := by
    have hlt' : n < t'.instructions.size := by
      rw [h.count]
      omega
    exact h.oldJumps k n hlt (h'.oldJumps k n hlt' hk)
  jump n kind o hn := by
    obtain ⟨o', hn'⟩ := h.jump n kind o hn
    exact h'.jump n kind o' hn'
  kept n i hn hfree := by
    have hlt : n < t.instructions.size := (Array.getElem?_eq_some_iff.mp hn).1
    have hn' := h.kept n i hn fun k hk hmem => hfree k hk (List.mem_append_left _ hmem)
    refine h'.kept n i hn' fun k hk hmem => ?_
    exact hfree k (h.oldJumps k n hlt hk) (List.mem_append_right _ hmem)
  labelled := h'.labelled

theorem emit (h : t.Labelled) {d : Directive} {i : Instruction} (hsize : d.size = i.size)
    (hemits : d.emits = true) (hforward : d.isForward = false) : Extends [d] t (t.emit i) where
  offset := by simp [hsize, Script.size]
  count := by simp [Script.emitted, hemits]
  jumpCount := by simp [Script.forwards, hforward, Sketch.emit]
  offsetOf m hm := t.offsetOf_emit i hm
  jumps _ _ hk := hk
  oldJumps _ _ _ hk := hk
  jump n kind o hn := ⟨o, t.getElem?_emit i hn⟩
  kept n j hn _ := t.getElem?_emit i hn
  labelled := by
    refine ⟨fun k n hk => ?_, h.distinct⟩
    obtain ⟨kind, o, hjump⟩ := h.jumps k n hk
    exact ⟨kind, o, t.getElem?_emit i hjump⟩

theorem jumpForward (h : t.Labelled) (kind : JumpKind) :
    Extends [.jumpForward kind] t (t.jumpForward kind) where
  offset := by
    refine (t.offset_emit (.jump kind 0)).trans ?_
    rw [Instruction.size_jump]
    rfl
  count := by simp [Script.emitted, Directive.emits, Sketch.jumpForward]
  jumpCount := by simp [Script.forwards, Directive.isForward, Sketch.jumpForward]
  offsetOf m hm := t.offsetOf_emit _ hm
  jumps k n hk := by
    have hlt := (Array.getElem?_eq_some_iff.mp hk).1
    rw [Sketch.jumpForward, Array.getElem?_push, if_neg (by omega), hk]
  oldJumps k n hlt hk := by
    rw [Sketch.jumpForward, Array.getElem?_push] at hk
    split_ifs at hk
    · exact absurd (Option.some.inj hk) (Nat.ne_of_gt hlt)
    · exact hk
  jump n kind' o hn := ⟨o, t.getElem?_emit _ hn⟩
  kept n i hn _ := t.getElem?_emit _ hn
  labelled := by
    refine ⟨fun k n hk => ?_, fun k k' n hk hk' => ?_⟩
    · rw [Sketch.jumpForward, Array.getElem?_push] at hk
      split_ifs at hk
      · obtain rfl := Option.some.inj hk
        exact ⟨kind, 0, by simp [Sketch.jumpForward]⟩
      · obtain ⟨kind', o, hjump⟩ := h.jumps k n hk
        exact ⟨kind', o, t.getElem?_emit _ hjump⟩
    · rw [Sketch.jumpForward, Array.getElem?_push] at hk hk'
      split_ifs at hk hk' with hnew hnew' hnew'
      · omega
      · exact absurd (Option.some.inj hk) (Nat.ne_of_gt (h.lt_size hk'))
      · exact absurd (Option.some.inj hk') (Nat.ne_of_gt (h.lt_size hk))
      · exact h.distinct k k' n hk hk'

theorem bind (h : t.Labelled) (k : Nat) :
    Extends [.bind k] t ((t.jumps[k]?).elim t t.bind) := by
  cases hk : t.jumps[k]? with
  | none =>
    exact
      { offset := rfl
        count := rfl
        jumpCount := rfl
        offsetOf := fun _ _ => rfl
        jumps := fun _ _ hk => hk
        oldJumps := fun _ _ _ hk => hk
        jump := fun _ _ o hn => ⟨o, hn⟩
        kept := fun _ _ hn _ => hn
        labelled := h }
  | some n =>
    have hjumps : ∀ (m : Nat) (kind : JumpKind) (o : Int32),
        t.instructions[m]? = some (.jump kind o) →
          ∃ o', (t.bind n).instructions[m]? = some (.jump kind o') := by
      intro m kind o hm
      by_cases heq : n = m
      · subst heq
        exact ⟨_, t.getElem?_bind hm⟩
      · exact ⟨o, by rw [t.getElem?_bind_of_ne heq, hm]⟩
    refine
      { offset := ?_
        count := ?_
        jumpCount := rfl
        offsetOf := fun m _ => t.offsetOf_bind n m
        jumps := fun _ _ hk => hk
        oldJumps := fun _ _ _ hk => hk
        jump := hjumps
        kept := ?_
        labelled := ⟨?_, h.distinct⟩ }
    · simp [Script.size, Directive.size]
    · simp [Script.emitted, Directive.emits, Sketch.size_bind]
    · intro m i hm hfree
      have hne : n ≠ m := by
        rintro rfl
        exact hfree k hk (List.mem_singleton_self _)
      rw [Option.elim_some, t.getElem?_bind_of_ne hne, hm]
    · intro k' m hk'
      obtain ⟨kind, o, hjump⟩ := h.jumps k' m hk'
      obtain ⟨o', hjump'⟩ := hjumps _ _ _ hjump
      exact ⟨kind, o', hjump'⟩

end Extends

theorem Directive.draw_extends {t t' : Sketch} (h : t.Labelled) {d : Directive}
    (hd : d.draw t = .ok t') : Extends [d] t t' := by
  cases d with
  | emit i =>
    obtain rfl := Except.ok.inj hd
    exact .emit h rfl rfl rfl
  | jumpForward kind =>
    obtain rfl := Except.ok.inj hd
    exact .jumpForward h kind
  | bind k =>
    obtain rfl := Except.ok.inj hd
    exact .bind h k
  | jumpBack target =>
    rw [draw] at hd
    cases ho : Assembly.distanceBack t.offset target with
    | error e => simp [ho, Except.map] at hd
    | ok o =>
      rw [ho] at hd
      obtain rfl := Except.ok.inj hd
      exact .emit h rfl rfl rfl

namespace Script

variable {t t' : Sketch}

theorem drawFrom_cons (t : Sketch) (d : Directive) (ds : Script) :
    drawFrom t (d :: ds) = (d.draw t).bind fun t => drawFrom t ds := rfl

theorem drawFrom_append (t : Sketch) (ds ds' : Script) :
    drawFrom t (ds ++ ds') = (drawFrom t ds).bind fun t => drawFrom t ds' := List.foldlM_append ..

theorem exists_of_bind_ok {x : Except Fault Sketch} {f : Sketch → Except Fault Sketch}
    (h : x.bind f = .ok t') : ∃ t, x = .ok t ∧ f t = .ok t' := by
  cases x with
  | error e => cases h
  | ok t => exact ⟨t, rfl, h⟩

theorem drawFrom_extends (h : t.Labelled) {ds : Script} (hdraw : drawFrom t ds = .ok t') :
    Extends ds t t' := by
  induction ds generalizing t with
  | nil =>
    obtain rfl := Except.ok.inj hdraw
    exact .refl h
  | cons d ds ih =>
    rw [drawFrom_cons] at hdraw
    obtain ⟨t₁, hd, hdraw⟩ := exists_of_bind_ok hdraw
    have hstep := d.draw_extends h hd
    exact hstep.trans (ih hstep.labelled hdraw)

theorem sketch_extends {ds : Script} (h : ds.sketch = .ok t) : Extends ds .empty t :=
  drawFrom_extends Sketch.labelled_empty h

theorem offset_of_sketch {ds : Script} (h : sketch ds = .ok t) : t.offset = size ds := by
  simpa [Sketch.offset, Sketch.empty, extent] using (sketch_extends h).offset

theorem count_of_sketch {ds : Script} (h : sketch ds = .ok t) :
    t.instructions.size = emitted ds := by
  simpa [Sketch.empty] using (sketch_extends h).count

end Script

/-- Two outcomes of one call or script: both are the same fault, or the sketch
depicts the assembly. -/
def Sketch.Portrays : Except Fault Sketch → Except Fault Assembler → Prop
  | .ok t, .ok s => t.Depicts s
  | .error e, .error e' => e = e'
  | _, _ => False

theorem Sketch.Portrays.of_ok {x : Except Fault Assembler} {t : Sketch}
    (h : Sketch.Portrays (.ok t) x) : ∃ s, x = .ok s ∧ t.Depicts s := by
  cases x with
  | error e => exact h.elim
  | ok s => exact ⟨s, rfl, h⟩

theorem Sketch.Portrays.of_ok_right {x : Except Fault Sketch} {s : Assembler}
    (h : Sketch.Portrays x (.ok s)) : ∃ t, x = .ok t ∧ t.Depicts s := by
  cases x with
  | error e => exact h.elim
  | ok t => exact ⟨t, rfl, h⟩

/-- One call keeps the bytes of an assembly those of its sketch. -/
theorem Directive.portrayed {t : Sketch} {s : Assembler} (h : t.Depicts s) (hlabelled : t.Labelled)
    (d : Directive) : Sketch.Portrays (d.draw t) (d.carryOut s) := by
  cases d with
  | emit i => exact h.emit hlabelled i
  | jumpForward kind => exact h.jumpForward hlabelled kind
  | bind k =>
    have hlabel : s.labels[k]? = (t.jumps[k]?).map t.label := by rw [h.labels, Array.getElem?_map]
    cases hk : t.jumps[k]? with
    | none =>
      rw [hk, Option.map_none] at hlabel
      rw [draw, carryOut, hk, hlabel]
      exact h
    | some n =>
      obtain ⟨a, ha, hdepicts⟩ := h.bind hlabelled hk
      rw [hk, Option.map_some] at hlabel
      rw [draw, carryOut, hk, hlabel]
      dsimp only
      rw [ha]
      exact hdepicts
  | jumpBack target =>
    rw [draw, carryOut, Assembly.jumpBack, h.offset]
    cases Assembly.distanceBack t.offset target with
    | error e => rfl
    | ok o => exact h.emit hlabelled (.jump .always o)

theorem Script.portrayed {t : Sketch} {s : Assembler} (h : t.Depicts s) (hlabelled : t.Labelled)
    (ds : Script) : Sketch.Portrays (ds.drawFrom t) (ds.runFrom s) := by
  induction ds generalizing t s with
  | nil => exact h
  | cons d ds ih =>
    have hstep := d.portrayed h hlabelled
    rw [drawFrom_cons, runFrom, List.foldlM_cons]
    cases ht : d.draw t with
    | error e =>
      cases hs : d.carryOut s with
      | error e' =>
        rw [ht, hs] at hstep
        exact hstep
      | ok s' =>
        rw [ht, hs] at hstep
        exact hstep.elim
    | ok t' =>
      rw [ht] at hstep
      obtain ⟨s', hs, hdepicts⟩ := hstep.of_ok
      rw [hs]
      exact ih hdepicts (d.draw_extends hlabelled ht).labelled

namespace Script

/-- Backward jumps go to offsets that have been reached, and the code is not too
long for its jumps. -/
structure Fits (ds : Script) : Prop where
  backward : ∀ before target after, ds = before ++ .jumpBack target :: after → target ≤ size before
  short : ds.size < 0x80000000

theorem Fits.before {before after : Script} (h : Fits (before ++ after)) : Fits before where
  backward before' target after' heq :=
    h.backward before' target (after' ++ after) (by rw [heq]; simp)
  short := by
    have := h.short
    rw [size_append] at this
    omega

/-- Backward jumps go to offsets that have been reached, starting from `here`. -/
def reachesBack (here : Nat) : Script → Bool
  | [] => true
  | .jumpBack target :: ds => decide (target ≤ here) && reachesBack (here + Opcode.jump.size) ds
  | d :: ds => reachesBack (here + d.size) ds

theorem reachesBack_tail {here : Nat} {d : Directive} {ds : Script}
    (h : reachesBack here (d :: ds) = true) : reachesBack (here + d.size) ds = true := by
  cases d with
  | jumpBack target => exact (Bool.and_eq_true_iff.mp h).2
  | _ => exact h

theorem le_of_reachesBack {here target : Nat} (before : Script) {after : Script}
    (h : reachesBack here (before ++ .jumpBack target :: after) = true) :
    target ≤ here + size before := by
  induction before generalizing here with
  | nil => exact of_decide_eq_true (Bool.and_eq_true_iff.mp h).1
  | cons d before ih =>
    have hle := ih (reachesBack_tail h)
    rw [size_cons]
    omega

theorem fits_of_reachesBack {ds : Script} (h : reachesBack 0 ds = true)
    (hshort : ds.size < 0x80000000) : Fits ds where
  backward before target after heq := by
    subst heq
    simpa using le_of_reachesBack before h
  short := hshort

/-- The offset of a jump back in code that is not too long. -/
theorem distanceBack_eq {here target : Nat} (htarget : target ≤ here)
    (hshort : here + Opcode.jump.size < 0x80000000) :
    ∃ o : Int32, Assembly.distanceBack here target = .ok o ∧
      (here + Opcode.jump.size + o.toInt : Int) = target := by
  have hbase : (Int32.ofNat (here + Opcode.jump.size)).toInt = (here + Opcode.jump.size : Nat) :=
    Int32.toInt_ofNat_of_lt hshort
  have htarget' : (Int32.ofNat target).toInt = target := Int32.toInt_ofNat_of_lt (by omega)
  refine ⟨Int32.ofInt (target - (here + Opcode.jump.size : Nat)), ?_, ?_⟩
  · rw [Assembly.distanceBack, hbase, htarget']
    simp only [Int32.toInt_minValue, Int32.toInt_maxValue]
    rw [if_neg (by omega)]
  · rw [Int32.toInt_ofInt_of_le (by omega) (by omega)]
    omega

theorem Fits.drawn {ds : Script} (h : Fits ds) : ∃ t, ds.sketch = .ok t := by
  induction ds using List.reverseRecOn with
  | nil => exact ⟨_, rfl⟩
  | append_singleton ds d ih =>
    obtain ⟨t, ht⟩ := ih h.before
    have hdraw : Script.sketch (ds ++ [d]) = (d.draw t).bind .ok := by
      rw [Script.sketch, drawFrom_append, ← Script.sketch, ht]
      rfl
    cases d with
    | jumpBack target =>
      have hoffset := offset_of_sketch ht
      have htarget := h.backward ds target [] rfl
      have hshort := h.short
      rw [size_append] at hshort
      obtain ⟨o, ho, -⟩ := distanceBack_eq (hoffset ▸ htarget) (hoffset ▸ hshort)
      exact ⟨t.emit (.jump .always o), by rw [hdraw, Directive.draw, ho]; rfl⟩
    | _ => exact ⟨_, hdraw⟩

/-- A script that fits is carried out, and its sketch depicts what it has assembled. -/
theorem Fits.succeeds {ds : Script} (h : Fits ds) :
    ∃ t s, ds.sketch = .ok t ∧ ds.assemble = .ok s ∧ t.Depicts s := by
  obtain ⟨t, ht⟩ := h.drawn
  have hboth := ds.portrayed Sketch.empty_depicts Sketch.labelled_empty
  rw [← sketch, ht] at hboth
  obtain ⟨s, hs, hdepicts⟩ := hboth.of_ok
  exact ⟨t, s, ht, hs, hdepicts⟩

end Script

/-- A label that is bound last makes its jump land there. -/
theorem Extends.landing {t t₁ t₂ t' : Sketch} {mid rest : Script} {k n : Nat}
    {kind : JumpKind} {o : Int32} (hk : t.jumps[k]? = some n)
    (hn : t.instructions[n]? = some (.jump kind o)) (hmid : Extends mid t t₁)
    (hbind : Directive.draw t₁ (.bind k) = .ok t₂) (hrest : Extends rest t₂ t')
    (hfree : .bind k ∉ rest) (hshort : t'.offset < 0x80000000) :
    ∃ o', t'.instructions[n]? = some (.jump kind o') ∧
      (t.offsetOf (n + 1) + o'.toInt : Int) = t.offset + mid.size := by
  have hk₁ := hmid.jumps k n hk
  obtain ⟨o₁, hn₁⟩ := hmid.jump n kind o hn
  have hlt := (Array.getElem?_eq_some_iff.mp hn).1
  obtain rfl : t₂ = t₁.bind n := by
    rw [Directive.draw, hk₁] at hbind
    exact (Except.ok.inj hbind).symm
  have hn₂ := t₁.getElem?_bind hn₁
  refine ⟨_, hrest.kept n _ hn₂ fun k' hk' => ?_, ?_⟩
  · rwa [hmid.labelled.distinct k' k n hk' hk₁]
  · have hle := t₁.offsetOf_le_offset (n + 1)
    have hoffset : t'.offset = t₁.offset + rest.size := by
      rw [hrest.offset, Sketch.offset_bind]
    rw [Int32.toInt_ofInt_of_le (by omega) (by omega), hmid.offsetOf (n + 1) hlt, hmid.offset]
    omega

namespace Directive

/-- What reading must find for a call of a script, from the calls before and after
it. A forward jump lands where its label is bound, the last time if more than
once, and has offset zero if it never is. -/
def Realized (before after : Script) : Directive → Instruction → Prop
  | emit j, i => i = j
  | jumpForward kind, i => ∃ o : Int32, i = .jump kind o ∧
      (∀ mid rest, after = mid ++ bind (Script.forwards before) :: rest →
        bind (Script.forwards before) ∉ rest →
          (Script.size before + 5 + o.toInt : Int) =
            Script.size (before ++ jumpForward kind :: mid)) ∧
      (bind (Script.forwards before) ∉ after → o = 0)
  | jumpBack target, i => ∃ o : Int32, i = .jump .always o ∧
      (Script.size before + 5 + o.toInt : Int) = target
  | bind _, _ => False

end Directive

/-- Reading the code gives back the script. -/
structure Script.Spelled (ds : Script) (code : Code) : Prop where
  length : code.length = ds.size
  ended : code.listing.2 = ⟨code, code.length, none⟩
  count : code.listing.1.length = ds.emitted
  entry : ∀ before d after, ds = before ++ d :: after → d.emits = true →
    ∃ i, code.listing.1[Script.emitted before]? = some (Script.size before, i) ∧
      d.Realized before after i

namespace Script

variable {before after : Script} {t : Sketch}

theorem drawFrom_split {t₀ : Sketch} {d : Directive}
    (h : drawFrom t₀ (before ++ d :: after) = .ok t) :
    ∃ t₁ t₂, drawFrom t₀ before = .ok t₁ ∧ d.draw t₁ = .ok t₂ ∧ drawFrom t₂ after = .ok t := by
  rw [drawFrom_append] at h
  obtain ⟨t₁, h₁, h⟩ := exists_of_bind_ok h
  rw [drawFrom_cons] at h
  obtain ⟨t₂, h₂, h⟩ := exists_of_bind_ok h
  exact ⟨t₁, t₂, h₁, h₂, h⟩

/-- The instruction that a call appends, once the script is complete. -/
theorem realized_of_sketch {d : Directive} (h : sketch (before ++ d :: after) = .ok t)
    (hfits : Fits (before ++ d :: after)) (hd : d.emits = true) :
    ∃ i, t.instructions[emitted before]? = some i ∧ d.Realized before after i := by
  obtain ⟨t₁, t₂, h₁, h₂, hafter⟩ := drawFrom_split h
  have hbefore := sketch_extends h₁
  have hstep := d.draw_extends hbefore.labelled h₂
  have hextends := drawFrom_extends hstep.labelled hafter
  have hcount : t₁.instructions.size = emitted before := count_of_sketch h₁
  have hoffset : t₁.offset = size before := offset_of_sketch h₁
  have hoffset₂ : t₂.offset = t₁.offset + d.size := hstep.offset
  have hshort : t.offset < 0x80000000 := by
    rw [offset_of_sketch h]
    exact hfits.short
  have hroom : t₁.offset + d.size < 0x80000000 := by
    rw [← hoffset₂]
    exact Nat.lt_of_le_of_lt (hextends.offset ▸ Nat.le_add_right ..) hshort
  -- no earlier label belongs to the new instruction
  have hunlabelled : ∀ k : Nat, t₁.jumps[k]? ≠ some (emitted before) := fun k hk =>
    Nat.lt_irrefl _ (hcount ▸ hbefore.labelled.lt_size hk)
  cases d with
  | emit i =>
    obtain rfl := Except.ok.inj h₂
    refine ⟨i, hextends.kept _ i ?_ fun k hk => absurd hk (hunlabelled k), rfl⟩
    simp [← hcount]
  | jumpBack target =>
    have htarget := hfits.backward before target after rfl
    obtain ⟨o, ho, hland⟩ := distanceBack_eq (hoffset ▸ htarget) hroom
    rw [Directive.draw, ho] at h₂
    obtain rfl := Except.ok.inj h₂
    refine ⟨_, hextends.kept _ (.jump .always o) ?_ fun k hk => absurd hk (hunlabelled k),
      o, rfl, ?_⟩
    · simp [← hcount]
    · rw [← hoffset]
      exact hland
  | jumpForward kind =>
    obtain rfl := Except.ok.inj h₂
    have hjumps : t₁.jumps.size = forwards before := by simpa [Sketch.empty] using hbefore.jumpCount
    have hnew : (t₁.jumpForward kind).instructions[emitted before]? = some (.jump kind 0) := by
      simp [Sketch.jumpForward, ← hcount]
    have hlabel : (t₁.jumpForward kind).jumps[forwards before]? = some (emitted before) := by
      simp [Sketch.jumpForward, ← hcount, ← hjumps]
    have hend : (t₁.jumpForward kind).offsetOf (emitted before + 1) =
        (t₁.jumpForward kind).offset := by
      rw [← Sketch.offsetOf_size, hstep.count, hcount]
      rfl
    obtain ⟨o, ho⟩ := hextends.jump _ kind 0 hnew
    refine ⟨_, ho, o, rfl, ?_, ?_⟩
    · rintro mid rest rfl hfree
      obtain ⟨t₃, t₄, hmid, hbind, hrest⟩ := drawFrom_split hafter
      have hextends₃ := drawFrom_extends hstep.labelled hmid
      have hextends₄ := Directive.draw_extends hextends₃.labelled hbind
      obtain ⟨o', ho', hland⟩ := hextends₃.landing hlabel hnew hbind
        (drawFrom_extends hextends₄.labelled hrest) hfree hshort
      obtain rfl : o = o' := by simpa [ho] using ho'
      rw [size_append, size_cons]
      rw [hend, hoffset₂, hoffset] at hland
      have hfive : (Directive.jumpForward kind).size = 5 := rfl
      rw [hfive] at hland ⊢
      omega
    · intro hfree
      have hkept := hextends.kept _ _ hnew fun k hk => by
        rwa [hstep.labelled.distinct k _ _ hk hlabel]
      simpa [ho] using hkept
  | bind k => exact absurd hd Bool.false_ne_true

/-- Where the first instruction after `before` has come to stand. -/
theorem offsetOf_of_sketch (h : sketch (before ++ after) = .ok t) :
    t.offsetOf (emitted before) = size before := by
  rw [sketch, drawFrom_append] at h
  obtain ⟨t₁, h₁, hafter⟩ := exists_of_bind_ok h
  have hextends := drawFrom_extends (sketch_extends h₁).labelled hafter
  have hcount := count_of_sketch h₁
  rw [hextends.offsetOf _ (Nat.le_of_eq hcount.symm), ← hcount, Sketch.offsetOf_size]
  exact offset_of_sketch h₁

theorem Fits.spelled {ds : Script} (h : Fits ds) {s : Assembler} (hs : assemble ds = .ok s) :
    Spelled ds s.assembly.code ∧ s.assembly.offset = size ds := by
  obtain ⟨t, s', ht, hs', hdepicts⟩ := h.succeeds
  obtain rfl := Except.ok.inj (hs'.symm.trans hs)
  have hoffset := offset_of_sketch ht
  have hshort : t.offset < 0x80000000 := hoffset ▸ h.short
  refine ⟨?_, hdepicts.offset.trans hoffset⟩
  rw [hdepicts.code]
  refine ⟨t.length_code.trans hoffset, ?_, ?_, ?_⟩
  · rw [t.listing_code hshort]
  · rw [t.listing_code hshort, length_layout, Array.length_toList, count_of_sketch ht]
  · rintro before d after rfl hd
    obtain ⟨i, hi, hrealized⟩ := realized_of_sketch ht h hd
    refine ⟨i, ?_, hrealized⟩
    rw [t.getElem?_listing hshort, hi, offsetOf_of_sketch ht]
    rfl

/-- Reading the bytes that a script has written gives back the script. Each
instruction stands at the offset at which it was appended, whatever has been written
over since. The bytes of a block body stand after the operands of its instruction,
so that a script that has assembled the body is given back from there. -/
theorem reading_gives_back_the_script {ds : Script} (h : Fits ds) :
    ∃ s, assemble ds = .ok s ∧ Spelled ds s.assembly.code ∧
      (∀ before after, ds = before ++ after →
        ∃ s₀, assemble before = .ok s₀ ∧ s₀.assembly.offset = size before) ∧
      ∀ start body literals temporaries,
        (start, .createBlock body literals temporaries) ∈ s.assembly.code.listing.1 →
          (s.assembly.code.drop (start + 13)).take body.length = body ∧
            ∀ (ds' : Script) (s' : Assembler), Fits ds' → assemble ds' = .ok s' →
              s'.assembly.code = body →
                Spelled ds' ((s.assembly.code.drop (start + 13)).take body.length) := by
  obtain ⟨-, s, -, hs, -⟩ := h.succeeds
  have hspelled := (h.spelled hs).1
  refine ⟨s, hs, hspelled, ?_, ?_⟩
  · rintro before after rfl
    obtain ⟨-, s₀, -, hs₀, -⟩ := h.before.succeeds
    exact ⟨s₀, hs₀, (h.before.spelled hs₀).2⟩
  · intro start body literals temporaries hmem
    have hreads := Code.listing_reads (by rw [hspelled.ended])
    have hbody : (s.assembly.code.drop (start + 13)).take body.length = body :=
      Code.inlined_eq_of_fetch? (hreads.entry hmem).1
    refine ⟨hbody, ?_⟩
    rintro ds' s' h' hs' rfl
    rw [hbody]
    exact (h'.spelled hs').1

/-- A loop with a block in it, and a jump that is never bound. -/
def sample : Script :=
  [.emit (.pushTemporary 0), .jumpForward .ifFalse, .emit (.createBlock [3, 7] 0 0),
    .emit .pop, .jumpBack 0, .bind 0, .jumpForward .always]

def sampleBody : Script := [.emit .pushSelf, .emit .returnTop]

theorem sample_fits : sample.Fits := fits_of_reachesBack rfl (by decide)

theorem sampleBody_fits : sampleBody.Fits := fits_of_reachesBack rfl (by decide)

theorem reading_gives_back_the_sample : sample.Fits ∧ sampleBody.Fits ∧
    ∃ s, sample.assemble = .ok s ∧ sample.Spelled s.assembly.code ∧
      sampleBody.Spelled ((s.assembly.code.drop 23).take 2) := by
  obtain ⟨s, hs, hspelled, -, hblocks⟩ := reading_gives_back_the_script sample_fits
  obtain ⟨i, hi, rfl⟩ := hspelled.entry [.emit (.pushTemporary 0), .jumpForward .ifFalse]
    (.emit (.createBlock [3, 7] 0 0)) _ rfl rfl
  obtain ⟨-, hbody⟩ := hblocks _ _ _ _ (List.mem_of_getElem? hi)
  exact ⟨sample_fits, sampleBody_fits, s, hs, hspelled,
    hbody sampleBody _ sampleBody_fits rfl rfl⟩

end Script

end ObjectMachine

import ObjectMachine.Proofs.Keeping
import ObjectMachine.Proofs.Observations
import ObjectMachine.Proofs.StepRules

/-!
# Runs

A run goes through machines, one before each of its steps. `Visits` lists them
together with the steps that may still be taken, so that what is said of a
visited machine is said of every instruction that the run carries out. The
machines that a host can get to are `Attained` by operations, of which any
condition may be asked.
-/

namespace ObjectMachine

open ObjectMachine.Action

/-- A run that ends at depth `base` and may take `fuel` steps comes from one machine to
another, where it may take `left` more. -/
inductive Visits (base : Nat) : Nat → Machine → Nat → Machine → Prop
  | here (fuel : Nat) (m : Machine) : Visits base fuel m fuel m
  | next {fuel left : Nat} {m m₁ m' : Machine} : step m = .ok none m₁ →
      Visits base fuel m₁ left m' → Visits base (fuel + 1) m left m'
  /-- A context has ended and the one that called it goes on. -/
  | resumed {fuel left : Nat} {m m₁ m' : Machine} {v : Value} : step m = .ok (some v) m₁ →
      base < m₁.depth → Visits base fuel (m₁.pushed v) left m' →
      Visits base (fuel + 1) m left m'

section

variable {base fuel left : Nat} {m m' : Machine}

theorem run_eq_next (h : step m = .ok none m') : run base (fuel + 1) m = run base fuel m' := by
  rw [run, bind_ok h]

theorem run_eq_resumed {v : Value} (h : step m = .ok (some v) m') (hdepth : base < m'.depth) :
    run base (fuel + 1) m = run base fuel (m'.pushed v) := by
  rw [run, bind_ok h]
  dsimp only
  rw [bind_get, if_neg (Nat.not_le.mpr hdepth), bind_ok (push_eq m' v)]

theorem run_eq_answer {v : Value} (h : step m = .ok (some v) m') (hdepth : m'.depth ≤ base) :
    run base (fuel + 1) m = .ok v m' := by
  rw [run, bind_ok h]
  dsimp only
  rw [bind_get, if_pos hdepth]
  rfl

theorem run_eq_error {s : Stop} (h : step m = .error s m') :
    run base (fuel + 1) m = .error s m' := by
  rw [run, bind_error h]

/-- The rest of a run is the run from a machine that it visits. -/
theorem Visits.run_eq (h : Visits base fuel m left m') : run base fuel m = run base left m' := by
  induction h with
  | here => rfl
  | next hstep _ ih => rw [run_eq_next hstep, ih]
  | resumed hstep hdepth _ ih => rw [run_eq_resumed hstep hdepth, ih]

/-- How a run ends in the last machine that it visits. -/
inductive RunEnds (base : Nat) : Nat → Machine → EStateM.Result Stop Machine Value → Prop
  | exhausted (m : Machine) : RunEnds base 0 m (.error .exhausted m)
  | stopped {left : Nat} {m m' : Machine} {s : Stop} : step m = .error s m' →
      RunEnds base (left + 1) m (.error s m')
  | answered {left : Nat} {m m' : Machine} {v : Value} : step m = .ok (some v) m' →
      m'.depth ≤ base → RunEnds base (left + 1) m (.ok v m')

/-- Every run ends in a machine that it visits. -/
theorem run_rules (base fuel : Nat) (m : Machine) :
    ∃ left m', Visits base fuel m left m' ∧ RunEnds base left m' (run base fuel m) := by
  induction fuel generalizing m with
  | zero => exact ⟨0, m, .here 0 m, .exhausted m⟩
  | succ fuel ih =>
    cases hstep : step m with
    | error s m₁ =>
      rw [run_eq_error hstep]
      exact ⟨fuel + 1, m, .here _ m, .stopped hstep⟩
    | ok answer m₁ =>
      cases answer with
      | none =>
        obtain ⟨left, m', hvisits, hends⟩ := ih m₁
        rw [run_eq_next hstep]
        exact ⟨left, m', .next hstep hvisits, hends⟩
      | some v =>
        by_cases hdepth : m₁.depth ≤ base
        · rw [run_eq_answer hstep hdepth]
          exact ⟨fuel + 1, m, .here _ m, .answered hstep hdepth⟩
        · have hdepth : base < m₁.depth := Nat.lt_of_not_le hdepth
          obtain ⟨left, m', hvisits, hends⟩ := ih (m₁.pushed v)
          rw [run_eq_resumed hstep hdepth]
          exact ⟨left, m', .resumed hstep hdepth hvisits, hends⟩

end

/-- End every context above depth `base` if an error has been raised. -/
def unwindRaised {α : Type} (base : Nat) :
    EStateM.Result Stop Machine α → EStateM.Result Stop Machine α
  | .error (.raised e) m => .error (.raised e) (m.unwind base)
  | .error s m => .error s m
  | .ok a m => .ok a m

theorem protect_eq {α : Type} (x : Action α) (m : Machine) :
    protect x m = unwindRaised m.depth (x m) := by
  rw [protect]
  cases x m with
  | ok a m' => rfl
  | error s m' => cases s <;> rfl

section

variable {fuel : Nat} {start : Action (Option Value)} {m m' : Machine}

theorem launch_eq_run (h : start m = .ok none m') :
    launch fuel start m = unwindRaised m.depth (run m.depth fuel m') := by
  rw [launch, protect_eq, bind_get, bind_ok h]

theorem launch_eq_answer {v : Value} (h : start m = .ok (some v) m') :
    launch fuel start m = .ok v m' := by
  rw [launch, protect_eq, bind_get, bind_ok h]
  rfl

theorem launch_eq_error {s : Stop} (h : start m = .error s m') :
    launch fuel start m = unwindRaised m.depth (.error s m') := by
  rw [launch, protect_eq, bind_get, bind_error h]

end

namespace Operation

/-- The operation starts a program in this way, in this machine, and lets it take
`fuel` steps. -/
inductive Launches : Operation → Machine → Nat → Action (Option Value) → Machine → Prop
  | send (fuel : Nat) (receiver : Value) (selector : String) (args : Array Value) (m : Machine) :
      Launches (.send fuel receiver selector args) m fuel (startSend receiver selector args) m
  | executeMethod (fuel : Nat) (method receiver : Value) (args : Array Value) (m : Machine) :
      Launches (.executeMethod fuel method receiver args) m fuel
        (startMethod method receiver args) m
  | callBlock (fuel : Nat) (block : Value) (args : Array Value) (m : Machine) :
      Launches (.callBlock fuel block args) m fuel (startBlock block args) m
  /-- The method of a draft is built first. -/
  | evaluate {fuel : Nat} {draft : Draft} {method : Value} {m m' : Machine} :
      draft.build m = .ok method m' →
      Launches (.evaluate fuel draft) m fuel (startMethod method .nil #[]) m'

variable {op : Operation} {m m' : Machine} {fuel left : Nat} {start : Action (Option Value)}

theorem Launches.run_eq (h : op.Launches m fuel start m') : op.run m = launch fuel start m' := by
  cases h with
  | send receiver selector args => rw [run, send_eq_launch]
  | executeMethod method receiver args => rw [run, executeMethod_eq_launch]
  | callBlock block args => rw [run, callBlock_eq_launch]
  | evaluate hbuild => rw [run, ObjectMachine.evaluate, bind_ok hbuild, executeMethod_eq_launch]

/-- The machines that the program of an operation goes through, one before each
of its steps. -/
def Visits (op : Operation) (m : Machine) (left : Nat) (m' : Machine) : Prop :=
  ∃ fuel start m₁ m₂, op.Launches m fuel start m₁ ∧ start m₁ = .ok none m₂ ∧
    ObjectMachine.Visits m₁.depth fuel m₂ left m'

/-- The code that an operation brings in. -/
inductive Brings : Operation → Body → Prop
  | install {draft : Draft} {c : Method} : c.code = draft.assembly.code →
      Brings (.install draft) (.method c)
  | evaluate {fuel : Nat} {draft : Draft} {c : Method} : c.code = draft.assembly.code →
      Brings (.evaluate fuel draft) (.method c)
  | newMethod (c : Method) : Brings (.newMethod c) (.method c)
  | newBlock (b : Block) : Brings (.newBlock b) (.block b)

section

variable {P : Machine → Prop} (hP : Stable P)
  (hcode : ∀ o : HeapObject, op.Brings o.body → Upholds P (allocate o))

include hP hcode

/-- A program starts in a machine that is as the operation has found it, but for a
method that may have been built. -/
theorem Launches.keeps (h : op.Launches m fuel start m') (hm : P m) : P m' := by
  cases h with
  | evaluate hbuild =>
    have hkept := hP.build (fun c hc => .get_bind fun m => hcode _ (.evaluate hc)) m hm
    rw [hbuild] at hkept
    exact hkept.left
  | _ => exact hm

/-- An operation starts a program, or it makes objects and keeps what that does. -/
theorem launches_or_keeps (hcollect : Upholds P ObjectMachine.collectGarbage) (hm : P m) :
    (∃ fuel start m₁, op.Launches m fuel start m₁) ∨ Kept P (op.run m) := by
  cases op with
  | send => exact .inl ⟨_, _, _, .send ..⟩
  | executeMethod => exact .inl ⟨_, _, _, .executeMethod ..⟩
  | callBlock => exact .inl ⟨_, _, _, .callBlock ..⟩
  | evaluate fuel draft =>
    have hkept := hP.build (fun c hc => .get_bind fun m => hcode _ (.evaluate hc)) m hm
    cases hbuild : draft.build m with
    | ok method m' => exact .inl ⟨_, _, _, .evaluate hbuild⟩
    | error s m' =>
      rw [hbuild] at hkept
      rw [run, ObjectMachine.evaluate, bind_error hbuild]
      cases hkept with
      | fault hm' => exact .inr (.fault hm')
  | newClass name superclass ownVariables => exact .inr (hP.newClass _ _ _ m hm)
  | install draft =>
    right
    apply hP.install
    exact hP.build (fun c hc => .get_bind fun m => hcode _ (.install hc)) m hm
  | intern name => exact .inr (hP.intern name m hm)
  | newInstance classRef size => exact .inr (hP.newInstance classRef size m hm)
  | newMethod c => exact .inr (hcode _ (.newMethod c) m hm)
  | newBlock b => exact .inr (hcode _ (.newBlock b) m hm)
  | setGlobal name v =>
    right
    apply Upholds.bind (P := P) _ (fun _ => .pure _) m hm
    exact hP.reroot fun _ => ⟨rfl, rfl, rfl, rfl, rfl⟩
  | setScratch values =>
    right
    apply Upholds.bind (P := P) _ (fun _ => .pure _) m hm
    exact hP.reroot fun _ => ⟨rfl, rfl, rfl, rfl, rfl⟩
  | collectGarbage => exact .inr (hcollect.bind (fun _ => .pure _) m hm)
  | _ => exact .inr (hP.made (fun _ => rfl) m hm)

end

end Operation

/-- The machines that a host can get to by operations that satisfy `P`, whether
they have answered or stopped early. -/
inductive Attained (P : Machine → Operation → Prop) : Machine → Prop
  | boot {settings : Settings} {maxDepth : Nat} {m : Machine} :
      bootstrap settings maxDepth = .ok m → Attained P m
  | operated {m : Machine} {op : Operation} : Attained P m → P m op →
      Attained P (after op.run m)

end ObjectMachine

import ObjectMachine.Proofs.Occupancy
import ObjectMachine.Proofs.Trails

/-!
# Machines that keep within their memory

Whatever happens to a machine is a step of its memory or leaves its objects and its
room as they are. So the bounds on memories are bounds on machines, between the
operations of a host and while its programs run.
-/

namespace ObjectMachine

open Memory

variable {m m' : Machine} {o : HeapObject} {d : Displacement} {v : Value} {brings : Body → Prop}

theorem Places.allocate_eq_ok (h : Places m o d v m') : allocate o m = .ok v m' := by
  cases h with
  | free hfull => simp [allocate, hfull]
  | full hfull hc => simp [allocate, hfull, hc]

theorem Places.step (h : Places m o d v m') : Step .rounded m.memory m'.memory := by
  have hok := h.allocate_eq_ok
  rw [allocate_eq] at hok
  cases ha : m.memory.allocate m.roots o with
  | error f =>
    rw [ha] at hok
    cases hok
  | ok a =>
    rw [ha] at hok
    cases hok
    exact .allocate ha

theorem Machine.write_step (m : Machine) (v : Value) (g : Body → Body) :
    Step .rounded m.memory (m.write v g).memory := by
  cases v <;> exact .edit rfl rfl (by simp [write, modifyBody, modifyObject])

theorem Act.step (h : Act m d m') : Step .rounded m.memory m'.memory := by
  cases h with
  | write v _ => exact m.write_step v _
  | create _ hplaces => exact hplaces.step
  | leave =>
    refine .edit ?_ ?_ ?_ <;> unfold Machine.leave <;> split <;> rfl
  | _ => exact .edit rfl rfl rfl

theorem Change.step (h : Change brings m d m') : Step .rounded m.memory m'.memory := by
  cases h with
  | act hact => exact hact.step
  | reroot hm => exact .edit (by rw [hm.memory]) (by rw [hm.memory]) (by rw [hm.memory])
  | make _ hplaces => exact hplaces.step
  | intern _ hplaces => exact hplaces.step
  | define => exact m.write_step _ _
  | adopt => exact .edit rfl rfl (by simp)
  | collect hc => exact .collect hc

theorem Linked.run (h : Linked (Change brings) m m') : Run .rounded m.memory m'.memory := by
  obtain ⟨d, h⟩ := h
  exact h.keeps (P := fun m' => Run .rounded m.memory m'.memory)
    (fun _ _ _ hchange hrun => hrun.tail hchange.step) .refl

theorem new_of_bootstrap {settings : Settings} {maxDepth : Nat}
    (h : bootstrap settings maxDepth = .ok m) :
    Memory.new settings = .ok (Machine.bare settings maxDepth).memory := by
  unfold bootstrap Machine.new Memory.new at h
  unfold Memory.new
  cases hproblem : settings.problem? with
  | some p =>
    rw [hproblem] at h
    cases h
  | none => rfl

variable {Q : Machine → Operation → Prop}

theorem Attained.run (h : Attained Q m) :
    ∃ s start, Memory.new s = .ok start ∧ Run .rounded start m.memory := by
  induction h with
  | boot h => exact ⟨_, _, new_of_bootstrap h, (bootstrap_linked h).run⟩
  | @operated m op _ _ ih =>
    obtain ⟨s, start, hnew, hrun⟩ := ih
    rw [Action.after_eq]
    exact ⟨s, start, hnew, hrun.trans (op.run_linked m).run⟩

theorem Occurs.run (h : Occurs Q m) :
    ∃ s start, Memory.new s = .ok start ∧ Run .rounded start m.memory := by
  cases h with
  | attained hm => exact hm.run
  | visited hm _ hvisits =>
    obtain ⟨s, start, hnew, hrun⟩ := hm.run
    exact ⟨s, start, hnew, hrun.trans hvisits.linked.run⟩

/-- A machine that a host can get to, between operations or while a program runs, has at
most one object more than there is room for, as long as its capacity is counted exactly. -/
theorem Occurs.occupied (h : Occurs Q m) (hcapacity : m.memory.capacity < 0x20000000000000) :
    m.memory.Occupied m.memory.settings := by
  obtain ⟨s, start, hnew, hrun⟩ := h.run
  obtain ⟨hs, hstart⟩ := occupied_new hnew
  have hoccupied : m.memory.Occupied s := by
    apply hstart.run hs hrun
    rintro mem rfl hle
    exact Reading.rounded_soundAt hs (hle.trans_lt hcapacity)
  rwa [hoccupied.settings]

end ObjectMachine

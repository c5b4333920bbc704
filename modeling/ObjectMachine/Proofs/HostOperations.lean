import ObjectMachine.Proofs.ExecutionPaths
import ObjectMachine.Proofs.FirstClasses

/-!
# What a host can do with a machine

A host makes a machine and then asks it for one operation after the other. An
operation is fit for a machine when every value it passes is live there. The
strict discipline asks for more: classes must be classes and primitives must
exist. The layered one asks that a new class stands on a class or on nil.
Whatever the answers are, the machine stays intact.
-/

namespace ObjectMachine

inductive Operation where
  | newClass (name : String) (superclass : Value) (ownVariables : List String)
  | install (draft : Draft)
  | intern (name : String)
  | newString (s : String)
  | newArray (elements : Array Value)
  | newByteArray (bytes : Array UInt8)
  | newInstance (classRef : Value) (size : Nat)
  | newBlock (block : Block)
  | newMethod (method : Method)
  | setGlobal (name : String) (v : Value)
  /-- The host decides what is on the scratch stack. -/
  | setScratch (values : Array Value)
  | send (fuel : Nat) (receiver : Value) (selector : String) (args : Array Value)
  | evaluate (fuel : Nat) (draft : Draft)
  | executeMethod (fuel : Nat) (method receiver : Value) (args : Array Value)
  | callBlock (fuel : Nat) (block : Value) (args : Array Value)
  | collectGarbage

namespace Operation

/-- Carry out an operation. One without an answer answers nil. -/
def run : Operation → Action Value
  | newClass name superclass ownVariables => ObjectMachine.newClass name superclass ownVariables
  | install draft => draft.install
  | intern name => ObjectMachine.intern name
  | newString s => ObjectMachine.newString s
  | newArray elements => ObjectMachine.newArray elements
  | newByteArray bytes => ObjectMachine.newByteArray bytes
  | newInstance classRef size => ObjectMachine.newInstance classRef size
  | newBlock block => ObjectMachine.newBlock block
  | newMethod method => ObjectMachine.newMethod method
  | setGlobal name v => do
    ObjectMachine.setGlobal name v
    return .nil
  | setScratch values => do
    modify fun m => { m with scratch := values }
    return .nil
  | send fuel receiver selector args => ObjectMachine.send fuel receiver selector args
  | evaluate fuel draft => ObjectMachine.evaluate fuel draft
  | executeMethod fuel method receiver args =>
    ObjectMachine.executeMethod fuel method receiver args
  | callBlock fuel block args => ObjectMachine.callBlock fuel block args
  | collectGarbage => do
    ObjectMachine.collectGarbage
    return .nil

def values : Operation → List Value
  | newClass _ superclass _ => [superclass]
  | install draft | evaluate _ draft =>
    draft.owner :: draft.literals.toList.map Literal.placeholder
  | newArray elements => elements.toList
  | newInstance classRef _ => [classRef]
  | newBlock block => block.literals.toList
  | newMethod method => method.selector :: method.owner :: method.literals.toList
  | setGlobal _ v => [v]
  | setScratch values => values.toList
  | send _ receiver _ args => receiver :: args.toList
  | executeMethod _ method receiver args => method :: receiver :: args.toList
  | callBlock _ block args => block :: args.toList
  | intern _ | newString _ | newByteArray _ | collectGarbage => []

def outer? : Operation → Option ContextId
  | newBlock block => block.outer
  | _ => none

structure Fit (m : Machine) (op : Operation) : Prop where
  values : ∀ v ∈ op.values, m.memory.Live v
  outer : ∀ id, op.outer? = some id → m.InUse id

/-- Classes are classes and primitives exist. -/
def NamesClasses (m : Machine) : Operation → Prop
  | newInstance classRef _ => m.isClass classRef
  | install draft => m.isClass draft.owner ∧
      ∀ index ∈ draft.primitive, (Primitive.row? index).isSome
  | _ => True

/-- A new class stands on a class or on nil. -/
def Layers (m : Machine) : Operation → Prop
  | newClass _ superclass _ => superclass.isNil ∨ m.isClass superclass
  | _ => True

/-- What a discipline asks of a host. -/
def Admitted (d : Discipline) (m : Machine) (op : Operation) : Prop :=
  op.Fit m ∧ (d = .strict → op.NamesClasses m) ∧ (d = .layered → op.Layers m)

end Operation

section

variable {d : Discipline} {m : Machine}

theorem Draft.live_of_values {b : Draft}
    (h : ∀ v ∈ b.owner :: b.literals.toList.map Literal.placeholder, m.memory.Live v) :
    b.Live m := by
  refine ⟨h _ (List.mem_cons_self ..), fun l hl => h _ (List.mem_cons_of_mem _ ?_)⟩
  exact List.mem_map_of_mem (Array.mem_toList_iff.mpr hl)

theorem collectGarbage_yields (h : m.Intact d) :
    Yields d m (fun _ _ => True) ObjectMachine.collectGarbage := by
  obtain ⟨inUse, h⟩ := h
  rcases h.settle [] (by simp) with herr | ⟨f, c, inUse', hc, -, -, -⟩
  · rw [List.append_nil] at herr
    refine .of_error (e := .fault .multiplicationOverflow) ?_ (.single (.attempt m)) id
    simp only [ObjectMachine.collectGarbage, herr]
  · rw [List.append_nil] at hc
    have hok : ObjectMachine.collectGarbage m = .ok () (m.settle c) := by
      simp only [ObjectMachine.collectGarbage, hc]
    exact .of_ok hok (.single (.collect hok)) trivial

theorem made_yields (h : m.Intact d) {o : Machine → HeapObject} (ho : Made d m (o m)) :
    Yields d m (fun v m' => m'.memory.Live v) (get >>= fun m => allocate (o m)) := by
  refine Yields.bind_get ((allocate_yields h ho).mono ?_)
  rintro v m' ⟨f, hnew⟩
  exact hnew.live

theorem Operation.run_yields (hd : d ≠ .booting) (h : m.Intact d) {op : Operation}
    (hop : op.Admitted d m) : Yields d m (fun v m' => m'.memory.Live v) op.run := by
  obtain ⟨hfit, htyped, hlayers⟩ := hop
  have hvalues := hfit.values
  cases op with
  | newClass name superclass ownVariables =>
    have hbears : d.layers → m.memory.Bears superclass := by
      intro hd'
      have hlayered : d = .layered := by cases d <;> simp_all
      exact (hlayers hlayered).imp_right Primitive.isClass_stamp
    refine (newClass_yields h name (hvalues _ (by simp [values])) hbears ownVariables).mono ?_
    rintro v m' ⟨hclass, -⟩
    exact Machine.HasClass.live hclass
  | install b =>
    refine (b.install_yields hd h (Draft.live_of_values hvalues) fun hs => ?_).mono
      fun v m' hv => hv.1
    exact ⟨Primitive.isClass_stamp (htyped hs).1, (htyped hs).2⟩
  | intern name => exact (intern_yields hd h name).mono fun v m' hv => hv.1
  | newString s => exact (newString_yields hd h s).mono fun v m' hv => hv.1
  | newArray elements =>
    exact made_yields h (.array elements hd fun v hv => hvalues v (by simpa [values] using hv))
  | newByteArray bytes => exact made_yields h (.bytes bytes hd)
  | newInstance classRef size =>
    exact made_yields h (.blank classRef size hd (hvalues _ (by simp [values]))
      fun hs => Primitive.isClass_stamp (htyped hs))
  | newBlock b =>
    exact made_yields h
      (.block b hd (fun v hv => hvalues v (by simpa [values] using hv)) hfit.outer)
  | newMethod c =>
    exact made_yields h (.method c hd (hvalues _ (by simp [values])) (hvalues _ (by simp [values]))
      fun v hv => hvalues v (by simp [values, hv]))
  | setGlobal name v =>
    exact Yields.bind_move (.global m name v (hvalues v (by simp [values]))) (.pure trivial)
  | setScratch vs =>
    exact Yields.bind_move (.scratch m vs fun v hv => hvalues v (by simpa [values] using hv))
      (.pure trivial)
  | send fuel receiver selector args =>
    exact send_yields hd h fuel selector (hvalues _ (by simp [values]))
      fun v hv => hvalues v (by simp [values, hv])
  | evaluate fuel b => exact evaluate_yields hd h fuel (Draft.live_of_values hvalues)
  | executeMethod fuel method receiver args =>
    exact executeMethod_yields hd h fuel (hvalues _ (by simp [values]))
      fun v hv => hvalues v (by simp [values, hv])
  | callBlock fuel block args =>
    exact callBlock_yields hd h fuel fun v hv => hvalues v (by simp [values, hv])
  | collectGarbage => exact (collectGarbage_yields h).bind fun _ _ _ _ => .pure trivial

/-- The machines that a host can get to, whether its operations have answered or
stopped early. An operation that has spent its steps leaves its program running. -/
inductive Reachable (d : Discipline) : Machine → Prop
  | boot {settings : Settings} {maxDepth : Nat} {m : Machine} :
      bootstrap settings maxDepth = .ok m → Reachable d m
  | answered {m m' : Machine} {op : Operation} {v : Value} : Reachable d m → op.Admitted d m →
      op.run m = .ok v m' → Reachable d m'
  | stopped {m m' : Machine} {op : Operation} {e : Stop} : Reachable d m → op.Admitted d m →
      op.run m = .error e m' → Reachable d m'

/-- Strictly typed memory is sound memory. -/
theorem Machine.Intact.relax (h : m.Intact .strict) (hd : d.typed = false) : m.Intact d := by
  have hallowed : ∀ w v, d.AllowsClass w v := by
    intro w v
    cases d with
    | free | layered => trivial
    | booting | strict => cases hd
  have huntyped : ¬d.typed := ne_true_of_eq_false hd
  obtain ⟨inUse, h⟩ := h
  refine ⟨inUse, ⟨?_, ?_, h.memory.epochs⟩, h.roots, fun v _ => hallowed _ v⟩
  · intro i o ho
    have hintact := h.memory.objects i o ho
    refine ⟨hintact.whole, hintact.held, fun ht => absurd ht huntyped, fun _ => hallowed _ _, ?_⟩
    rintro rfl
    cases hd
  · intro id hid
    obtain ⟨c, hc, hintact⟩ := h.memory.contexts id hid
    exact ⟨c, hc, hintact.held, fun ht => absurd ht huntyped⟩

theorem Reachable.intact (hd : d ≠ .booting) (h : Reachable d m) : m.Intact d := by
  induction h with
  | boot hboot =>
    have hstrict := bootstrap_intact hboot
    cases d with
    | free => exact hstrict.relax rfl
    | layered => exact hstrict.relax rfl
    | booting => exact absurd rfl hd
    | strict => exact hstrict
  | answered _ hop hrun ih =>
    have hy := Operation.run_yields hd ih hop
    rw [Yields, hrun] at hy
    exact hy.1.intact ih
  | stopped _ hop hrun ih =>
    have hy := Operation.run_yields hd ih hop
    rw [Yields, hrun] at hy
    exact hy.1.intact ih

/-- No operation stops at a fault that its discipline excludes. -/
theorem Operation.not_excluded (hd : d ≠ .booting) (h : m.Intact d) {op : Operation}
    (hop : op.Admitted d m) {e : Stop} {m' : Machine} (hrun : op.run m = .error e m') :
    ¬e.ExcludedBy d := by
  have hy := run_yields hd h hop
  rw [Yields, hrun] at hy
  exact hy.2

end

/-- Less memory than the first classes and their methods need. -/
def Settings.tight : Settings := ⟨64, ⟨0x3FE999999999999A⟩, ⟨0x3FE6666666666666⟩, 2⟩

def Operation.sum : Operation :=
  .send 10 (.integer (.ofByte 3)) "+" #[.integer (.ofByte 4)]

theorem Operation.sum_admitted (d : Discipline) (m : Machine) : sum.Admitted d m := by
  refine ⟨⟨fun v hv => ?_, by simp [sum, outer?]⟩, fun _ => trivial, fun _ => trivial⟩
  have hv' : v = .integer (.ofByte 3) ∨ v = .integer (.ofByte 4) := by
    simpa [sum, values] using hv
  rcases hv' with rfl | rfl <;> trivial

/-- A tight machine collects before it is complete, and adds. -/
theorem tight_machine_adds : ∃ m m', bootstrap .tight 10 = .ok m ∧
    Operation.sum.run m = .ok (.integer (.ofByte 7)) m' ∧ 0 < m'.memory.collections := by
  have hrun : (match bootstrap .tight 10 with
      | .ok m =>
        match Operation.sum.run m with
        | .ok v m' => decide (v = .integer (.ofByte 7) ∧ 0 < m'.memory.collections)
        | .error _ _ => false
      | .error _ => false) = true := by decide +kernel
  split at hrun
  · next m hboot =>
    split at hrun
    · next v m' hsum =>
      obtain ⟨rfl, hcollected⟩ := of_decide_eq_true hrun
      exact ⟨m, m', hboot, hsum, hcollected⟩
    · exact absurd hrun Bool.false_ne_true
  · exact absurd hrun Bool.false_ne_true

end ObjectMachine

import ObjectMachine.Proofs.Edges

/-!
# The two walks over edges

`edges` lists the values that an object or a context holds; `traverse` shows them to a
visitor and puts the answers back. Whatever the visitor does, it is shown the listed
values in their order, each once, and then the contexts. What it answers becomes the
new list, and all that is no value stays. A value that one of the walks missed would
break this, and so would a field that neither of them knows: the values and the shell
around them are all there is.
-/

namespace ObjectMachine

namespace Visitor

/-- Show a visitor values, then contexts, and collect its answers to the values. -/
def present {m : Type → Type} [Monad m] (visitor : Visitor m) (values : List Value)
    (contexts : List ContextId) : m (List Value) := do
  let answers ← values.mapM visitor.value
  forM contexts visitor.context
  return answers

/-- Replace every value by its image and write down everything that is shown. -/
def recording (f : Value → Value) : Visitor (StateM (List Root)) where
  value v := do
    modify (· ++ [.value v])
    return f v
  context id := modify (· ++ [.context id])

variable (f : Value → Value) (values : List Value) (contexts : List ContextId) (seen : List Root)

theorem run_recording_value (v : Value) :
    Id.run (((recording f).value v).run seen) = (f v, seen ++ [.value v]) := rfl

theorem run_recording_context (id : ContextId) :
    Id.run (((recording f).context id).run seen) = ((), seen ++ [.context id]) := rfl

theorem run_mapM_recording :
    Id.run ((values.mapM (recording f).value).run seen) =
      (values.map f, seen ++ values.map .value) := by
  induction values generalizing seen with
  | nil => simp
  | cons v rest ih => simp [run_recording_value, ih]

theorem run_forM_recording :
    Id.run ((forM contexts (recording f).context).run seen) =
      ((), seen ++ contexts.map .context) := by
  induction contexts generalizing seen with
  | nil => simp
  | cons id rest ih => simp [run_recording_context, ih]

theorem run_present_recording :
    Id.run (((recording f).present values contexts).run seen) =
      (values.map f, seen ++ (values.map .value ++ contexts.map .context)) := by
  simp [present, run_mapM_recording, run_forM_recording]

theorem run_present_replace : Id.run ((replace f).present values contexts) = values.map f := by
  simp [present]

end Visitor

-- An object is its values and a shell around them. `Shell.fill` puts values into a shell,
-- in the order of `edges`.

namespace Dictionary

variable (d : Dictionary)

theorem length_names : d.names.length = d.values.length := by
  simp [names, values]

theorem zip_names_values : d.names.zip d.values = d.entries :=
  (List.zip_of_prod rfl rfl).symm

end Dictionary

namespace Body

/-- All of a body but its values: how many there are, and everything that is none. -/
inductive Shell where
  | slots (count : Nat)
  | classInfo (name : String) (ownVariables : List String) (instanceSize : Nat)
  | method (code : Code) (literalCount : Nat) (temporaries : List String)
      (primitive : Option Nat)
  | block (code : Code) (literalCount temporaryCount : Nat) (outer : Option ContextId)
  | array (count : Nat)
  | bytes (bytes : Array UInt8)
  | dictionary (names : List String)
  | string (s : String)
  | symbol (s : String)
  | husk

def shell : Body → Shell
  | slots values => .slots values.size
  | classInfo c => .classInfo c.name c.ownVariables c.instanceSize
  | method c => .method c.code c.literals.size c.temporaries c.primitive
  | block b => .block b.code b.literals.size b.temporaryCount b.outer
  | array elements => .array elements.size
  | bytes bs => .bytes bs
  | dictionary d => .dictionary d.names
  | string s => .string s
  | symbol s => .symbol s
  | husk => .husk

def Shell.fill : Shell → List Value → Body
  | slots _ => fun vs => .slots vs.toArray
  | classInfo name ownVariables instanceSize => fun
    | [superclass, methods] =>
      .classInfo ⟨name, superclass, ownVariables, instanceSize, methods⟩
    | _ => .husk
  | method code _ temporaries primitive => fun
    | selector :: owner :: literals =>
      .method ⟨selector, code, literals.toArray, temporaries, owner, primitive⟩
    | _ => .husk
  | block code _ temporaryCount outer => fun vs =>
    .block ⟨code, vs.toArray, temporaryCount, outer⟩
  | array _ => fun vs => .array vs.toArray
  | bytes bs => fun _ => .bytes bs
  | dictionary names => fun vs => .dictionary ⟨names.zip vs⟩
  | string s => fun _ => .string s
  | symbol s => fun _ => .symbol s
  | husk => fun _ => .husk

variable (b : Body)

theorem fill_shell_edges : b.shell.fill b.edges = b := by
  cases b with
  | dictionary d => simp [shell, Shell.fill, edges, d.zip_names_values]
  | _ => simp [shell, Shell.fill, edges]

theorem fill_spec {vs : List Value} (h : vs.length = b.edges.length) :
    (b.shell.fill vs).edges = vs ∧ (b.shell.fill vs).shell = b.shell := by
  cases b with
  | slots _ | array _ | block _ =>
    simp only [edges, Array.length_toList] at h
    simp [Shell.fill, shell, edges, h]
  | classInfo c =>
    obtain ⟨superclass, methods, rfl⟩ := List.length_eq_two.mp h
    exact ⟨rfl, rfl⟩
  | method c =>
    obtain ⟨selector, rest, rfl⟩ := List.exists_cons_of_length_eq_add_one h
    obtain ⟨owner, literals, rfl⟩ := List.exists_cons_of_length_eq_add_one (Nat.succ.inj h)
    simp only [edges, List.length_cons, Array.length_toList, Nat.add_right_cancel_iff] at h
    simp [Shell.fill, shell, edges, h]
  | dictionary d =>
    have hnames : d.names.length = vs.length := d.length_names.trans h.symm
    simp only [Shell.fill, shell, edges, Dictionary.values, Dictionary.names]
    exact ⟨List.map_snd_zip (Nat.le_of_eq hnames.symm),
      congrArg _ (List.map_fst_zip (Nat.le_of_eq hnames))⟩
  | bytes _ | string _ | symbol _ | husk => exact ⟨(List.length_eq_zero_iff.mp h).symm, rfl⟩

end Body

namespace HeapObject

structure Shell where
  moved : Bool
  age : UInt8
  forward : Option Nat
  body : Body.Shell

def shell (o : HeapObject) : Shell :=
  ⟨o.header.moved, o.header.age, o.header.forward, o.body.shell⟩

def Shell.fill (s : Shell) : List Value → HeapObject
  | classRef :: vs => ⟨⟨classRef, s.moved, s.age, s.forward⟩, s.body.fill vs⟩
  | [] => default

variable (o : HeapObject)

theorem roots_eq : o.roots = o.edges.map .value ++ o.body.outer?.toList.map .context := by
  simp [roots, Option.toList_map]

theorem fill_shell_edges : o.shell.fill o.edges = o := by
  simp [shell, Shell.fill, edges, Body.fill_shell_edges]

theorem fill_spec {vs : List Value} (h : vs.length = o.edges.length) :
    (o.shell.fill vs).edges = vs ∧ (o.shell.fill vs).shell = o.shell := by
  obtain ⟨classRef, rest, rfl⟩ := List.exists_cons_of_length_eq_add_one h
  obtain ⟨hedges, hshell⟩ := o.body.fill_spec (Nat.succ.inj h)
  exact ⟨congrArg (classRef :: ·) hedges, congrArg (Shell.mk _ _ _) hshell⟩

end HeapObject

namespace Context

structure Shell where
  argumentCount : Nat
  temporaryCount : Nat
  depth : Nat
  pc : Nat
  sender : Option ContextId
  outer : Option ContextId
  epoch : Nat

def shell (c : Context) : Shell :=
  ⟨c.args.size, c.temporaries.size, c.stack.size, c.pc, c.sender, c.outer, c.epoch⟩

def Shell.fill (s : Shell) : List Value → Context
  | method :: receiver :: vs =>
    { method
      receiver
      args := (vs.take s.argumentCount).toArray
      temporaries := ((vs.drop s.argumentCount).take s.temporaryCount).toArray
      stack := ((vs.drop s.argumentCount).drop s.temporaryCount).toArray
      pc := s.pc
      sender := s.sender
      outer := s.outer
      epoch := s.epoch }
  | _ => default

variable (c : Context)

theorem roots_eq :
    c.roots = c.edges.map .value ++ (c.sender.toList ++ c.outer.toList).map .context := by
  simp [roots, Option.toList_map]

theorem fill_shell_edges : c.shell.fill c.edges = c := by
  simp [shell, Shell.fill, edges]

theorem fill_spec {vs : List Value} (h : vs.length = c.edges.length) :
    (c.shell.fill vs).edges = vs ∧ (c.shell.fill vs).shell = c.shell := by
  obtain ⟨method, rest, rfl⟩ := List.exists_cons_of_length_eq_add_one h
  obtain ⟨receiver, vs, rfl⟩ := List.exists_cons_of_length_eq_add_one (Nat.succ.inj h)
  simp only [edges, List.length_cons, List.length_append, Array.length_toList,
    Nat.add_right_cancel_iff] at h
  constructor
  · simp only [Shell.fill, edges, List.append_assoc, List.take_append_drop]
  · simp only [Shell.fill, shell, List.size_toArray, List.length_take, List.length_drop,
      Shell.mk.injEq, and_true]
    omega

end Context

section

variable {m : Type → Type} [Monad m] [LawfulMonad m] (visitor : Visitor m)

theorem Dictionary.mapM_entries (visit : Value → m Value) (es : List (String × Value)) :
    (es.mapM fun e => do return (e.1, ← visit e.2)) =
      (es.map Prod.fst).zip <$> (es.map Prod.snd).mapM visit := by
  induction es with
  | nil => simp
  | cons e rest ih =>
    rw [List.mapM_cons, ih]
    simp

theorem Dictionary.traverse_eq (d : Dictionary) (visit : Value → m Value) :
    d.traverse visit = (fun vs => ⟨d.names.zip vs⟩) <$> d.values.mapM visit := by
  -- a name is carried along with the answer to its value
  have hentries : d.traverse visit =
      Dictionary.mk <$> (d.entries.mapM fun e => do return (e.1, ← visit e.2)) :=
    bind_pure_comp ..
  rw [hentries, mapM_entries, Functor.map_map]
  rfl

theorem forM_toList (context : Option ContextId) (visit : ContextId → m Unit) :
    forM context.toList visit = forM context visit := by
  cases context <;> simp

theorem Body.traverse_eq (b : Body) :
    b.traverse visitor = b.shell.fill <$> visitor.present b.edges b.outer?.toList := by
  cases b with
  | slots values | array values =>
    simp [traverse, shell, Shell.fill, Visitor.present, edges, outer?, Array.mapM_eq_mapM_toList]
  | classInfo c => simp [traverse, shell, Shell.fill, Visitor.present, edges, outer?]
  | method c =>
    simp [traverse, shell, Shell.fill, Visitor.present, edges, outer?, Array.mapM_eq_mapM_toList]
  | block b =>
    simp [traverse, shell, Shell.fill, Visitor.present, edges, outer?, Array.mapM_eq_mapM_toList,
      forM_toList]
  | dictionary d =>
    simp [traverse, shell, Shell.fill, Visitor.present, edges, outer?, d.traverse_eq]
  | bytes _ | string _ | symbol _ | husk =>
    simp [traverse, shell, Shell.fill, Visitor.present, edges, outer?]

theorem HeapObject.traverse_eq (o : HeapObject) :
    o.traverse visitor = o.shell.fill <$> visitor.present o.edges o.body.outer?.toList := by
  simp [traverse, Body.traverse_eq, shell, Shell.fill, Visitor.present, edges]

/-- Only answers as many as the values matter to what is done with them. -/
theorem bind_mapM_congr {g : Value → m Value} {α : Type} {vs : List Value}
    {next next' : List Value → m α}
    (h : ∀ answers, answers.length = vs.length → next answers = next' answers) :
    vs.mapM g >>= next = vs.mapM g >>= next' := by
  induction vs generalizing next next' with
  | nil => simp [h [] rfl]
  | cons v rest ih =>
    simp only [List.mapM_cons, bind_assoc, pure_bind]
    apply bind_congr
    intro answer
    apply ih
    intro answers hlength
    exact h (answer :: answers) (by simp [hlength])

theorem Context.traverse_eq (c : Context) :
    c.traverse visitor =
      c.shell.fill <$> visitor.present c.edges (c.sender.toList ++ c.outer.toList) := by
  simp only [traverse, Visitor.present, edges, Array.mapM_eq_mapM_toList, List.mapM_cons,
    List.mapM_append, bind_map_left, map_bind, bind_assoc, pure_bind, map_pure]
  apply bind_congr
  intro method
  apply bind_congr
  intro receiver
  -- the answers come in one list and are told apart by their number again
  apply bind_mapM_congr
  intro args hargs
  apply bind_mapM_congr
  intro temporaries htemporaries
  apply bind_congr
  intro stack
  simp only [Array.length_toList] at hargs htemporaries
  simp [shell, Shell.fill, hargs, htemporaries, forM_toList]

end

namespace Survey

/-- A survey as a visitor: it meets the values, lets the contexts wait, and leaves the
values as they are. -/
def visitor : Visitor (StateT Survey (Except Fault)) where
  value v s := (v, ·) <$> s.visit (.value v)
  context id s := ((), ·) <$> s.visit (.context id)

variable (s : Survey)

theorem visitAll_cons (r : Root) (rest : List Root) :
    s.visitAll (r :: rest) = s.visit r >>= fun t => t.visitAll rest :=
  List.foldlM_cons ..

theorem visitAll_append (roots roots' : List Root) :
    s.visitAll (roots ++ roots') = s.visitAll roots >>= fun t => t.visitAll roots' :=
  List.foldlM_append

theorem run_mapM_visitor (values : List Value) :
    (values.mapM visitor.value).run s = (values, ·) <$> s.visitAll (values.map .value) := by
  induction values generalizing s with
  | nil => rfl
  | cons v rest ih =>
    have hfirst : (visitor.value v).run s = (v, ·) <$> s.visit (.value v) := rfl
    rw [List.mapM_cons, StateT.run_bind, hfirst, List.map_cons, visitAll_cons, map_bind,
      bind_map_left]
    apply bind_congr
    intro t
    simp [ih]

theorem run_forM_visitor (contexts : List ContextId) :
    (forM contexts visitor.context).run s = ((), ·) <$> s.visitAll (contexts.map .context) := by
  induction contexts generalizing s with
  | nil => rfl
  | cons id rest ih =>
    have hfirst : (visitor.context id).run s = ((), ·) <$> s.visit (.context id) := rfl
    rw [List.forM_cons, StateT.run_bind, hfirst, List.map_cons, visitAll_cons, map_bind,
      bind_map_left]
    apply bind_congr
    intro t
    exact ih t

theorem run_present_visitor (values : List Value) (contexts : List ContextId) :
    (visitor.present values contexts).run s =
      (values, ·) <$> s.visitAll (values.map .value ++ contexts.map .context) := by
  simp [Visitor.present, run_mapM_visitor, run_forM_visitor, visitAll_append]

/-- To follow an object is to walk it. -/
theorem run_traverse_object (o : HeapObject) :
    (o.traverse visitor).run s = (o, ·) <$> s.visitAll o.roots := by
  rw [o.traverse_eq, StateT.run_map, run_present_visitor, o.roots_eq, Functor.map_map]
  simp only [o.fill_shell_edges]

theorem run_traverse_context (c : Context) :
    (c.traverse visitor).run s = (c, ·) <$> s.visitAll c.roots := by
  rw [c.traverse_eq, StateT.run_map, run_present_visitor, c.roots_eq, Functor.map_map]
  simp only [c.fill_shell_edges]

end Survey

/-- Two walks over `x`: `edges` lists its values, and `traverse` shows them and `contexts`
to a visitor. `shell` is everything of `x` but its values. -/
structure WalksAgree {α σ : Type} (edges : α → List Value) (contexts : α → List ContextId)
    (shell : α → σ) (traverse : ∀ {m : Type → Type} [Monad m], Visitor m → α → m α) (x : α) :
    Prop where
  /-- Whatever a visitor keeps or does, it is shown the listed values in their order and
  then the contexts; its answers take the place of the values and nothing else changes. -/
  presented : ∃ fill : List Value → α,
    (∀ vs, vs.length = (edges x).length → edges (fill vs) = vs ∧ shell (fill vs) = shell x) ∧
      ∀ {m : Type → Type} [Monad m] [LawfulMonad m] (visitor : Visitor m),
        traverse visitor x = fill <$> visitor.present (edges x) (contexts x)
  /-- A visitor that replaces the values by their images is shown all that and nothing
  more, and the images are listed afterwards. -/
  replaced : ∀ (f : Value → Value) (seen : List Root),
    ∃ y, Id.run (traverse (.replace f) x) = y ∧
      Id.run ((traverse (.recording f) x).run seen) =
        (y, seen ++ ((edges x).map .value ++ (contexts x).map .context)) ∧
      edges y = (edges x).map f ∧ shell y = shell x
  /-- There is no more to `x` than its values and its shell. -/
  whole : ∀ y, shell y = shell x → edges y = edges x → y = x

/-- It is enough that shells can be filled and that the walk does so with the answers. -/
theorem WalksAgree.of_fill {α σ : Type} {edges : α → List Value} {contexts : α → List ContextId}
    {shell : α → σ} {traverse : ∀ {m : Type → Type} [Monad m], Visitor m → α → m α}
    (fill : σ → List Value → α) (hwhole : ∀ x, fill (shell x) (edges x) = x)
    (hfill : ∀ x vs, vs.length = (edges x).length →
      edges (fill (shell x) vs) = vs ∧ shell (fill (shell x) vs) = shell x)
    (htraverse : ∀ (x : α) {m : Type → Type} [Monad m] [LawfulMonad m] (visitor : Visitor m),
      traverse visitor x = fill (shell x) <$> visitor.present (edges x) (contexts x)) (x : α) :
    WalksAgree edges contexts shell traverse x where
  presented := ⟨fill (shell x), hfill x, htraverse x⟩
  replaced f seen := by
    refine ⟨fill (shell x) ((edges x).map f), ?_, ?_, hfill x _ (List.length_map ..)⟩
    · rw [htraverse, Id.run_map, Visitor.run_present_replace]
    · rw [htraverse, StateT.run_map, Id.run_map, Visitor.run_present_recording]
  whole y hshell hedges := by rw [← hwhole y, hshell, hedges, hwhole]

/-- The walk that lists edges and the walk that rewrites them agree on every body, every
object and every context. The contexts that are shown are the one a block was made in,
and the sender and the outer context of a context. A survey that follows an object or a
context is a visitor of the second walk. -/
theorem edge_walks_agree :
    (∀ b : Body, WalksAgree Body.edges (fun b => b.outer?.toList) Body.shell Body.traverse b) ∧
      (∀ o : HeapObject, WalksAgree HeapObject.edges (fun o => o.body.outer?.toList)
        HeapObject.shell HeapObject.traverse o) ∧
      (∀ c : Context, WalksAgree Context.edges (fun c => c.sender.toList ++ c.outer.toList)
        Context.shell Context.traverse c) ∧
      ∀ s : Survey,
        (∀ o : HeapObject, (o.traverse Survey.visitor).run s = (o, ·) <$> s.visitAll o.roots) ∧
          ∀ c : Context, (c.traverse Survey.visitor).run s = (c, ·) <$> s.visitAll c.roots := by
  refine ⟨?_, ?_, ?_, fun s => ⟨s.run_traverse_object, s.run_traverse_context⟩⟩
  · exact .of_fill Body.Shell.fill Body.fill_shell_edges (fun b _ => b.fill_spec)
      fun b _ _ _ visitor => b.traverse_eq visitor
  · exact .of_fill HeapObject.Shell.fill HeapObject.fill_shell_edges (fun o _ => o.fill_spec)
      fun o _ _ _ visitor => o.traverse_eq visitor
  · exact .of_fill Context.Shell.fill Context.fill_shell_edges (fun c _ => c.fill_spec)
      fun c _ _ _ visitor => c.traverse_eq visitor

end ObjectMachine

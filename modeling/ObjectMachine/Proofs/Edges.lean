import ObjectMachine.Machine
import Mathlib.Data.List.Basic
import Mathlib.Tactic.SplitIfs

/-!
# Replacing the edges of objects and contexts

Traversals put back what they are answered. When the visit is a plain function,
the result is written here field by field, so that everything a replacement
leaves alone is visible: names, sizes, texts, bytes, code, counts, primitives,
and the links between contexts.
-/

namespace ObjectMachine

namespace Value

/-- Send a reference elsewhere; an immediate stays what it is. -/
def rename (f : Nat → Nat) : Value → Value
  | pointer i => pointer (f i)
  | v => v

@[simp] theorem rename_pointer (f : Nat → Nat) (i : Nat) :
    (pointer i).rename f = pointer (f i) := rfl

theorem rename_of_immediate {v : Value} (h : v.isPointer = false) (f : Nat → Nat) :
    v.rename f = v := by
  cases v with
  | pointer i => exact absurd h (by simp [isPointer])
  | _ => rfl

@[simp] theorem isNil_rename (f : Nat → Nat) (v : Value) : (v.rename f).isNil = v.isNil := by
  cases v <;> rfl

theorem rename_id : rename id = id := by
  funext v
  cases v <;> rfl

theorem rename_comp (f g : Nat → Nat) : rename (g ∘ f) = rename g ∘ rename f := by
  funext v
  cases v <;> rfl

end Value

namespace Dictionary

variable (d : Dictionary) (f g : Value → Value)

theorem run_traverse : Id.run (d.traverse fun v => pure (f v)) = d.map f := by
  simp [traverse, map]

@[simp] theorem values_map : (d.map f).values = d.values.map f := by
  simp [map, values]

@[simp] theorem names_map : (d.map f).names = d.names := by
  simp [map, names]

theorem get?_map (name : String) : (d.map f).get? name = (d.get? name).map f := by
  obtain ⟨es⟩ := d
  change (es.map fun e => (e.1, f e.2)).lookup name = (es.lookup name).map f
  induction es with
  | nil => rfl
  | cons e rest ih =>
    rw [List.map_cons, List.lookup_cons, List.lookup_cons]
    cases name == e.1 with
    | true => rfl
    | false => exact ih

theorem mem_entries_of_get? {name : String} {v : Value} (h : d.get? name = some v) :
    (name, v) ∈ d.entries := by
  obtain ⟨before, after, heq, -⟩ := List.lookup_eq_some_iff.mp h
  simp [heq]

theorem mem_insertEntry {name : String} {v : Value} {e : String × Value}
    {es : List (String × Value)} (h : e ∈ insertEntry name v es) : e = (name, v) ∨ e ∈ es := by
  induction es with
  | nil => simpa [insertEntry] using h
  | cons e rest ih =>
    unfold insertEntry at h
    split_ifs at h
    · rcases List.mem_cons.mp h with rfl | h
      · exact .inl rfl
      · exact .inr (List.mem_cons_of_mem _ h)
    · rcases List.mem_cons.mp h with rfl | h
      · exact .inr (List.mem_cons_self ..)
      · exact (ih h).imp_right (List.mem_cons_of_mem _)

/-- Inserting adds no value but the inserted one. -/
theorem mem_values_insert {name : String} {v u : Value} (h : u ∈ (d.insert name v).values) :
    u = v ∨ u ∈ d.values := by
  obtain ⟨e, he, rfl⟩ := List.mem_map.mp h
  rcases mem_insertEntry he with rfl | he
  · exact .inl rfl
  · exact .inr (List.mem_map_of_mem he)

theorem map_id : d.map id = d := by
  simp [map]

theorem map_map : (d.map f).map g = d.map (g ∘ f) := by
  simp [map]

theorem map_congr (h : ∀ v ∈ d.values, f v = g v) : d.map f = d.map g := by
  simp only [map, mk.injEq]
  apply List.map_congr_left
  rintro ⟨name, v⟩ he
  have hv : v ∈ d.values := List.mem_map.mpr ⟨(name, v), he, rfl⟩
  rw [h v hv]

end Dictionary

namespace Body

/-- Replace the values of a body and nothing else of it. -/
def map (f : Value → Value) : Body → Body
  | slots values => slots (values.map f)
  | classInfo c => classInfo { c with superclass := f c.superclass, methods := f c.methods }
  | method c =>
    method { c with selector := f c.selector, owner := f c.owner, literals := c.literals.map f }
  | block b => block { b with literals := b.literals.map f }
  | array elements => array (elements.map f)
  | bytes bs => bytes bs
  | dictionary d => dictionary (d.map f)
  | string s => string s
  | symbol s => symbol s
  | husk => husk

variable (b : Body) (f g : Value → Value)

theorem run_traverse : Id.run (b.traverse (.replace f)) = b.map f := by
  cases b with
  | dictionary d =>
    have hd := d.run_traverse f
    simp only [traverse, map]
    exact congrArg dictionary hd
  | _ => simp [traverse, map]

@[simp] theorem kind_map : (b.map f).kind = b.kind := by
  cases b <;> rfl

@[simp] theorem outer?_map : (b.map f).outer? = b.outer? := by
  cases b <;> rfl

@[simp] theorem edges_map : (b.map f).edges = b.edges.map f := by
  cases b <;> simp [map, edges]

theorem map_id : b.map id = b := by
  cases b <;> simp [map, Dictionary.map_id]

theorem map_map : (b.map f).map g = b.map (g ∘ f) := by
  cases b <;> simp [map, Dictionary.map_map]

theorem map_congr (h : ∀ v ∈ b.edges, f v = g v) : b.map f = b.map g := by
  cases b with
  | slots values | array values =>
    simp only [map, slots.injEq, array.injEq]
    exact Array.map_congr_left fun v hv => h v (by simpa [edges] using hv)
  | classInfo c =>
    simp only [map, h c.superclass (by simp [edges]), h c.methods (by simp [edges])]
  | method c =>
    have hl : c.literals.map f = c.literals.map g :=
      Array.map_congr_left fun v hv => h v (by simp [edges, hv])
    simp only [map, hl, h c.selector (by simp [edges]), h c.owner (by simp [edges])]
  | block b =>
    have hl : b.literals.map f = b.literals.map g :=
      Array.map_congr_left fun v hv => h v (by simpa [edges] using hv)
    simp only [map, hl]
  | dictionary d => simp only [map, d.map_congr f g h]
  | bytes _ | string _ | symbol _ | husk => rfl

end Body

namespace HeapObject

variable (o : HeapObject) (f g : Value → Value)

theorem mapEdges_eq :
    o.mapEdges f = ⟨{ o.header with classRef := f o.header.classRef }, o.body.map f⟩ := by
  rw [← o.body.run_traverse f]
  rfl

@[simp] theorem mapEdges_body : (o.mapEdges f).body = o.body.map f := by
  rw [mapEdges_eq]

@[simp] theorem mapEdges_classRef :
    (o.mapEdges f).header.classRef = f o.header.classRef := by
  rw [mapEdges_eq]

theorem mapEdges_id : o.mapEdges id = o := by
  simp [mapEdges_eq, Body.map_id]

theorem mapEdges_congr (h : ∀ v ∈ o.edges, f v = g v) : o.mapEdges f = o.mapEdges g := by
  rw [mapEdges_eq, mapEdges_eq, h o.header.classRef (by simp [edges]),
    o.body.map_congr f g fun v hv => h v (by simp [edges, hv])]

@[simp] theorem roots_survivor : o.survivor.roots = o.roots := rfl

theorem value_mem_roots (v : Value) : Root.value v ∈ o.roots ↔ v ∈ o.edges := by
  simp [roots]

theorem context_mem_roots (id : ContextId) :
    Root.context id ∈ o.roots ↔ o.body.outer? = some id := by
  simp [roots]

end HeapObject

namespace Context

variable (c : Context) (f g : Value → Value)

theorem mapEdges_eq :
    c.mapEdges f =
      { c with
        method := f c.method
        receiver := f c.receiver
        args := c.args.map f
        temporaries := c.temporaries.map f
        stack := c.stack.map f } := by
  simp [mapEdges, traverse]

theorem mapEdges_id : c.mapEdges id = c := by
  simp [mapEdges_eq]

theorem mapEdges_congr (h : ∀ v ∈ c.edges, f v = g v) : c.mapEdges f = c.mapEdges g := by
  have hargs : c.args.map f = c.args.map g :=
    Array.map_congr_left fun v hv => h v (by simp [edges, hv])
  have htemporaries : c.temporaries.map f = c.temporaries.map g :=
    Array.map_congr_left fun v hv => h v (by simp [edges, hv])
  have hstack : c.stack.map f = c.stack.map g :=
    Array.map_congr_left fun v hv => h v (by simp [edges, hv])
  rw [mapEdges_eq, mapEdges_eq, h c.method (by simp [edges]), h c.receiver (by simp [edges]),
    hargs, htemporaries, hstack]

theorem value_mem_roots (v : Value) : Root.value v ∈ c.roots ↔ v ∈ c.edges := by
  simp [roots]

theorem context_mem_roots (id : ContextId) :
    Root.context id ∈ c.roots ↔ c.sender = some id ∨ c.outer = some id := by
  simp [roots]

end Context

namespace Memory

variable (mem : Memory) {v : Value} (h : v.isPointer = false)

include h

theorem object?_of_immediate : mem.object? v = none := by
  cases v with
  | pointer i => exact absurd h (by simp [Value.isPointer])
  | _ => rfl

theorem body?_of_immediate : mem.body? v = none := by
  rw [body?, mem.object?_of_immediate h, Option.map_none]

end Memory

theorem CoreClasses.map_congr {c : CoreClasses} {g g' : Value → Value}
    (h : ∀ v ∈ c.values, g v = g' v) : c.map g = c.map g' := by
  simp only [values, List.forall_mem_cons] at h
  simp only [map, h]

namespace Machine

theorem value_mem_roots {m : Machine} {v : Value} :
    .value v ∈ m.roots ↔
      v ∈ m.core.values ∨ v ∈ m.globals.values ∨ v ∈ m.symbols.values ∨ v ∈ m.scratch := by
  simp [roots]

theorem context_mem_roots {m : Machine} {id : ContextId} :
    .context id ∈ m.roots ↔ m.active = some id := by
  simp [roots]

end Machine

end ObjectMachine

import ObjectMachine.Printing
import Mathlib.Tactic.Choose
import Mathlib.Tactic.SplitIfs

/-!
# Printing shows a tree

The arrays in a memory may hold each other and themselves, so a value unfolds to a tree
of elements that need not end. What is printed is that tree, cut off below the eighth
level of arrays: a place of the tree is a list of indices, and the tree that is printed
has at every place what the unfolding has there, or the mark of a cut nine levels down.
A value that goes no deeper is printed whole.
-/

namespace ObjectMachine

/-- What is printed: the texts of values that are no arrays, arrays, and cuts. -/
inductive PrintTree where
  | leaf (text : String)
  | array (elements : List PrintTree)
  | cut

namespace PrintTree

mutual

def render : PrintTree → String
  | leaf text => text
  | array elements => "#(" ++ String.intercalate " " (renderAll elements) ++ ")"
  | cut => "..."

def renderAll : List PrintTree → List String
  | [] => []
  | t :: ts => t.render :: renderAll ts

end

theorem renderAll_eq_map (ts : List PrintTree) : renderAll ts = ts.map render := by
  induction ts with
  | nil => rfl
  | cons t ts ih => rw [renderAll, ih, List.map_cons]

/-- The part of a tree at a place, which is a list of indices from the top. -/
def at? : PrintTree → List Nat → Option PrintTree
  | t, [] => some t
  | array ts, k :: place => (ts[k]?).bind fun t => at? t place
  | leaf _, _ :: _ | cut, _ :: _ => none

@[elab_as_elim]
theorem induct {P : PrintTree → Prop} (leaf : ∀ text, P (leaf text))
    (array : ∀ ts, (∀ t ∈ ts, P t) → P (array ts)) (cut : P cut) (t : PrintTree) : P t := by
  refine @PrintTree.rec P (fun ts => ∀ t ∈ ts, P t) leaf array cut ?_ ?_ t
  · intro t ht
    cases ht
  · intro t ts ht hts u hu
    rcases List.mem_cons.mp hu with rfl | hu
    · exact ht
    · exact hts u hu

end PrintTree

namespace Machine

variable (m : Machine)

def elements? (v : Value) : Option (Array Value) :=
  match m.memory.body? v with
  | some (.array elements) => some elements
  | _ => none

/-- The value at a place of the unfolding of `v`. -/
def valueAt? : Value → List Nat → Option Value
  | v, [] => some v
  | v, k :: place =>
    (m.elements? v).bind fun elements => (elements[k]?).bind fun e => valueAt? e place

/-- How a value that is no array is shown. -/
inductive Shows : Value → String → Prop
  | integer (n : SmallInteger) : Shows (.integer n) (toString n.val)
  | float (x : ShortFloat) : Shows (.float x) (x.toBinary64.text .printed)
  | nil : Shows .nil "nil"
  | reserved (w : ReservedWord) : Shows (.reserved w) "nil"
  | bool (b : Bool) : Shows (.bool b) (toString b)
  | dangling {v : Value} : v.isPointer = true → m.memory.body? v = none →
      Shows v s!"<dangling {v.describe}>"
  | string {v : Value} {s : String} : m.memory.body? v = some (.string s) → Shows v (quoted s)
  | symbol {v : Value} {s : String} : m.memory.body? v = some (.symbol s) → Shows v s!"#{s}"
  | classInfo {v : Value} {c : ClassInfo} : m.memory.body? v = some (.classInfo c) → Shows v c.name
  | bytes {v : Value} {bytes : Array UInt8} : m.memory.body? v = some (.bytes bytes) →
      Shows v ("#[" ++ String.intercalate " " (bytes.toList.map fun b => toString b.toNat) ++ "]")
  | method {v : Value} {c : Method} : m.memory.body? v = some (.method c) →
      Shows v (m.className c.owner ++ ">>" ++ (m.symbolName? c.selector).getD "?")
  | husk {v : Value} : m.memory.body? v = some .husk → Shows v s!"<forwarded {v.describe}>"
  | member {v : Value} {o : HeapObject} : m.memory.object? v = some o →
      o.body.kind ∈ [.slots, .block, .dictionary] → o.header.classRef.isNil = false →
      Shows v (withArticle (m.className o.header.classRef))

/-- Every object that prints by its class has one. -/
def Classed : Prop :=
  ∀ o ∈ m.memory.objects, o.body.kind ∈ [.slots, .block, .dictionary] →
    o.header.classRef.isNil = false

/-- What appears at a place of a tree that is cut off at the level `limit`, if there is one, from
the value that the unfolding has there and from the level of the place. -/
inductive Appears (limit : Option Nat) (level : Nat) : Option Value → Option PrintTree → Prop
  | absent : Appears limit level none none
  | leaf {w : Value} {text : String} : (∀ n ∈ limit, level < n) → m.elements? w = none →
      m.Shows w text → Appears limit level (some w) (some (.leaf text))
  | array {w : Value} {elements : Array Value} {ts : List PrintTree} :
      (∀ n ∈ limit, level < n) → m.elements? w = some elements → ts.length = elements.size →
      Appears limit level (some w) (some (.array ts))
  | cut {w : Value} : level ∈ limit → Appears limit level (some w) (some .cut)
  | below {w : Value} : (∃ n ∈ limit, n < level) → Appears limit level (some w) none

/-- `t` is the unfolding of `v`, cut off at the level `limit` if there is one. -/
def Depicts (limit : Option Nat) (v : Value) (t : PrintTree) : Prop :=
  ∀ place, m.Appears limit place.length (m.valueAt? v place) (t.at? place)

variable {m}

theorem elements?_eq_some {v : Value} {elements : Array Value} :
    m.elements? v = some elements ↔ m.memory.body? v = some (.array elements) := by
  unfold elements?
  split <;> simp_all

theorem classOf_of_kind {v : Value} {o : HeapObject} (hobject : m.memory.object? v = some o)
    (hkind : o.body.kind ∈ [.slots, .block, .dictionary])
    (hclass : o.header.classRef.isNil = false) : m.classOf v = .ok o.header.classRef := by
  cases v with
  | pointer i =>
    unfold classOf
    rw [hobject]
    dsimp only
    split
    next hbody => simp [hbody, Body.kind] at hkind
    · rw [hclass]
      rfl
  | _ => cases hobject

theorem exists_pointer_of_body? {v : Value} {b : Body} (h : m.memory.body? v = some b) :
    ∃ i, v = .pointer i := by
  cases v with
  | pointer i => exact ⟨i, rfl⟩
  | _ => cases h

/-- What is shown is printed, if a level is left. -/
theorem Shows.printWithin_eq {v : Value} {text : String} (h : m.Shows v text) (levels : Nat) :
    m.printWithin (levels + 1) v = .ok text := by
  cases h with
  | integer | float | nil | reserved => rfl
  | bool b => cases b <;> rfl
  | dangling hpointer hbody =>
    cases v with
    | pointer i => rw [printWithin, hbody]
    | _ => cases hpointer
  | string hbody | symbol hbody | classInfo hbody | bytes hbody | method hbody | husk hbody =>
    obtain ⟨i, rfl⟩ := exists_pointer_of_body? hbody
    rw [printWithin, hbody]
  | @member _ o hobject hkind hclass =>
    have hbody : m.memory.body? v = some o.body := by rw [Memory.body?, hobject]; rfl
    have hclassOf := classOf_of_kind hobject hkind hclass
    obtain ⟨i, rfl⟩ := exists_pointer_of_body? hbody
    rw [printWithin, hbody]
    cases hb : o.body with
    | slots | block | dictionary =>
      dsimp only
      rw [hclassOf]
      rfl
    | _ => simp [hb, Body.kind] at hkind

theorem Shows.unique {v : Value} {text text' : String} (h : m.Shows v text)
    (h' : m.Shows v text') : text' = text :=
  Except.ok.inj ((h'.printWithin_eq 0).symm.trans (h.printWithin_eq 0))

theorem exists_shows (h : m.Classed) {v : Value} (hv : m.elements? v = none) :
    ∃ text, m.Shows v text := by
  cases v with
  | integer n => exact ⟨_, .integer n⟩
  | float x => exact ⟨_, .float x⟩
  | nil => exact ⟨_, .nil⟩
  | reserved w => exact ⟨_, .reserved w⟩
  | bool b => exact ⟨_, .bool b⟩
  | pointer i =>
    cases hobject : m.memory.object? (.pointer i) with
    | none => exact ⟨_, .dangling rfl (by rw [Memory.body?, hobject]; rfl)⟩
    | some o =>
      have hbody : m.memory.body? (.pointer i) = some o.body := by rw [Memory.body?, hobject]; rfl
      have hclassed := h o (Array.mem_of_getElem? hobject)
      obtain ⟨header, body⟩ := o
      cases body with
      | array elements =>
        rw [elements?_eq_some.mpr hbody] at hv
        cases hv
      | string s => exact ⟨_, .string hbody⟩
      | symbol s => exact ⟨_, .symbol hbody⟩
      | classInfo c => exact ⟨_, .classInfo hbody⟩
      | bytes bytes => exact ⟨_, .bytes hbody⟩
      | method c => exact ⟨_, .method hbody⟩
      | husk => exact ⟨_, .husk hbody⟩
      | slots | block | dictionary =>
        refine ⟨_, .member hobject ?_ (hclassed ?_)⟩ <;> simp [Body.kind]

variable {limit : Option Nat} {v : Value} {t : PrintTree}

theorem valueAt?_of_not_array (hv : m.elements? v = none) (k : Nat) (place : List Nat) :
    m.valueAt? v (k :: place) = none := by
  rw [valueAt?, hv, Option.bind_none]

theorem valueAt?_of_array {elements : Array Value} (hv : m.elements? v = some elements) (k : Nat)
    (place : List Nat) :
    m.valueAt? v (k :: place) = (elements[k]?).bind fun e => m.valueAt? e place := by
  rw [valueAt?, hv, Option.bind_some]

/-- Above a place of the unfolding there are places of the unfolding. -/
theorem isSome_valueAt?_take {place : List Nat} (h : (m.valueAt? v place).isSome) (n : Nat) :
    (m.valueAt? v (place.take n)).isSome := by
  induction place generalizing v n with
  | nil => simpa using h
  | cons k place ih =>
    cases n with
    | zero => rfl
    | succ n =>
      cases hv : m.elements? v with
      | none =>
        rw [valueAt?_of_not_array hv] at h
        cases h
      | some elements =>
        rw [valueAt?_of_array hv] at h
        rw [List.take_succ_cons, valueAt?_of_array hv]
        cases he : elements[k]? with
        | none =>
          rw [he] at h
          cases h
        | some e =>
          rw [he] at h
          exact ih h n

theorem Appears.imp {limit' : Option Nat} {level level' : Nat} {w? : Option Value}
    {t? : Option PrintTree} (h : m.Appears limit level w? t?)
    (habove : (∀ n ∈ limit, level < n) → ∀ n ∈ limit', level' < n)
    (hlevel : level ∈ limit → level' ∈ limit')
    (hbelow : (∃ n ∈ limit, n < level) → ∃ n ∈ limit', n < level') :
    m.Appears limit' level' w? t? := by
  cases h with
  | absent => exact .absent
  | leaf h hw htext => exact .leaf (habove h) hw htext
  | array h hw hlength => exact .array (habove h) hw hlength
  | cut h => exact .cut (hlevel h)
  | below h => exact .below (hbelow h)

theorem appears_succ_iff {level : Nat} {w? : Option Value} {t? : Option PrintTree} :
    m.Appears (limit.map (· + 1)) (level + 1) w? t? ↔ m.Appears limit level w? t? :=
  ⟨fun h => h.imp (by simp) (by simp) (by simp), fun h => h.imp (by simp) (by simp) (by simp)⟩

theorem depicts_cut (v : Value) : m.Depicts (some 0) v .cut := by
  intro place
  cases place with
  | nil => exact .cut rfl
  | cons k place =>
    change m.Appears _ _ _ none
    cases m.valueAt? v (k :: place) with
    | none => exact .absent
    | some w => exact .below ⟨0, rfl, Nat.zero_lt_succ _⟩

theorem depicts_leaf {text : String} (hlimit : ∀ n ∈ limit, 0 < n) (hv : m.elements? v = none)
    (htext : m.Shows v text) : m.Depicts limit v (.leaf text) := by
  intro place
  cases place with
  | nil => exact .leaf hlimit hv htext
  | cons k place =>
    rw [valueAt?_of_not_array hv]
    exact .absent

/-- A tree of an array has the trees of its elements. -/
theorem depicts_array {elements : Array Value} {ts : List PrintTree}
    (hv : m.elements? v = some elements) (hlength : ts.length = elements.size)
    (hts : ∀ (k : Nat) e t, elements[k]? = some e → ts[k]? = some t → m.Depicts limit e t) :
    m.Depicts (limit.map (· + 1)) v (.array ts) := by
  intro place
  cases place with
  | nil => exact .array (by simp) hv hlength
  | cons k place =>
    rw [valueAt?_of_array hv, PrintTree.at?, List.length_cons, appears_succ_iff]
    cases he : elements[k]? with
    | none =>
      have hk : ts[k]? = none := by
        rw [List.getElem?_eq_none_iff, hlength]
        exact Array.getElem?_eq_none_iff.mp he
      rw [hk]
      exact .absent
    | some e =>
      obtain ⟨t, ht⟩ : ∃ t, ts[k]? = some t := by
        have hk := (Array.getElem?_eq_some_iff.mp he).1
        exact ⟨_, List.getElem?_eq_getElem (hlength ▸ hk)⟩
      rw [ht]
      exact hts k e t he ht place

theorem Depicts.element {elements : Array Value} {ts : List PrintTree}
    (h : m.Depicts (limit.map (· + 1)) v (.array ts)) (hv : m.elements? v = some elements)
    {k : Nat} {e : Value} {t : PrintTree} (he : elements[k]? = some e) (ht : ts[k]? = some t) :
    m.Depicts limit e t := by
  intro place
  have hplace := h (k :: place)
  rw [valueAt?_of_array hv, PrintTree.at?, he, ht, List.length_cons, appears_succ_iff] at hplace
  exact hplace

theorem Depicts.top (h : m.Depicts limit v t) : m.Appears limit 0 (some v) (some t) := by
  have htop := h []
  rwa [PrintTree.at?] at htop

/-- A value has no more than one tree. -/
theorem Depicts.unique {t' : PrintTree} (h : m.Depicts limit v t) (h' : m.Depicts limit v t') :
    t' = t := by
  have htop := h.top
  have htop' := h'.top
  induction t using PrintTree.induct generalizing limit v t' with
  | leaf text =>
    cases htop with
    | leaf habove hv htext =>
      cases htop' with
      | leaf _ _ htext' => rw [htext.unique htext']
      | array _ hv' => rw [hv] at hv'; cases hv'
      | cut hlevel => exact absurd (habove 0 hlevel) (Nat.lt_irrefl 0)
  | array ts ih =>
    cases htop with
    | @array _ elements _ habove hv hlength =>
      cases htop' with
      | leaf _ hv' => rw [hv] at hv'; cases hv'
      | cut hlevel => exact absurd (habove 0 hlevel) (Nat.lt_irrefl 0)
      | @array _ _ ts' _ hv' hlength' =>
        rw [hv] at hv'
        cases hv'
        -- the limit leaves a level for the elements
        obtain ⟨below, rfl⟩ : ∃ below : Option Nat, limit = below.map (· + 1) := by
          cases limit with
          | none => exact ⟨none, rfl⟩
          | some n =>
            have hn := habove n rfl
            exact ⟨some (n - 1), by rw [Option.map_some, Nat.sub_add_cancel hn]⟩
        congr 1
        refine List.ext_getElem (hlength'.trans hlength.symm) fun k hk' hk => ?_
        have he := Array.getElem?_eq_getElem (hlength ▸ hk)
        have helement := h.element hv he (List.getElem?_eq_getElem hk)
        have helement' := h'.element hv he (List.getElem?_eq_getElem hk')
        exact ih _ (List.getElem_mem hk) helement helement' helement.top helement'.top
  | cut =>
    cases htop with
    | cut hlevel =>
      cases htop' with
      | leaf habove | array habove => exact absurd (habove 0 hlevel) (Nat.lt_irrefl 0)
      | cut => rfl

theorem exists_depicts (h : m.Classed) (levels : Nat) (v : Value) :
    ∃ t, m.Depicts (some levels) v t ∧ m.printWithin levels v = .ok t.render := by
  induction levels generalizing v with
  | zero => exact ⟨.cut, depicts_cut v, rfl⟩
  | succ levels ih =>
    cases hv : m.elements? v with
    | none =>
      obtain ⟨text, htext⟩ := exists_shows h hv
      exact ⟨.leaf text, depicts_leaf (by simp) hv htext, htext.printWithin_eq levels⟩
    | some elements =>
      choose tree htree hprint using ih
      refine ⟨.array (elements.toList.map tree), ?_, ?_⟩
      · change m.Depicts ((some levels).map (· + 1)) v _
        refine depicts_array hv (by simp) fun k e t he ht => ?_
        simp only [List.getElem?_map, Array.getElem?_toList, he, Option.map_some,
          Option.some.injEq] at ht
        exact ht ▸ htree e
      · have hparts : elements.toList.mapM (m.printWithin levels) =
            .ok (elements.toList.map fun e => (tree e).render) := by
          rw [funext hprint]
          exact List.mapM_pure
        have hbody := elements?_eq_some.mp hv
        obtain ⟨i, rfl⟩ := exists_pointer_of_body? hbody
        rw [printWithin, hbody]
        dsimp only
        rw [hparts, PrintTree.render, PrintTree.renderAll_eq_map, List.map_map]
        rfl

theorem Depicts.exists_cut_iff {limit : Nat} (h : m.Depicts (some limit) v t) :
    (∃ place, t.at? place = some .cut) ↔
      ∃ place, (m.valueAt? v place).isSome ∧ limit ≤ place.length := by
  constructor
  · rintro ⟨place, hcut⟩
    have hplace := h place
    rw [hcut] at hplace
    generalize hw : m.valueAt? v place = w at hplace
    cases hplace with
    | cut hlevel => exact ⟨place, by rw [hw]; rfl, Nat.le_of_eq (Option.some.inj hlevel)⟩
  · rintro ⟨place, hsome, hlength⟩
    have hplace := h (place.take limit)
    rw [List.length_take_of_le hlength] at hplace
    obtain ⟨w, hw⟩ := Option.isSome_iff_exists.mp (isSome_valueAt?_take hsome limit)
    refine ⟨place.take limit, ?_⟩
    rw [hw] at hplace
    generalize t.at? (place.take limit) = t? at hplace
    cases hplace with
    | leaf habove | array habove => exact absurd (habove limit rfl) (Nat.lt_irrefl _)
    | cut => rfl
    | below hbelow =>
      obtain ⟨n, hn, hlt⟩ := hbelow
      cases hn
      exact absurd hlt (Nat.lt_irrefl _)

/-- Without a place at the level of the cut, nothing is cut off. -/
theorem Depicts.whole {limit : Nat} (h : m.Depicts (some limit) v t)
    (hv : ∀ place, (m.valueAt? v place).isSome → place.length < limit) : m.Depicts none v t := by
  intro place
  have hplace := h place
  have hlength := hv place
  generalize m.valueAt? v place = w, t.at? place = t? at hplace hlength
  cases hplace with
  | absent => exact .absent
  | leaf _ hw htext => exact .leaf (by simp) hw htext
  | array _ hw hsize => exact .array (by simp) hw hsize
  | cut hlevel =>
    have hlt := hlength rfl
    rw [← Option.some.inj hlevel] at hlt
    exact absurd hlt (Nat.lt_irrefl _)
  | below hbelow =>
    obtain ⟨n, hn, hlt⟩ := hbelow
    cases hn
    exact absurd (hlength rfl) (Nat.lt_asymm hlt)

end Machine

/-- Every pair of quotes made one. -/
def undoubleQuotes : List Char → List Char
  | c :: d :: rest =>
    if c = quoteMark ∧ d = quoteMark then quoteMark :: undoubleQuotes rest
    else c :: undoubleQuotes (d :: rest)
  | cs => cs

theorem undoubleQuotes_cons {c : Char} (hc : c ≠ quoteMark) (cs : List Char) :
    undoubleQuotes (c :: cs) = c :: undoubleQuotes cs := by
  cases cs with
  | nil => rfl
  | cons d rest => rw [undoubleQuotes, if_neg fun h => hc h.1]

theorem undoubleQuotes_doubleQuotes (cs : List Char) :
    undoubleQuotes (doubleQuotes cs) = cs := by
  induction cs with
  | nil => rfl
  | cons c cs ih =>
    rw [doubleQuotes, List.flatMap_cons, ← doubleQuotes]
    split_ifs with hc
    · subst hc
      rw [List.cons_append, List.singleton_append, undoubleQuotes, if_pos ⟨rfl, rfl⟩, ih]
    · rw [List.singleton_append, undoubleQuotes_cons hc, ih]

/-- In every memory whose members have classes, every value is printed, as the one tree that is
its unfolding down to the eighth level of arrays. There is a cut in it exactly if the value goes
deeper, and otherwise it is the unfolding without any limit. A string is read back from inside
its quotes, so different strings print differently. -/
theorem printing_is_total_and_faithful (m : Machine) (h : m.Classed) :
    (∀ v, ∃ t, (∀ t', m.Depicts (some 9) v t' ↔ t' = t) ∧ m.printString v = .ok t.render ∧
      ((∃ place, t.at? place = some .cut) ↔
        ∃ place, (m.valueAt? v place).isSome ∧ 8 < place.length) ∧
      ((∀ place, (m.valueAt? v place).isSome → place.length ≤ 8) →
        ∀ t', m.Depicts none v t' ↔ t' = t)) ∧
    (∀ v s, m.memory.body? v = some (.string s) →
      ∃ inner, m.printString v = .ok (String.ofList (quoteMark :: inner ++ [quoteMark])) ∧
        undoubleQuotes inner = s.toList) ∧
    ∀ v v' s s', m.memory.body? v = some (.string s) → m.memory.body? v' = some (.string s') →
      m.printString v = m.printString v' → s = s' := by
  have hstring : ∀ v s, m.memory.body? v = some (.string s) →
      m.printString v = .ok (quoted s) := fun v s hv => (Machine.Shows.string hv).printWithin_eq 8
  refine ⟨fun v => ?_, fun v s hv => ?_, fun v v' s s' hv hv' heq => ?_⟩
  · obtain ⟨t, hdepicts, hprint⟩ := Machine.exists_depicts h 9 v
    refine ⟨t, fun t' => ⟨hdepicts.unique, ?_⟩, hprint, hdepicts.exists_cut_iff, ?_⟩
    · rintro rfl
      exact hdepicts
    · intro hshallow t'
      have hwhole := hdepicts.whole fun place hplace => Nat.lt_succ_of_le (hshallow place hplace)
      refine ⟨hwhole.unique, ?_⟩
      rintro rfl
      exact hwhole
  · exact ⟨doubleQuotes s.toList, hstring v s hv, undoubleQuotes_doubleQuotes _⟩
  · rw [hstring v s hv, hstring v' s' hv'] at heq
    have hquoted := String.ofList_injective (Except.ok.inj heq)
    have hinner := List.append_cancel_right (List.cons.inj hquoted).2
    have hlist := congrArg undoubleQuotes hinner
    rw [undoubleQuotes_doubleQuotes, undoubleQuotes_doubleQuotes] at hlist
    exact String.toList_injective hlist

/-- An array that holds itself and an object of a class. -/
def carousel : Machine :=
  ⟨⟨.standard, 8, #[.new .nil (.array #[.pointer 0, .pointer 1]), .new (.pointer 2) (.slots #[]),
    .new .nil (.classInfo ⟨"Account", .nil, [], 0, .nil⟩)], 0, #[]⟩, .none, .empty, .empty, #[],
    none, 0, 10, #[]⟩

theorem carousel_is_printed_with_a_cut :
    carousel.Classed ∧ ∃ t, carousel.Depicts (some 9) (.pointer 0) t ∧
      carousel.printString (.pointer 0) = .ok t.render ∧ ∃ place, t.at? place = some .cut := by
  have hclassed : carousel.Classed := by
    intro o ho hkind
    simp only [carousel, List.mem_toArray, List.mem_cons, List.not_mem_nil, or_false] at ho
    rcases ho with rfl | rfl | rfl
    · exact absurd hkind (by decide)
    · rfl
    · exact absurd hkind (by decide)
  refine ⟨hclassed, ?_⟩
  obtain ⟨t, hdepicts, hprint, hcut, -⟩ :=
    (printing_is_total_and_faithful carousel hclassed).1 (.pointer 0)
  exact ⟨t, (hdepicts t).mpr rfl, hprint, hcut.mpr ⟨List.replicate 9 0, rfl, by decide⟩⟩

end ObjectMachine

import ObjectMachine.Listing
import ObjectMachine.Proofs.Decoding
import ObjectMachine.Proofs.Scripts

/-!
# Listings are complete

A listing shows one line for each instruction that reading a code gives, under a block
the lines of its body, and one line for each code that cannot be read to its end. The
lines are described here without a bound on how deeply bodies nest: each line knows the
way to the code it stands in, by the offsets of the blocks around it. Every byte string
has exactly one such outline, and the listing is its text.
-/

namespace ObjectMachine

inductive Remark where
  | instruction (i : Instruction)
  | malformed (e : DecodeError)
deriving DecidableEq

structure Line where
  /-- The offsets of the blocks around it, outermost first. -/
  path : List Nat
  /-- Where it stands in the code that it belongs to. -/
  offset : Nat
  remark : Remark
deriving DecidableEq

/-- Four blanks for each block around the line. -/
def Line.text (l : Line) : String :=
  let margin := String.ofList (List.replicate (4 * l.path.length) ' ')
  match l.remark with
  | .instruction i => s!"{margin}{zeroPadded 4 l.offset} {i.text}"
  | .malformed e => s!"{margin}{zeroPadded 4 l.offset} <{e.message}>"

def Line.under (outer : List Nat) (l : Line) : Line := { l with path := outer ++ l.path }

namespace Code

/-- The lines of `code` from the offset `pc` on. Under an instruction stand the lines of the
code that it carries, which is none unless it makes a block. -/
inductive Outlines : List Nat → Code → Nat → List Line → Prop
  | ended {path : List Nat} {code : Code} {pc : Nat} : code.fetch? pc = none →
      Outlines path code pc []
  | malformed {path : List Nat} {code : Code} {pc : Nat} {e : DecodeError} :
      code.fetch? pc = some (.error e) → Outlines path code pc [⟨path, pc, .malformed e⟩]
  | read {path : List Nat} {code : Code} {pc : Nat} {i : Instruction} {inner rest : List Line} :
      code.fetch? pc = some (.ok i) → Outlines (path ++ [pc]) i.inlined 0 inner →
      Outlines path code (pc + i.size) rest →
      Outlines path code pc (⟨path, pc, .instruction i⟩ :: (inner ++ rest))

/-- `inner` is the code in `code` that a way through blocks leads to. -/
inductive Nests : Code → List Nat → Code → Prop
  | here (code : Code) : Nests code [] code
  | inside {code body inner : Code} {offset : Nat} {literals temporaries : UInt32}
      {path : List Nat} :
      (offset, .createBlock body literals temporaries) ∈ code.listing.1 → Nests body path inner →
      Nests code (offset :: path) inner

def errorLine (path : List Nat) (offset : Nat) (error : Option DecodeError) : List Line :=
  (error.map fun e => ⟨path, offset, .malformed e⟩).toList

/-- The lines that tell of `code` itself: what reading it gives, and the error it stops at. -/
def ownLines (path : List Nat) (code : Code) : List Line :=
  (code.listing.1.map fun entry => ⟨path, entry.1, .instruction entry.2⟩) ++
    errorLine path code.listing.2.offset code.listing.2.error

variable {path : List Nat} {code : Code} {pc : Nat} {lines : List Line}

theorem exists_outlines (path : List Nat) (code : Code) (pc : Nat) :
    ∃ lines, Outlines path code pc lines := by
  cases hfetch : code.fetch? pc with
  | none => exact ⟨_, .ended hfetch⟩
  | some r =>
    cases r with
    | error e => exact ⟨_, .malformed hfetch⟩
    | ok i =>
      obtain ⟨inner, hinner⟩ := exists_outlines (path ++ [pc]) i.inlined 0
      obtain ⟨rest, hrest⟩ := exists_outlines path code (pc + i.size)
      exact ⟨_, .read hfetch hinner hrest⟩
termination_by code.length - pc
decreasing_by
  -- what an instruction carries is shorter than what is left of the code around it
  all_goals
    have hsize := add_size_le_length hfetch
    have hpos := i.opcode.size_pos
    rw [Instruction.size] at *
    omega

theorem Outlines.unique (h : Outlines path code pc lines) {lines' : List Line}
    (h' : Outlines path code pc lines') : lines' = lines := by
  induction h generalizing lines' with
  | ended hfetch =>
    cases h' with
    | ended => rfl
    | malformed hfetch' | read hfetch' =>
      rw [hfetch] at hfetch'
      cases hfetch'
  | malformed hfetch =>
    cases h' with
    | malformed hfetch' =>
      rw [hfetch] at hfetch'
      cases hfetch'
      rfl
    | ended hfetch' | read hfetch' =>
      rw [hfetch] at hfetch'
      cases hfetch'
  | read hfetch _ _ ihinner ihrest =>
    cases h' with
    | read hfetch' hinner' hrest' =>
      rw [hfetch] at hfetch'
      cases hfetch'
      rw [ihinner hinner', ihrest hrest']
    | ended hfetch' | malformed hfetch' =>
      rw [hfetch] at hfetch'
      cases hfetch'

theorem linesWithin_nil (fuel indent : Nat) : linesWithin fuel indent [] = [] := by
  cases fuel <;> rfl

/-- The lines of a listing for an instruction, with those of the code that it carries. -/
def entryLines (fuel : Nat) (path : List Nat) (entry : Nat × Instruction) : List String :=
  Line.text ⟨path, entry.1, .instruction entry.2⟩ ::
    linesWithin fuel (4 * path.length + 4) entry.2.inlined

theorem linesWithin_succ (fuel : Nat) (path : List Nat) (code : Code) :
    linesWithin (fuel + 1) (4 * path.length) code =
      code.listing.1.flatMap (entryLines fuel path) ++
        (errorLine path code.listing.2.offset code.listing.2.error).map Line.text := by
  rw [linesWithin]
  rcases code.listing with ⟨entries, _, offset, error⟩
  cases error
  case' none => refine (List.append_nil _).symm.trans (congrArg (· ++ []) ?_)
  case' some e => refine congrArg (· ++ _) ?_
  all_goals
    refine congrArg (List.flatMap · entries) (funext fun entry => ?_)
    obtain ⟨offset, i⟩ := entry
    cases i <;> simp [entryLines, Instruction.inlined, linesWithin_nil, Line.text]

/-- Reading `code` from `pc` on gives these entries and stops with this error, if any. -/
structure ReadsTo (code : Code) (pc : Nat) (entries : List (Nat × Instruction)) (last : Nat)
    (error : Option DecodeError) : Prop where
  reads : code.Reads pc entries last
  stop : code.fetch? last = error.map Except.error

variable {entries : List (Nat × Instruction)} {last : Nat} {error : Option DecodeError}

theorem ReadsTo.listing_eq (h : code.ReadsTo 0 entries last error) :
    code.listing = (entries, ⟨code, last, error⟩) := listing_of_reads h.reads h.stop

theorem ReadsTo.cons {i : Instruction} (hfetch : code.fetch? pc = some (.ok i))
    (h : code.ReadsTo (pc + i.size) entries last error) :
    code.ReadsTo pc ((pc, i) :: entries) last error := ⟨.read hfetch h.reads, h.stop⟩

/-- With a budget that goes beyond what is left of the code, the lines of the entries that are
still to be read, and of the error after them, are those of the outline. -/
theorem Outlines.text_eq (h : Outlines path code pc lines) :
    ∃ entries last error, code.ReadsTo pc entries last error ∧
      ∀ fuel, code.length - pc ≤ fuel →
        entries.flatMap (entryLines fuel path) ++ (errorLine path last error).map Line.text =
          lines.map Line.text := by
  induction h with
  | @ended path code pc hfetch => exact ⟨[], pc, none, ⟨.done pc, hfetch⟩, fun _ _ => rfl⟩
  | @malformed path code pc e hfetch =>
    exact ⟨[], pc, some e, ⟨.done pc, hfetch⟩, fun _ _ => rfl⟩
  | @read path code pc i inner rest hfetch _ _ ihinner ihrest =>
    obtain ⟨entries, last, error, hreads, hrest⟩ := ihrest
    obtain ⟨entries', last', error', hreads', hinner⟩ := ihinner
    have hsize := add_size_le_length hfetch
    have hpos := i.opcode.size_pos
    rw [Instruction.size] at hsize
    refine ⟨(pc, i) :: entries, last, error, .cons hfetch hreads, fun fuel hfuel => ?_⟩
    have hentry : entryLines fuel path (pc, i) =
        Line.text ⟨path, pc, .instruction i⟩ :: inner.map Line.text := by
      obtain ⟨fuel, rfl⟩ : ∃ n, fuel = n + 1 := ⟨fuel - 1, by omega⟩
      have hlines := linesWithin_succ fuel (path ++ [pc]) i.inlined
      rw [hreads'.listing_eq, hinner fuel (by omega), List.length_append] at hlines
      exact congrArg (List.cons _) hlines
    rw [List.flatMap_cons, List.append_assoc, hrest fuel (by rw [Instruction.size]; omega), hentry]
    simp

theorem lines_eq (h : Outlines [] code 0 lines) : code.lines = lines.map Line.text := by
  obtain ⟨entries, last, error, hreads, htext⟩ := h.text_eq
  have hlines := linesWithin_succ code.length [] code
  rw [hreads.listing_eq, htext code.length (Nat.sub_le ..)] at hlines
  exact hlines

theorem Outlines.under (h : Outlines path code pc lines) (outer : List Nat) :
    Outlines (outer ++ path) code pc (lines.map (Line.under outer)) := by
  induction h with
  | ended hfetch => exact .ended hfetch
  | malformed hfetch => exact .malformed hfetch
  | read hfetch _ _ ihinner ihrest =>
    rw [← List.append_assoc] at ihinner
    rw [List.map_cons, List.map_append]
    exact .read hfetch ihinner ihrest

theorem Outlines.path_of_mem (h : Outlines path code pc lines) {l : Line} (hl : l ∈ lines) :
    l.path = path ∨ ∃ offset sub, pc ≤ offset ∧ l.path = path ++ offset :: sub := by
  induction h with
  | ended => cases hl
  | malformed =>
    obtain rfl := List.mem_singleton.mp hl
    exact .inl rfl
  | @read path code pc i inner rest _ _ _ ihinner ihrest =>
    rcases List.mem_cons.mp hl with rfl | hl
    · exact .inl rfl
    rcases List.mem_append.mp hl with hl | hl
    · right
      rcases ihinner hl with heq | ⟨offset, sub, -, heq⟩
      · exact ⟨pc, [], Nat.le_refl _, heq⟩
      · exact ⟨pc, offset :: sub, Nat.le_refl _, by simp [heq]⟩
    · refine (ihrest hl).imp_right ?_
      rintro ⟨offset, sub, hle, heq⟩
      exact ⟨offset, sub, by omega, heq⟩

/-- Every line under a block goes through that block. -/
theorem Outlines.path_of_mem_inner {inner : List Line} (h : Outlines (path ++ [pc]) code 0 inner)
    {l : Line} (hl : l ∈ inner) : ∃ sub, l.path = path ++ pc :: sub := by
  rcases h.path_of_mem hl with heq | ⟨offset, sub, -, heq⟩
  · exact ⟨[], heq⟩
  · exact ⟨offset :: sub, by simp [heq]⟩

theorem Outlines.ownLines_eq (h : Outlines path code pc lines) :
    ∃ entries last error, code.ReadsTo pc entries last error ∧
      (lines.filter fun l => l.path = path) =
        (entries.map fun entry => ⟨path, entry.1, .instruction entry.2⟩) ++
          errorLine path last error := by
  induction h with
  | @ended path code pc hfetch => exact ⟨[], pc, none, ⟨.done pc, hfetch⟩, rfl⟩
  | @malformed path code pc e hfetch =>
    exact ⟨[], pc, some e, ⟨.done pc, hfetch⟩, by simp [errorLine]⟩
  | @read path code pc i inner rest hfetch hinner _ _ ihrest =>
    obtain ⟨entries, last, error, hreads, hrest⟩ := ihrest
    refine ⟨(pc, i) :: entries, last, error, .cons hfetch hreads, ?_⟩
    have hnone : (inner.filter fun l => l.path = path) = [] := by
      refine List.filter_eq_nil_iff.mpr fun l hl => ?_
      obtain ⟨sub, heq⟩ := hinner.path_of_mem_inner hl
      simp [heq]
    simp [List.filter_append, hnone, hrest]

theorem Reads.le_of_mem (h : code.Reads pc entries last) {offset : Nat} {i : Instruction}
    (hmem : (offset, i) ∈ entries) : pc ≤ offset := by
  induction h with
  | done => cases hmem
  | read _ _ ih =>
    rcases List.mem_cons.mp hmem with heq | hmem
    · obtain ⟨rfl, -⟩ := Prod.mk.inj heq
      exact Nat.le_refl _
    · have hle := ih hmem
      omega

/-- The lines that go through a block are the lines of its body. -/
theorem Outlines.inner_eq (h : Outlines path code pc lines) :
    ∃ entries last error, code.ReadsTo pc entries last error ∧
      ∀ offset i, (offset, i) ∈ entries → ∃ inner, Outlines (path ++ [offset]) i.inlined 0 inner ∧
        ∀ sub, (lines.filter fun l => l.path = path ++ offset :: sub) =
          inner.filter fun l => l.path = path ++ offset :: sub := by
  induction h with
  | @ended path code pc hfetch =>
    refine ⟨[], pc, none, ⟨.done pc, hfetch⟩, fun _ _ hmem => ?_⟩
    cases hmem
  | @malformed path code pc e hfetch =>
    refine ⟨[], pc, some e, ⟨.done pc, hfetch⟩, fun _ _ hmem => ?_⟩
    cases hmem
  | @read path code pc i inner rest hfetch hinner hrest _ ihrest =>
    obtain ⟨entries, last, error, hreads, hothers⟩ := ihrest
    refine ⟨(pc, i) :: entries, last, error, .cons hfetch hreads, fun offset j hmem => ?_⟩
    have hpos := i.size_pos
    rcases List.mem_cons.mp hmem with heq | hmem
    · -- the block itself: what comes after it stands at later offsets
      obtain ⟨rfl, rfl⟩ := Prod.mk.inj heq
      refine ⟨inner, hinner, fun sub => ?_⟩
      have hnone : (rest.filter fun l => l.path = path ++ offset :: sub) = [] := by
        refine List.filter_eq_nil_iff.mpr fun l hl => ?_
        rcases hrest.path_of_mem hl with heq | ⟨later, sub', hle, heq⟩
        · simp [heq]
        · have hne : later ≠ offset := by omega
          simp [heq, hne]
      simp [List.filter_append, hnone]
    · -- a later block: what stands under this one goes through this one
      obtain ⟨inner', hinner', hsame⟩ := hothers offset j hmem
      refine ⟨inner', hinner', fun sub => ?_⟩
      have hle := hreads.reads.le_of_mem hmem
      have hnone : (inner.filter fun l => l.path = path ++ offset :: sub) = [] := by
        refine List.filter_eq_nil_iff.mpr fun l hl => ?_
        obtain ⟨sub', heq⟩ := hinner.path_of_mem_inner hl
        have hne : pc ≠ offset := by omega
        simp [heq, hne]
      simp [List.filter_append, hnone, hsame]

/-- The lines of an outline that tell of one of the codes in it are that code's own lines. -/
theorem Nests.filter_eq {inner : Code} {sub : List Nat} (h : code.Nests sub inner)
    (houtline : Outlines path code 0 lines) :
    (lines.filter fun l => l.path = path ++ sub) = inner.ownLines (path ++ sub) := by
  induction h generalizing path lines with
  | here code =>
    obtain ⟨entries, last, error, hreads, hown⟩ := houtline.ownLines_eq
    rw [ownLines, hreads.listing_eq, List.append_nil, hown]
  | @inside code body inner offset literals temporaries sub hmem _ ih =>
    obtain ⟨entries, last, error, hreads, hothers⟩ := houtline.inner_eq
    rw [hreads.listing_eq] at hmem
    obtain ⟨lines', hbody, hsame⟩ := hothers _ _ hmem
    have hinner := ih hbody
    rw [List.append_assoc, List.singleton_append] at hinner
    rw [hsame, hinner]

/-- Only a block has lines under it. -/
theorem Outlines.exists_block {i : Instruction} (h : Outlines path i.inlined 0 lines) {l : Line}
    (hl : l ∈ lines) : ∃ body literals temporaries, i = .createBlock body literals temporaries := by
  cases i with
  | createBlock body literals temporaries => exact ⟨body, literals, temporaries, rfl⟩
  | _ =>
    rw [(Outlines.ended rfl).unique h] at hl
    cases hl

/-- A line stands in the code itself or in a code that one of the blocks still to be read
leads to. -/
theorem Outlines.nests_of_mem (h : Outlines path code pc lines) :
    ∃ entries last error, code.ReadsTo pc entries last error ∧
      ∀ l ∈ lines, l.path = path ∨ ∃ offset body literals temporaries sub inner,
        (offset, .createBlock body literals temporaries) ∈ entries ∧ body.Nests sub inner ∧
          l.path = path ++ offset :: sub := by
  induction h with
  | @ended path code pc hfetch =>
    refine ⟨[], pc, none, ⟨.done pc, hfetch⟩, fun _ hmem => ?_⟩
    cases hmem
  | @malformed path code pc e hfetch =>
    refine ⟨[], pc, some e, ⟨.done pc, hfetch⟩, fun l hmem => .inl ?_⟩
    rw [List.mem_singleton.mp hmem]
  | @read path code pc i inner rest hfetch hinner _ ihinner ihrest =>
    obtain ⟨entries, last, error, hreads, hrest⟩ := ihrest
    obtain ⟨entries', last', error', hreads', hunder⟩ := ihinner
    refine ⟨(pc, i) :: entries, last, error, .cons hfetch hreads, fun l hmem => ?_⟩
    rcases List.mem_cons.mp hmem with rfl | htail
    · exact .inl rfl
    rcases List.mem_append.mp htail with hbody | hlater
    · right
      obtain ⟨body, literals, temporaries, rfl⟩ := hinner.exists_block hbody
      rcases hunder l hbody with heq | ⟨offset, body', literals', temporaries', sub, code', hentry,
        hnests, heq⟩
      · exact ⟨pc, body, literals, temporaries, [], body, List.mem_cons_self .., .here body, heq⟩
      · have hlisted : (offset, .createBlock body' literals' temporaries') ∈ body.listing.1 :=
          (congrArg Prod.fst hreads'.listing_eq) ▸ hentry
        exact ⟨pc, body, literals, temporaries, offset :: sub, code', List.mem_cons_self ..,
          .inside hlisted hnests, by simp [heq]⟩
    · refine (hrest l hlater).imp_right ?_
      rintro ⟨offset, body, literals, temporaries, sub, code', hentry, hnests⟩
      exact ⟨offset, body, literals, temporaries, sub, code', List.mem_cons_of_mem _ hentry, hnests⟩

theorem Outlines.exists_nests (h : Outlines [] code 0 lines) {l : Line} (hl : l ∈ lines) :
    ∃ inner, code.Nests l.path inner := by
  obtain ⟨entries, last, error, hreads, hplaced⟩ := h.nests_of_mem
  rcases hplaced l hl with heq | ⟨offset, body, literals, temporaries, sub, inner, hentry, hnests,
    heq⟩
  · exact ⟨code, heq ▸ .here code⟩
  · have hlisted : (offset, .createBlock body literals temporaries) ∈ code.listing.1 :=
      (congrArg Prod.fst hreads.listing_eq) ▸ hentry
    exact ⟨inner, heq ▸ .inside hlisted hnests⟩

/-- The body of a block stands in the code around it as a whole, after the operands. -/
theorem body_within {offset : Nat} {body : Code} {literals temporaries : UInt32}
    (h : (offset, .createBlock body literals temporaries) ∈ code.listing.1) :
    offset + 13 + body.length ≤ code.length ∧
      (code.drop (offset + 13)).take body.length = body := by
  obtain ⟨entries, last, error, hreads, hstop⟩ := exists_reads code 0
  rw [listing_of_reads hreads hstop] at h
  have hfetch := (hreads.entry h).1
  refine ⟨?_, inlined_eq_of_fetch? hfetch⟩
  rw [Nat.add_assoc]
  exact add_size_le_length hfetch

/-- The number of lines, from what each of the instructions carries. -/
theorem Outlines.length_eq (h : Outlines path code pc lines) :
    ∃ entries last error, code.ReadsTo pc entries last error ∧
      lines.length = entries.foldr (fun entry n => 1 + entry.2.inlined.lines.length + n)
        error.toList.length := by
  induction h with
  | @ended path code pc hfetch => exact ⟨[], pc, none, ⟨.done pc, hfetch⟩, rfl⟩
  | @malformed path code pc e hfetch => exact ⟨[], pc, some e, ⟨.done pc, hfetch⟩, rfl⟩
  | @read path code pc i inner rest hfetch hinner _ _ ihrest =>
    obtain ⟨entries, last, error, hreads, hlength⟩ := ihrest
    refine ⟨(pc, i) :: entries, last, error, .cons hfetch hreads, ?_⟩
    obtain ⟨alone, halone⟩ := exists_outlines [] i.inlined 0
    have hunder := halone.under (path ++ [pc])
    rw [List.append_nil] at hunder
    rw [hunder.unique hinner, List.foldr_cons, ← hlength, lines_eq halone]
    simp only [List.length_cons, List.length_append, List.length_map]
    omega

/-- Code that fits the word for its length, with nothing malformed at any depth. -/
structure Tidy (code : Code) : Prop where
  short : code.length < 0x100000000
  whole : ∀ path inner, code.Nests path inner → inner.listing.2.error = none

theorem tidy_nil : Tidy [] := by
  refine ⟨Nat.zero_lt_succ _, fun path inner h => ?_⟩
  cases h with
  | here => rfl
  | inside hmem => cases hmem

end Code

theorem map_snd_layout (start : Nat) (is : List Instruction) :
    (layout start is).map Prod.snd = is := by
  induction is generalizing start with
  | nil => rfl
  | cons i is ih => rw [layout, List.map_cons, ih]

/-- An assembler to which calls have been made, the bodies of blocks being assembled in
the same way, with the number of all instructions at all depths. The length of a body must
fit the word that is written for it. -/
inductive Assembler.Built : Assembler → Nat → Prop
  | start : Built ⟨.empty, #[]⟩ 0
  | call {s s' : Assembler} {n : Nat} (d : Directive) : Built s n →
      (∀ body literals temporaries, d ≠ .emit (.createBlock body literals temporaries)) →
      d.carryOut s = .ok s' → Built s' (n + if d.emits then 1 else 0)
  | block {s inner : Assembler} {n k : Nat} (literals temporaries : UInt32) : Built s n →
      Built inner k → inner.assembly.code.length < 0x100000000 →
      Built { s with assembly :=
        s.assembly.emit (.createBlock inner.assembly.code literals temporaries) } (n + 1 + k)

/-- The number of instructions that some bodies come from and of the lines of the bodies. -/
def lineCount (bodies : List Code) : Nat :=
  bodies.foldr (fun body n => 1 + body.lines.length + n) 0

theorem lineCount_append (bodies more : List Code) :
    lineCount (bodies ++ more) = lineCount bodies + lineCount more := by
  induction bodies with
  | nil => simp [lineCount]
  | cons body bodies ih =>
    change 1 + body.lines.length + lineCount (bodies ++ more) =
      1 + body.lines.length + lineCount bodies + lineCount more
    rw [ih]
    omega

namespace Sketch

def bodies (t : Sketch) : List Code := t.instructions.toList.map Instruction.inlined

theorem bodies_emit (t : Sketch) (i : Instruction) :
    (t.emit i).bodies = t.bodies ++ [i.inlined] := by
  simp [bodies]

theorem bodies_bind (t : Sketch) (n : Nat) : (t.bind n).bodies = t.bodies :=
  t.map_bind Instruction.inlined_aim n

/-- A call that brings no body appends an instruction that carries nothing, or none. -/
theorem bodies_of_draw {t t' : Sketch} {d : Directive} (h : d.draw t = .ok t')
    (hbody : ∀ body literals temporaries, d ≠ .emit (.createBlock body literals temporaries)) :
    t'.bodies = t.bodies ++ if d.emits then [[]] else [] := by
  cases d with
  | emit i =>
    obtain rfl := Except.ok.inj h
    have hempty : i.inlined = [] := by
      cases i with
      | createBlock body literals temporaries => exact absurd rfl (hbody body literals temporaries)
      | _ => rfl
    rw [bodies_emit, hempty]
    rfl
  | jumpForward kind =>
    obtain rfl := Except.ok.inj h
    exact t.bodies_emit (.jump kind 0)
  | bind k =>
    obtain rfl := Except.ok.inj h
    cases t.jumps[k]? with
    | none => exact (List.append_nil _).symm
    | some n => exact (t.bodies_bind n).trans (List.append_nil _).symm
  | jumpBack target =>
    rw [Directive.draw] at h
    cases ho : Assembly.distanceBack t.offset target with
    | error e =>
      rw [ho] at h
      cases h
    | ok o =>
      rw [ho] at h
      obtain rfl := Except.ok.inj h
      exact t.bodies_emit (.jump .always o)

variable {t : Sketch}

theorem listing_of_tidy (h : ∀ body ∈ t.bodies, body.Tidy) :
    t.code.listing = (layout 0 t.instructions.toList, ⟨t.code, t.code.length, none⟩) :=
  t.listing_code_of_short fun _ hi => (h _ (List.mem_map_of_mem hi)).short

theorem whole_of_tidy (h : ∀ body ∈ t.bodies, body.Tidy) {path : List Nat} {inner : Code}
    (hnests : t.code.Nests path inner) : inner.listing.2.error = none := by
  have hlisting := listing_of_tidy h
  cases hnests with
  | here => rw [hlisting]
  | @inside _ body _ offset literals temporaries path hmem hbody =>
    rw [hlisting] at hmem
    have hmem' := List.mem_map_of_mem (f := Prod.snd) hmem
    rw [map_snd_layout] at hmem'
    exact (h body (List.mem_map_of_mem hmem')).whole _ _ hbody

theorem length_lines_of_tidy (h : ∀ body ∈ t.bodies, body.Tidy) :
    t.code.lines.length = lineCount t.bodies := by
  obtain ⟨lines, hlines⟩ := Code.exists_outlines [] t.code 0
  obtain ⟨entries, last, error, hreads, hlength⟩ := hlines.length_eq
  obtain ⟨hentries, hlast⟩ := Prod.mk.inj (hreads.listing_eq.symm.trans (listing_of_tidy h))
  obtain ⟨-, -, rfl⟩ := Cursor.mk.inj hlast
  rw [Code.lines_eq hlines, List.length_map, hlength, lineCount, bodies, List.foldr_map,
    ← map_snd_layout 0 t.instructions.toList, ← hentries, List.foldr_map]
  rfl

end Sketch

/-- What has been built has a sketch whose bodies are tidy and make up the number. -/
theorem Assembler.Built.sketched {s : Assembler} {n : Nat} (h : s.Built n) :
    ∃ t : Sketch, t.Depicts s ∧ t.Labelled ∧ (∀ body ∈ t.bodies, body.Tidy) ∧
      lineCount t.bodies = n := by
  induction h with
  | start =>
    refine ⟨.empty, Sketch.empty_depicts, Sketch.labelled_empty, fun body hbody => ?_, rfl⟩
    cases hbody
  | @call s s' n d _ hbody hd ih =>
    obtain ⟨t, hdepicts, hlabelled, htidy, hcount⟩ := ih
    obtain ⟨t', ht', hdepicts'⟩ := (hd ▸ d.portrayed hdepicts hlabelled).of_ok_right
    refine ⟨t', hdepicts', (d.draw_extends hlabelled ht').labelled, ?_, ?_⟩
    · rw [Sketch.bodies_of_draw ht' hbody]
      intro body hmem
      rcases List.mem_append.mp hmem with hmem | hmem
      · exact htidy body hmem
      · split_ifs at hmem
        · rw [List.mem_singleton.mp hmem]
          exact Code.tidy_nil
        · cases hmem
    · rw [Sketch.bodies_of_draw ht' hbody, lineCount_append, hcount]
      split_ifs <;> rfl
  | @block s inner n k literals temporaries _ _ hshort ih ihinner =>
    obtain ⟨t, hdepicts, hlabelled, htidy, hcount⟩ := ih
    obtain ⟨u, hinner, -, htidy', hcount'⟩ := ihinner
    refine ⟨_, hdepicts.emit hlabelled _,
      (Extends.emit (d := .emit _) hlabelled rfl rfl rfl).labelled, ?_, ?_⟩
    · rw [Sketch.bodies_emit]
      intro body hmem
      rcases List.mem_append.mp hmem with hmem | hmem
      · exact htidy body hmem
      · rw [List.mem_singleton.mp hmem]
        refine ⟨hshort, fun path code hnests => ?_⟩
        rw [Instruction.inlined, hinner.code] at hnests
        exact Sketch.whole_of_tidy htidy' hnests
    · rw [Sketch.bodies_emit, lineCount_append, hcount]
      change n + (1 + inner.assembly.code.lines.length + 0) = n + 1 + k
      rw [hinner.code, Sketch.length_lines_of_tidy htidy', hcount']
      omega

end ObjectMachine

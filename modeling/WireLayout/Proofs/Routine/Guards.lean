import WireLayout.Proofs.Routine.Assignments

/-! Which presence bit a fact carries. The bit is that of the innermost condition around the assignment whose
first mask test is a presence test that stands for one bit. A presence test behind another test, a mask of
several bits, and the blocks around an `else` without braces are passed over, so a read that they guard is
recorded as unconditional. -/

namespace WireLayout.Text

variable {β : Type} {step : List Char → List Char → Option (β × List Char)}

/-- Each match stands somewhere in the text, by induction on the text. -/
theorem exists_of_mem_matchesFrom {skip : Nat} {before cs : List Char} {found : β}
    (h : found ∈ matchesFrom step skip before cs) :
    ∃ passed rest after, cs = passed ++ rest ∧ step (passed.reverse ++ before) rest = some (found, after) := by
  induction cs generalizing skip before with
  | nil => cases skip <;> exact absurd h List.not_mem_nil
  | cons c cs ih =>
    have hlater : ∀ {skip}, found ∈ matchesFrom step skip (c :: before) cs →
        ∃ passed rest after, c :: cs = passed ++ rest ∧
          step (passed.reverse ++ before) rest = some (found, after) := by
      intro skip hmem
      obtain ⟨passed, rest, after, rfl, hstep⟩ := ih hmem
      exact ⟨c :: passed, rest, after, rfl, by simpa using hstep⟩
    cases skip with
    | succ skip => exact hlater h
    | zero =>
      rw [matchesFrom] at h
      split at h
      · rename_i x rest hstep
        rcases List.mem_cons.1 h with rfl | h
        · exact ⟨[], c :: cs, rest, rfl, hstep⟩
        · exact hlater h
      · exact hlater h

end WireLayout.Text

namespace WireLayout.Routine

open WireLayout.Java WireLayout.Text

/-! The bit of a condition. -/

def MaskTest.bit? (test : MaskTest) : Option Nat := do
  let index ← test.index.elim (some 0) decimalWord?
  let mask ← (IntLiteral.read? test.mask).bind word?
  Reader.bitAt? index mask

/-- The index is below four, and the mask, moved to the octet of the index, is one bit within 32. -/
def MaskTest.HasBit (test : MaskTest) : Prop :=
  ∃ index mask, test.index.elim (some 0) decimalWord? = some index ∧
    (IntLiteral.read? test.mask).bind word? = some mask ∧
    index < 4 ∧ isPowerOfTwo ((mask <<< (8 * index)) % (maxWord + 1)) = true

theorem MaskTest.bit?_isSome_iff {test : MaskTest} : test.bit?.isSome = true ↔ test.HasBit := by
  have hbit : ∀ index mask, (Reader.bitAt? index mask).isSome = true ↔
      index < 4 ∧ isPowerOfTwo ((mask <<< (8 * index)) % (maxWord + 1)) = true := by
    intro index mask
    unfold Reader.bitAt?
    by_cases hi : index < 4
    · by_cases hp : isPowerOfTwo ((mask <<< (8 * index)) % (maxWord + 1)) = true <;> simp [hi, hp]
    · simp [hi]
  simp only [bit?, HasBit, Option.bind_eq_bind, Option.isSome_iff_exists, Option.bind_eq_some_iff] at hbit ⊢
  constructor
  · rintro ⟨bit, index, hindex, mask, hmask, hsome⟩
    exact ⟨index, mask, hindex, hmask, (hbit index mask).1 ⟨bit, hsome⟩⟩
  · rintro ⟨index, mask, hindex, hmask, h⟩
    obtain ⟨bit, hsome⟩ := (hbit index mask).2 h
    exact ⟨bit, index, hindex, mask, hmask, hsome⟩

namespace Reader

variable {r : Reader} {condition : List Char}

/-- Somewhere in the condition stands a test of a mask on a variable with presence bits. -/
def TestsFlags (r : Reader) (condition : List Char) : Prop :=
  ∃ passed rest test after, condition = passed ++ rest ∧
    maskTest? passed.reverse rest = some (test, after) ∧ r.isFlags test.variableName = true

/-- The first test of a mask in the condition is on a variable with presence bits and stands for one bit. -/
def TestsBit (r : Reader) (condition : List Char) : Prop :=
  ∃ test, maskTest condition = some test ∧ r.isFlags test.variableName = true ∧ test.HasBit

theorem guard?_eq : r.guard? condition =
    (maskTest condition).bind fun test => if r.isFlags test.variableName then test.bit? else none := by
  unfold guard?
  cases maskTest condition with
  | none => rfl
  | some test =>
    cases hf : r.isFlags test.variableName with
    | false => simp [hf]
    | true => cases hi : test.index <;> simp [hf, hi, MaskTest.bit?]

theorem guard?_isSome_iff : (r.guard? condition).isSome = true ↔ r.TestsBit condition := by
  rw [guard?_eq, TestsBit]
  cases maskTest condition with
  | none => simp
  | some test => cases hf : r.isFlags test.variableName <;> simp [hf, MaskTest.bit?_isSome_iff]

theorem testsFlags_of_testsBit (h : r.TestsBit condition) : r.TestsFlags condition := by
  obtain ⟨test, hfirst, hflags, -⟩ := h
  obtain ⟨passed, rest, after, hcondition, htest⟩ :=
    exists_of_mem_matchesFrom (List.mem_of_mem_head? hfirst)
  rw [List.append_nil] at htest
  exact ⟨passed, rest, test, after, hcondition, htest, hflags⟩

end Reader

/-! The blocks around a statement. -/

/-- A block that is open, with the steps before it. -/
structure Block where
  before : List Step
  header : List Char
  deriving DecidableEq, Repr

/-- The blocks that stay open, the innermost first. `passed` are the steps so far and `blocks` the blocks that
are open after them. -/
def openFrom (passed : List Step) (blocks : List Block) : List Step → List Block
  | [] => blocks
  | .enter header :: rest => openFrom (passed ++ [.enter header]) (⟨passed, header⟩ :: blocks) rest
  | .leave :: rest => openFrom (passed ++ [.leave]) blocks.tail rest
  | .execute text :: rest => openFrom (passed ++ [.execute text]) blocks rest

def Block.guard? (start : Reader) (block : Block) : Option Nat := (start.after block.before).guard? block.header

/-- The guards after steps are those of the blocks that are open, by induction on the steps. -/
theorem guards_run (start : Reader) (passed : List Step) (blocks : List Block) (steps : List Step)
    (h : ((Walker.mk start []).run passed).guards = blocks.map (Block.guard? start)) :
    ((Walker.mk start []).run (passed ++ steps)).guards =
      (openFrom passed blocks steps).map (Block.guard? start) := by
  induction steps generalizing passed blocks with
  | nil => simpa [openFrom] using h
  | cons s rest ih =>
    rw [← List.singleton_append, ← List.append_assoc]
    cases s with
    | enter header =>
      refine ih _ (⟨passed, header⟩ :: blocks) ?_
      rw [Walker.run_append, Walker.run_cons, Walker.run_nil, Walker.step, h]
      rfl
    | leave =>
      refine ih _ blocks.tail ?_
      rw [Walker.run_append, Walker.run_cons, Walker.run_nil, Walker.step, h, List.map_tail]
    | execute text =>
      refine ih _ blocks ?_
      rw [Walker.run_append, Walker.run_cons, Walker.run_nil, Walker.step, h]

/-! The conditions around an assignment. -/

structure Condition where
  reader : Reader
  text : List Char
  deriving DecidableEq

namespace Assignment

variable {b : Bundle} (a : Assignment b)

def own : List Condition := a.statement.condition.toList.map (⟨a.reader, ·⟩)

/-- The headers of the blocks around the statement, the innermost first. -/
def outer : List Condition :=
  (openFrom [] [] a.before).map fun block => ⟨a.start.after block.before, block.header⟩

/-- The conditions that are looked at: an `else` without braces hides the blocks around it. -/
def seen : List Condition := if a.statement.afterElse then a.own else a.own ++ a.outer

theorem guards_eq : a.guards = a.outer.map fun c => c.reader.guard? c.text := by
  rw [guards, outer, List.map_map]
  exact guards_run a.start [] [] a.before rfl

/-- The bit comes from the innermost condition that has one. -/
theorem nullBit_eq : a.nullBit = a.seen.findSome? fun c => c.reader.guard? c.text := by
  have houter : Reader.innermost a.guards = a.outer.findSome? fun c => c.reader.guard? c.text := by
    rw [Reader.innermost, guards_eq, List.findSome?_map]
    rfl
  have hown : a.statement.condition.bind a.reader.guard? = a.own.findSome? fun c => c.reader.guard? c.text := by
    rw [own]
    cases a.statement.condition <;> simp
  rw [nullBit, Statement.guardUnder, houter, hown, seen]
  cases a.statement.afterElse <;> simp [List.findSome?_append]

theorem nullBit_isSome_iff : a.nullBit.isSome = true ↔ ∃ c ∈ a.seen, c.reader.TestsBit c.text := by
  rw [nullBit_eq, List.findSome?_isSome_iff]
  simp only [Reader.guard?_isSome_iff]

theorem mem_of_mem_seen {c : Condition} (h : c ∈ a.seen) : c ∈ a.own ++ a.outer := by
  unfold seen at h
  split at h
  · exact List.mem_append_left _ h
  · exact h

end Assignment

/-- A recorded fact carries a bit exactly when one of the conditions that are looked at has a presence test of a
single bit as its first mask test; then some condition around the assignment does test flags. -/
theorem record_nullBit_isSome_iff {b : Bundle} {s : Scan} (h : scan b = .ok s) :
    (∀ f ∈ s.facts, ∃ (a : Assignment b) (fact : Fact) (bounds : List Nat),
        a.fact? = some fact ∧ f = fact.layout bounds) ∧
      ∀ (a : Assignment b) (fact : Fact), a.fact? = some fact →
        (∃ bounds, fact.layout bounds ∈ s.facts) ∧
          (fact.nullBit.isSome = true ↔ ∃ c ∈ a.seen, c.reader.TestsBit c.text) ∧
          (fact.nullBit.isSome = true → ∃ c ∈ a.own ++ a.outer, c.reader.TestsFlags c.text) := by
  refine ⟨fun f hf => exists_assignment_of_mem_scan h hf, ?_⟩
  intro a fact hfact
  obtain rfl : _ = s := Except.ok.inj (a.scan_final.symm.trans h)
  have hbit : fact.nullBit = a.nullBit := by
    obtain ⟨reading, -, rfl⟩ := Option.map_eq_some_iff.1 hfact
    rfl
  rw [hbit, a.nullBit_isSome_iff]
  refine ⟨⟨_, a.layout_mem_scan hfact⟩, Iff.rfl, ?_⟩
  rintro ⟨c, hc, htest⟩
  exact ⟨c, a.mem_of_mem_seen hc, Reader.testsFlags_of_testsBit htest⟩

/-! A routine with guards that are lost, and one that is kept. -/

namespace LostGuards

def bundle : Bundle := .ofRoutine ["a", "b", "c", "d"] <|
  "static T deserialize(B buf, int offset) \x7b byte nullBits = buf.getByte(offset); " ++
    "if ((nullBits & 3) != 0) \x7b o.a = buf.getIntLE(offset + 1); \x7d " ++
    "if ((x & 1) != 0 && (nullBits & 2) != 0) o.b = buf.getIntLE(offset + 5); " ++
    "if ((nullBits & 4) != 0) \x7b if (x) o.y(); else o.c = buf.getIntLE(offset + 9); " ++
    "if (x) o.d = buf.getIntLE(offset + 13); \x7d \x7d"

def start : Reader := { offsetName := "offset".toList, declared := ["a", "b", "c", "d"] }

def steps : List Step := [
  .execute "byte nullBits = buf.getByte(offset)".toList,
  .enter "if ((nullBits & 3) != 0)".toList,
  .execute "o.a = buf.getIntLE(offset + 1)".toList,
  .leave,
  .execute "if ((x & 1) != 0 && (nullBits & 2) != 0) o.b = buf.getIntLE(offset + 5)".toList,
  .enter "if ((nullBits & 4) != 0)".toList,
  .execute "if (x) o.y()".toList,
  .execute "else o.c = buf.getIntLE(offset + 9)".toList,
  .execute "if (x) o.d = buf.getIntLE(offset + 13)".toList,
  .leave]

theorem trace_bundle : trace? bundle = .ok (some (start, steps)) := by
  unfold trace? bundle Bundle.ofRoutine
  simp only [String.toList_append, String.reduceToList]
  decide +kernel

def a : Assignment bundle where
  start := start
  before := steps.take 2
  text := "o.a = buf.getIntLE(offset + 1)".toList
  after := steps.drop 3
  statement := ⟨false, none, "o.a = buf.getIntLE(offset + 1)".toList⟩
  field := "a"
  value := "buf.getIntLE(offset + 1)".toList
  trace := trace_bundle
  parsed := by decide +kernel
  assigns := by decide +kernel
  declared := by decide
  first := by decide +kernel

def b : Assignment bundle where
  start := start
  before := steps.take 4
  text := "if ((x & 1) != 0 && (nullBits & 2) != 0) o.b = buf.getIntLE(offset + 5)".toList
  after := steps.drop 5
  statement := ⟨false, some "((x & 1) != 0 && (nullBits & 2) != 0)".toList, "o.b = buf.getIntLE(offset + 5)".toList⟩
  field := "b"
  value := "buf.getIntLE(offset + 5)".toList
  trace := trace_bundle
  parsed := by decide +kernel
  assigns := by decide +kernel
  declared := by decide
  first := by decide +kernel

def c : Assignment bundle where
  start := start
  before := steps.take 7
  text := "else o.c = buf.getIntLE(offset + 9)".toList
  after := steps.drop 8
  statement := ⟨true, none, "o.c = buf.getIntLE(offset + 9)".toList⟩
  field := "c"
  value := "buf.getIntLE(offset + 9)".toList
  trace := trace_bundle
  parsed := by decide +kernel
  assigns := by decide +kernel
  declared := by decide
  first := by decide +kernel

def d : Assignment bundle where
  start := start
  before := steps.take 8
  text := "if (x) o.d = buf.getIntLE(offset + 13)".toList
  after := steps.drop 9
  statement := ⟨false, some "(x)".toList, "o.d = buf.getIntLE(offset + 13)".toList⟩
  field := "d"
  value := "buf.getIntLE(offset + 13)".toList
  trace := trace_bundle
  parsed := by decide +kernel
  assigns := by decide +kernel
  declared := by decide
  first := by decide +kernel

def unconditional (name : String) (offset : Nat) : FieldLayout :=
  ⟨name, .fixed offset, .fixed 4, .i32le, false, none, none, .verified⟩

end LostGuards

/-- The guard of a block reaches an assignment under a condition of its own that tests no flags. -/
theorem record_nullBit_isSome_iff_lostGuards :
    (∃ s, scan LostGuards.bundle = .ok s ∧
        ∃ bounds, Fact.layout bounds ⟨"d", .fixed 13 .i32le (some 4), some 4⟩ ∈ s.facts) ∧
      ∃ c ∈ LostGuards.d.seen, c.reader.TestsBit c.text := by
  have hfact : LostGuards.d.fact? = some ⟨"d", .fixed 13 .i32le (some 4), some 4⟩ := by decide +kernel
  obtain ⟨hmem, hiff, -⟩ := (record_nullBit_isSome_iff LostGuards.d.scan_final).2 _ _ hfact
  exact ⟨⟨_, LostGuards.d.scan_final, hmem⟩, hiff.1 rfl⟩

/-- Guarded reads that are recorded without a bit: a mask of two bits, a presence test behind another test, and
an `else` without braces inside a guarded block. -/
theorem unconditional_reads_lostGuards :
    (∃ c ∈ LostGuards.a.outer, c.reader.TestsFlags c.text) ∧
      (∃ c ∈ LostGuards.b.own, c.reader.TestsFlags c.text) ∧
      (∃ c ∈ LostGuards.c.outer, c.reader.TestsFlags c.text) ∧
      ∃ s, scan LostGuards.bundle = .ok s ∧ LostGuards.unconditional "a" 1 ∈ s.facts ∧
        LostGuards.unconditional "b" 5 ∈ s.facts ∧ LostGuards.unconditional "c" 9 ∈ s.facts := by
  refine ⟨⟨_, List.mem_cons_self, ?_⟩, ⟨_, List.mem_cons_self, ?_⟩, ⟨_, List.mem_cons_self, ?_⟩,
    _, scan_of_trace LostGuards.trace_bundle, ?_, ?_, ?_⟩
  · exact ⟨"if ((".toList, "nullBits & 3) != 0)".toList, ⟨"nullBits", none, "3".toList⟩, ")".toList,
      by decide +kernel, by decide +kernel, by decide +kernel⟩
  · exact ⟨"((x & 1) != 0 && (".toList, "nullBits & 2) != 0)".toList, ⟨"nullBits", none, "2".toList⟩,
      ")".toList, by decide +kernel, by decide +kernel, by decide +kernel⟩
  · exact ⟨"if ((".toList, "nullBits & 4) != 0)".toList, ⟨"nullBits", none, "4".toList⟩, ")".toList,
      by decide +kernel, by decide +kernel, by decide +kernel⟩
  all_goals exact (wireOrder_perm _ _).mem_iff.2 (by decide +kernel)

end WireLayout.Routine

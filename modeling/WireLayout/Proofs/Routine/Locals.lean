import WireLayout.Proofs.Routine.Assignments

/-! Which read of a local ends up behind a field. A local keeps the read of its last declaration in a
recognised form: a declaration in another form and a plain assignment leave that read in force. So a field
that is assigned a local gets what the last write to the local reads exactly when that write is a recognised
declaration, or when the read in force happens to be the same. -/

namespace WireLayout.Routine

open WireLayout.Java WireLayout.Text

/-! What a statement writes to a local. -/

def reassignment? (statement : List Char) : Option (String × List Char) := do
  let (name, rest) ← run? isWordOrDollar statement
  some (String.ofList name, trim isSpace (← assigned? rest))

/-- A write to a local: how its value is read off the wire, if in a recognised form, and whether the write
declares the local. -/
structure Write where
  name : String
  reading : Option Reading
  declares : Bool
  deriving DecidableEq, Repr

/-- The write that a statement makes. An offset pointer is a place, so declaring one reads no value. -/
def Reader.write? (r : Reader) (body : List Char) : Option Write :=
  match r.pointer? body with
  | some (name, _) => some ⟨name, none, true⟩
  | none => match memberAssignment? body with
  | some _ => none
  | none => match localDeclaration? body with
  | some (name, value) => some ⟨name, r.scope.reading? value, true⟩
  | none => (reassignment? body).map fun (name, value) => ⟨name, r.scope.reading? value, false⟩

/-- The read that a write leaves in force for a local. -/
def Write.kept (name : String) (w : Write) : Option Reading :=
  if w.declares && w.name = name then w.reading else none

/-- The read that writes leave in force for a local: that of the last recognised declaration. -/
def inForce (name : String) (writes : List Write) : Option Reading :=
  (writes.filterMap (Write.kept name)).getLast?

theorem inForce_append_singleton (name : String) (writes : List Write) (w : Write) :
    inForce name (writes ++ [w]) = (w.kept name).or (inForce name writes) := by
  unfold inForce
  rw [List.filterMap_append, List.getLast?_append]
  cases h : w.kept name <;> simp [h]

theorem inForce_cons (name : String) (w : Write) (writes : List Write) :
    inForce name (w :: writes) = (inForce name writes).or (w.kept name) := by
  unfold inForce
  rw [← List.singleton_append, List.filterMap_append, List.getLast?_append]
  cases h : w.kept name <;> simp [h]

theorem inForce_filter (name : String) (writes : List Write) :
    inForce name (writes.filter (·.name = name)) = inForce name writes := by
  unfold inForce
  rw [List.filterMap_filter]
  congr 2
  funext w
  unfold Write.kept
  by_cases h : w.name = name <;> simp [h]

/-- The read in force after the last write to a local is what that write reads exactly when the write is a
recognised declaration, or reads what was in force before. -/
theorem inForce_eq_reading_iff {name : String} {earlier : List Write} {last : Write} (h : last.name = name) :
    inForce name (earlier ++ [last]) = last.reading ↔
      (last.declares = true ∧ last.reading.isSome = true) ∨ inForce name earlier = last.reading := by
  rw [inForce_append_singleton, Write.kept]
  cases hd : last.declares <;> cases hr : last.reading <;> simp [h]

/-! What a statement does to the locals. -/

namespace Reader

theorem lookup_declareLocal (r : Reader) (declared name : String) (value : List Char) :
    (r.declareLocal declared value).locals.lookup name.toList =
      (Write.kept name ⟨declared, r.scope.reading? value, true⟩).or (r.locals.lookup name.toList) := by
  unfold declareLocal Write.kept
  cases hr : r.scope.reading? value with
  | none => simp
  | some reading =>
    by_cases hn : declared = name
    · simp [hn]
    · have hne : (name.toList == declared.toList) = false := by
        simpa [String.toList_inj] using Ne.symm hn
      simp [hn, List.lookup_cons, hne]

theorem lookup_assign (r : Reader) (member : String) (value : List Char) (nullBit : Option Nat)
    (name : List Char) : (r.assign member value nullBit).locals.lookup name = r.locals.lookup name := by
  unfold assign
  split
  · split <;> rfl
  · rfl

/-- After a statement a local has the read that the statement leaves in force, else the one it had. -/
theorem lookup_simpleStatement (r : Reader) (nullBit : Option Nat) (body : List Char) (name : String) :
    (r.simpleStatement nullBit body).locals.lookup name.toList =
      ((r.write? body).bind (Write.kept name)).or (r.locals.lookup name.toList) := by
  unfold simpleStatement write?
  cases body with
  | nil => rfl
  | cons c body =>
    rw [if_neg (by simp)]
    cases r.pointer? (c :: body) with
    | some p => simp [Write.kept]
    | none =>
      cases memberAssignment? (c :: body) with
      | some p => simpa using lookup_assign r p.1 p.2 nullBit name.toList
      | none =>
        cases localDeclaration? (c :: body) with
        | some p => simpa using lookup_declareLocal r p.1 name p.2
        | none =>
          cases reassignment? (c :: body) with
          | none => simp
          | some p => simp [Write.kept]

def stepWrite? (r : Reader) : Step → Option Write
  | .execute text => (Statement.parse? text).bind fun st => r.write? st.body
  | _ => none

end Reader

namespace Walker

def writes (w : Walker) : List Step → List Write
  | [] => []
  | s :: rest => (w.reader.stepWrite? s).toList ++ (w.step s).writes rest

theorem lookup_step (w : Walker) (s : Step) (name : String) :
    (w.step s).reader.locals.lookup name.toList =
      ((w.reader.stepWrite? s).bind (Write.kept name)).or (w.reader.locals.lookup name.toList) := by
  cases s with
  | enter header => rfl
  | leave => rfl
  | execute text =>
    simp only [step, Reader.stepWrite?, Reader.statement]
    cases Statement.parse? text with
    | none => rfl
    | some st => exact Reader.lookup_simpleStatement _ _ _ _

/-- A local has the read of its last recognised declaration, by induction on the steps. -/
theorem lookup_run (w : Walker) (steps : List Step) (name : String) :
    (w.run steps).reader.locals.lookup name.toList =
      (inForce name (w.writes steps)).or (w.reader.locals.lookup name.toList) := by
  induction steps generalizing w with
  | nil => rfl
  | cons s rest ih =>
    rw [run_cons, ih, lookup_step, writes, ← Option.or_assoc]
    congr 1
    cases w.reader.stepWrite? s with
    | none => simp
    | some write => simp [inForce_cons]

end Walker

/-! What a field gets from a local. -/

/-- An assignment of a bare name. -/
structure LocalAssignment (b : Bundle) extends Assignment b where
  name : String
  named : value = name.toList
  word : ∀ c ∈ name.toList, isWordOrDollar c = true

namespace LocalAssignment

variable {b : Bundle} (a : LocalAssignment b)

def writes : List Write := ((Walker.mk a.start []).writes a.before).filter (·.name = a.name)

theorem valueReading?_reader : a.reader.valueReading? a.value = inForce a.name a.writes := by
  obtain ⟨offsetName, hstart⟩ := start_of_trace a.trace
  have hlookup : a.reader.locals.lookup a.name.toList = inForce a.name a.writes := by
    rw [Assignment.reader, Reader.after, Walker.lookup_run, writes, inForce_filter, hstart]
    simp
  rw [Reader.valueReading?, a.named, hlookup, Scope.reading?_word _ a.word]
  simp

theorem fact?_eq : a.fact? = (inForce a.name a.writes).map (⟨a.field, ·, a.nullBit⟩) := by
  rw [Assignment.fact?, valueReading?_reader]

end LocalAssignment

/-- A field that is assigned a local gets the read of the last recognised declaration of the local, and the
statement adds no fact when there is none. So the read is what the last write to the local reads exactly when
that write is a recognised declaration or reads the same as was in force before it. -/
theorem field_read_of_last_declaration {b : Bundle} (a : LocalAssignment b) :
    a.reader'.facts =
        a.reader.facts ++ ((inForce a.name a.writes).map (⟨a.field, ·, a.nullBit⟩)).toList ∧
      (∃ s bounds, scan b = .ok s ∧ ∀ reading, inForce a.name a.writes = some reading →
        Fact.layout bounds ⟨a.field, reading, a.nullBit⟩ ∈ s.facts) ∧
      ∀ earlier last, a.writes = earlier ++ [last] →
        (inForce a.name a.writes = last.reading ↔
          (last.declares = true ∧ last.reading.isSome = true) ∨ inForce a.name earlier = last.reading) := by
  refine ⟨?_, ⟨_, a.final.bounds b, a.scan_final, ?_⟩, ?_⟩
  · rw [a.facts_reader', a.fact?_eq]
  · intro reading hreading
    apply a.layout_mem_scan
    rw [a.fact?_eq, hreading]
    rfl
  · intro earlier last hwrites
    have hname : last.name = a.name := by
      have hmem : last ∈ a.writes := by simp [hwrites]
      simpa using (List.mem_filter.1 hmem).2
    rw [hwrites]
    exact inForce_eq_reading_iff hname

/-! A routine that uses its locals again: a redeclaration in a form that is not recognised, a plain assignment,
and a redeclaration that is recognised. -/

namespace Reuse

def bundle : Bundle := .ofRoutine ["f", "g", "h"] <|
  "static T deserialize(B buf, int offset) \x7b if (x) \x7b int v = buf.getIntLE(offset + 4); \x7d " ++
    "int v = count(buf); o.f = v; " ++
    "int w = buf.getIntLE(offset + 8); w = buf.getIntLE(offset + 12); o.g = w; " ++
    "short w = buf.getShortLE(offset + 16); if (x) o.h = w; \x7d"

def start : Reader := { offsetName := "offset".toList, declared := ["f", "g", "h"] }

def steps : List Step := [
  .enter "if (x)".toList,
  .execute "int v = buf.getIntLE(offset + 4)".toList,
  .leave,
  .execute "int v = count(buf)".toList,
  .execute "o.f = v".toList,
  .execute "int w = buf.getIntLE(offset + 8)".toList,
  .execute "w = buf.getIntLE(offset + 12)".toList,
  .execute "o.g = w".toList,
  .execute "short w = buf.getShortLE(offset + 16)".toList,
  .execute "if (x) o.h = w".toList]

theorem trace_bundle : trace? bundle = .ok (some (start, steps)) := by
  unfold trace? bundle Bundle.ofRoutine
  simp only [String.toList_append, String.reduceToList]
  decide +kernel

def f : LocalAssignment bundle where
  start := start
  before := steps.take 4
  text := "o.f = v".toList
  after := steps.drop 5
  statement := ⟨false, none, "o.f = v".toList⟩
  field := "f"
  value := "v".toList
  trace := trace_bundle
  parsed := by decide +kernel
  assigns := by decide +kernel
  declared := by decide
  first := by decide +kernel
  name := "v"
  named := rfl
  word := words_of_all rfl

def g : LocalAssignment bundle where
  start := start
  before := steps.take 7
  text := "o.g = w".toList
  after := steps.drop 8
  statement := ⟨false, none, "o.g = w".toList⟩
  field := "g"
  value := "w".toList
  trace := trace_bundle
  parsed := by decide +kernel
  assigns := by decide +kernel
  declared := by decide
  first := by decide +kernel
  name := "w"
  named := rfl
  word := words_of_all rfl

def h : LocalAssignment bundle where
  start := start
  before := steps.take 9
  text := "if (x) o.h = w".toList
  after := []
  statement := ⟨false, some "(x)".toList, "o.h = w".toList⟩
  field := "h"
  value := "w".toList
  trace := trace_bundle
  parsed := by decide +kernel
  assigns := by decide +kernel
  declared := by decide
  first := by decide +kernel
  name := "w"
  named := rfl
  word := words_of_all rfl

end Reuse

/-- The last of three writes is a recognised declaration, and the field gets its read. -/
theorem field_read_of_last_declaration_reuse :
    Reuse.h.writes = [⟨"w", some (.fixed 8 .i32le (some 4)), true⟩,
        ⟨"w", some (.fixed 12 .i32le (some 4)), false⟩, ⟨"w", some (.fixed 16 .i16le (some 2)), true⟩] ∧
      ∃ s bounds, scan Reuse.bundle = .ok s ∧
        Fact.layout bounds ⟨"h", .fixed 16 .i16le (some 2), none⟩ ∈ s.facts := by
  obtain ⟨-, ⟨s, bounds, hs, hmem⟩, -⟩ := field_read_of_last_declaration Reuse.h
  exact ⟨by decide +kernel, s, bounds, hs, hmem _ (by decide +kernel)⟩

/-- Stale reads: the last write to `v` reads nothing and the last write to `w` reads at 12, and still the fields
get what was declared before. -/
theorem stale_reads_reuse :
    Reuse.f.writes = [⟨"v", some (.fixed 4 .i32le (some 4)), true⟩, ⟨"v", none, true⟩] ∧
      Reuse.g.writes = [⟨"w", some (.fixed 8 .i32le (some 4)), true⟩,
        ⟨"w", some (.fixed 12 .i32le (some 4)), false⟩] ∧
      ∃ s, scan Reuse.bundle = .ok s ∧
        (⟨"f", .fixed 4, .fixed 4, .i32le, false, none, none, .verified⟩ : FieldLayout) ∈ s.facts ∧
        (⟨"g", .fixed 8, .fixed 4, .i32le, false, none, none, .verified⟩ : FieldLayout) ∈ s.facts := by
  refine ⟨by decide +kernel, by decide +kernel, _, scan_of_trace Reuse.trace_bundle, ?_, ?_⟩
  all_goals exact (wireOrder_perm _ _).mem_iff.2 (by decide +kernel)

end WireLayout.Routine

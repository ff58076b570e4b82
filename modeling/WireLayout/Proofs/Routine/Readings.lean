import WireLayout.Proofs.Layout.Encoding
import WireLayout.Proofs.Routine.Steps

/-! What the reads of a routine have in common. A reading comes from an expression only, directly or through a
local, so what holds of the reading of every expression holds of every fact of a scan. One such property
is that the size of a read is the width of its encoding, so that of a nested value it is left open, and that the
position and the length are numbers of 32 bits. -/

namespace WireLayout.Routine

open WireLayout.Java WireLayout.Text

/-- The expressions of a routine are read so. -/
def OfExpressions (P : Reading → Prop) : Prop :=
  ∀ (scope : Scope) (expression : List Char) (reading : Reading),
    scope.reading? expression = some reading → P reading

/-- What has been read so far is so, behind the locals and in the facts. -/
structure Reader.Reads (P : Reading → Prop) (r : Reader) : Prop where
  locals : ∀ p ∈ r.locals, P p.2
  facts : ∀ f ∈ r.facts, P f.reading

section

variable {P : Reading → Prop} {r : Reader}

namespace Reader

theorem of_valueReading? (hP : OfExpressions P) (h : r.Reads P) {value : List Char} {reading : Reading}
    (hv : r.valueReading? value = some reading) : P reading := by
  rcases (Option.orElse_eq_some ..).1 hv with hlocal | ⟨-, hread⟩
  · obtain ⟨before, after, hlocals, -⟩ := List.lookup_eq_some_iff.1 hlocal
    exact h.locals (value, reading) (by simp [hlocals])
  · exact hP _ _ _ hread

theorem reads_assign (hP : OfExpressions P) (h : r.Reads P) (member : String) (value : List Char)
    (nullBit : Option Nat) : (r.assign member value nullBit).Reads P := by
  unfold assign
  split
  · split
    · rename_i reading hreading
      refine ⟨h.locals, ?_⟩
      rw [List.forall_mem_append, List.forall_mem_singleton]
      exact ⟨h.facts, of_valueReading? hP h hreading⟩
    · exact h
  · exact h

theorem reads_declareLocal (hP : OfExpressions P) (h : r.Reads P) (name : String) (value : List Char) :
    (r.declareLocal name value).Reads P := by
  unfold declareLocal
  split
  · rename_i reading hreading
    exact ⟨List.forall_mem_cons.2 ⟨hP _ _ _ hreading, h.locals⟩, h.facts⟩
  · exact h

theorem reads_simpleStatement (hP : OfExpressions P) (h : r.Reads P) (nullBit : Option Nat)
    (body : List Char) : (r.simpleStatement nullBit body).Reads P := by
  unfold simpleStatement
  split
  · exact h
  · split
    · exact ⟨h.locals, h.facts⟩
    · split
      · exact reads_assign hP h _ _ _
      · split
        · exact reads_declareLocal hP h _ _
        · exact h

end Reader

end

/-- A property of readers that holds before a routine and that its statements keep. -/
structure Reader.Kept (I : Reader → Prop) : Prop where
  start : ∀ offsetName declared, I { offsetName, declared }
  statement : ∀ r nullBit body, I r → I (r.simpleStatement nullBit body)

theorem Reader.kept_reads {P : Reading → Prop} (hP : OfExpressions P) : Kept (Reads P) where
  start _ _ := ⟨by simp, by simp⟩
  statement _ nullBit body h := reads_simpleStatement hP h nullBit body

section

variable {I : Reader → Prop} {w : Walker}

theorem Walker.kept_step (hI : Reader.Kept I) (h : I w.reader) (s : Step) : I (w.step s).reader := by
  cases s with
  | enter header => exact h
  | leave => exact h
  | execute text =>
    simp only [step, Reader.statement]
    cases Statement.parse? text with
    | none => exact h
    | some st => exact hI.statement _ _ _ h

theorem Walker.kept_run (hI : Reader.Kept I) (h : I w.reader) (steps : List Step) : I (w.run steps).reader := by
  induction steps generalizing w with
  | nil => exact h
  | cons s rest ih => exact ih (kept_step hI h s)

end

/-- Every scan is what a reader has, and of the reader everything holds that the statements of a routine keep. -/
theorem exists_scanned_of_scan {b : Bundle} {s : Scan} (h : scan b = .ok s) :
    ∃ r : Reader, (∀ I, Reader.Kept I → I r) ∧ s.facts = wireOrder (r.bounds b) r.facts ∧
      s.pointers = r.pointers := by
  unfold scan at h
  obtain ⟨found, htrace, rfl⟩ := Except.map_eq_ok_iff.1 h
  cases found with
  | none => exact ⟨{ offsetName := [], declared := b.fieldNames }, fun I hI => hI.start _ _, by simp [wireOrder], rfl⟩
  | some p =>
    obtain ⟨start, steps⟩ := p
    obtain ⟨offsetName, rfl⟩ := start_of_trace htrace
    exact ⟨_, fun I hI => Walker.kept_run hI (hI.start offsetName b.fieldNames) steps, rfl, rfl⟩

/-! Measures. -/

def Reading.encoding : Reading → Encoding
  | fixed _ encoding _ => encoding
  | varying encoding _ _ => encoding

def Reading.size? : Reading → Option Nat
  | fixed _ _ size => size
  | varying _ size _ => size

/-- A read gives the width of its encoding as its size, and its numbers are of 32 bits. -/
structure Reading.Measured (reading : Reading) : Prop where
  size : reading.size? = reading.encoding.fixedSize?
  length : ∀ n ∈ reading.encoding.number?, n ≤ maxWord
  position : ∀ offset encoding size, reading = .fixed offset encoding size → offset ≤ maxWord

section

variable {encoding : Encoding} (hlength : ∀ n ∈ encoding.number?, n ≤ maxWord)

include hlength

theorem Reading.measured_varying (slot : Option Nat) : (varying encoding encoding.fixedSize? slot).Measured :=
  ⟨rfl, hlength, nofun⟩

theorem Reading.measured_fixed {offset : Nat} (ho : offset ≤ maxWord) :
    (fixed offset encoding encoding.fixedSize?).Measured := by
  refine ⟨rfl, hlength, ?_⟩
  rintro _ _ _ ⟨⟩
  exact ho

end

namespace Scope

open Reading

variable (scope : Scope)

theorem position?_le {argument : List Char} {offset : Nat} (h : scope.position? argument = some offset) :
    offset ≤ maxWord := by
  unfold position? at h
  dsimp only at h
  split at h
  · obtain rfl := Option.some.inj h
    exact Nat.zero_le _
  · simp only [Option.bind_eq_bind, Option.bind_eq_some_iff] at h
    obtain ⟨parts, -, -, -, number, -, hword⟩ := h
    exact (word?_eq_some_iff.1 hword).2

theorem measured_sized {encoding : Encoding} (hlength : ∀ n ∈ encoding.number?, n ≤ maxWord) (call : Call) :
    (scope.sized call encoding encoding.fixedSize?).Measured := by
  unfold sized
  dsimp only
  split
  · rename_i offset hoffset
    exact measured_fixed hlength (scope.position?_le hoffset)
  · exact measured_varying hlength _

/-- Whatever the primitive, it has a width of its own, by induction on the primitives that are tried. -/
theorem measured_primitiveFrom {expression : List Char} {reading : Reading} {tried : List (String × Encoding)}
    (hp : ∀ p ∈ tried, p.2.number? = none) (h : scope.primitiveFrom expression tried = some reading) :
    reading.Measured := by
  induction tried with
  | nil => cases h
  | cons p rest ih =>
    rw [List.forall_mem_cons] at hp
    unfold primitiveFrom at h
    split at h
    · exact ih hp.2 h
    · simp only [Option.bind_eq_bind, Option.bind_eq_some_iff] at h
      obtain ⟨argument, -, offset, hoffset, h⟩ := h
      obtain rfl := Option.some.inj h
      apply measured_fixed _ (scope.position?_le hoffset)
      split
      · exact Encoding.words_of_number?_eq_none rfl
      · exact Encoding.words_of_number?_eq_none hp.1

theorem measured_primitive? {expression : List Char} {reading : Reading}
    (h : scope.primitive? expression = some reading) : reading.Measured :=
  scope.measured_primitiveFrom (by decide) h

theorem measured_enumReading? {call : Call} {reading : Reading} (h : scope.enumReading? call = some reading) :
    reading.Measured := by
  simp only [enumReading?, Option.bind_eq_bind, Option.bind_eq_some_iff] at h
  obtain ⟨found, ⟨argument, -, hprimitive⟩, h⟩ := h
  have hfound := scope.measured_primitive? hprimitive
  split at h
  · rename_i offset size
    obtain rfl := Option.some.inj h
    -- an unsigned octet is as wide as a signed one
    obtain rfl : size = some 1 := hfound.size
    exact measured_fixed (Encoding.words_of_number?_eq_none rfl) (hfound.position _ _ _ rfl)
  · obtain rfl := Option.some.inj h
    exact hfound

theorem measured_varIntReading (call : Call) : (scope.varIntReading call).Measured := by
  unfold varIntReading
  split
  · rename_i offset hoffset
    obtain ⟨argument, -, hposition⟩ := Option.bind_eq_some_iff.1 hoffset
    exact measured_fixed (Encoding.words_of_number?_eq_none rfl) (scope.position?_le hposition)
  · exact measured_varying (Encoding.words_of_number?_eq_none rfl) _

/-- Only UUIDs and nested values are read at a position of their own. -/
theorem sized_of_form {expression : List Char} {call : Call} {encoding : Encoding} {size : Option Nat}
    (h : form expression = .sized call encoding size) :
    encoding = .uuid ∧ size = some 16 ∨ encoding = .nested ∧ size = none := by
  unfold form at h
  repeat' split at h
  all_goals cases h
  · exact .inl ⟨rfl, rfl⟩
  · exact .inr ⟨rfl, rfl⟩

end Scope

/-- Every read is measured: a length and a position come from literals of 32 bits, and what is left without a size is
of an encoding without a width. -/
theorem measured_ofExpressions : OfExpressions Reading.Measured := by
  intro scope expression reading h
  unfold Scope.reading? at h
  split at h
  · obtain rfl := Option.some.inj h
    exact Reading.measured_varying (Encoding.words_of_number?_eq_none rfl) _
  · obtain rfl := Option.some.inj h
    unfold Scope.stringReading
    dsimp only
    split
    · exact Reading.measured_varying (Encoding.words_of_number?_eq_none rfl) _
    · exact Reading.measured_varying (Encoding.words_of_number?_eq_none rfl) _
  · simp only [Scope.fixedStringReading?, Option.bind_eq_bind, Option.bind_eq_some_iff] at h
    obtain ⟨argument, -, length, ⟨number, -, hword⟩, h⟩ := h
    obtain rfl := Option.some.inj h
    have hlength : ∀ n ∈ (Encoding.fixedAscii length).number?, n ≤ maxWord := by
      rintro _ ⟨⟩
      exact (word?_eq_some_iff.1 hword).2
    exact scope.measured_sized hlength _
  · rename_i call encoding size hform
    obtain rfl := Option.some.inj h
    rcases Scope.sized_of_form hform with ⟨rfl, rfl⟩ | ⟨rfl, rfl⟩
    · exact scope.measured_sized (Encoding.words_of_number?_eq_none (e := .uuid) rfl) _
    · exact scope.measured_sized (Encoding.words_of_number?_eq_none (e := .nested) rfl) _
  · exact scope.measured_enumReading? h
  · obtain rfl := Option.some.inj h
    exact scope.measured_varIntReading _
  · exact scope.measured_primitive? h

end WireLayout.Routine

import WireLayout.Proofs.Routine.Expressions
import WireLayout.Proofs.Routine.Guards
import WireLayout.Proofs.Routine.Statements

/-! Routines in the form that decompilers give them: a local with presence flags, an object, one read for each
field, perhaps under a presence test, and the object as the result. Here is their text, with what each read is
meant to say; the reads are read back one by one. -/

namespace WireLayout.Routine

open WireLayout.Java WireLayout.Text

/-! What is read. -/

inductive Getter where
  | byte | unsignedByte | short | unsignedShort | int | unsignedInt | long | float | double
  deriving DecidableEq, Repr

namespace Getter

def name : Getter → String
  | byte => "getByte"
  | unsignedByte => "getUnsignedByte"
  | short => "getShortLE"
  | unsignedShort => "getUnsignedShortLE"
  | int => "getIntLE"
  | unsignedInt => "getUnsignedIntLE"
  | long => "getLongLE"
  | float => "getFloatLE"
  | double => "getDoubleLE"

def encoding : Getter → Encoding
  | byte => .i8
  | unsignedByte => .u8
  | short | unsignedShort => .i16le
  | int | unsignedInt => .i32le
  | long => .i64le
  | float => .f32le
  | double => .f64le

def width : Getter → Nat
  | byte | unsignedByte => 1
  | short | unsignedShort => 2
  | int | unsignedInt | float => 4
  | long | double => 8

end Getter

inductive FixedKind where
  | primitive (getter : Getter)
  | uuid
  | fixedAscii (length : Nat)
  | nested (type : String)
  deriving DecidableEq, Repr

namespace FixedKind

def encoding : FixedKind → Encoding
  | primitive getter => getter.encoding
  | uuid => .uuid
  | fixedAscii length => .fixedAscii length
  | nested _ => .nested

/-- The width of what is read; a nested value has none of its own. -/
def size : FixedKind → Option Nat
  | primitive getter => some getter.width
  | uuid => some 16
  | fixedAscii length => some length
  | nested _ => none

def call (offset : Nat) : FixedKind → PlainCall
  | primitive getter => ⟨"buf".toList, getter.name.toList, [positionText offset]⟩
  | uuid => ⟨"PacketIO".toList, "readUUID".toList, ["buf".toList, positionText offset]⟩
  | fixedAscii length =>
    ⟨"PacketIO".toList, "readFixedAsciiString".toList, ["buf".toList, positionText offset, decimal length]⟩
  | nested type => ⟨type.toList, "deserialize".toList, ["buf".toList, positionText offset]⟩

end FixedKind

inductive Charset where
  | ascii | utf8
  deriving DecidableEq, Repr

namespace Charset

def encoding : Charset → Encoding
  | ascii => .varAscii
  | utf8 => .varUtf8

def text : Charset → List Char
  | ascii => "PacketIO.ASCII".toList
  | utf8 => "PacketIO.UTF8".toList

end Charset

/-- Where a field is read: at a constant position, or as a string through an offset pointer. -/
inductive Source where
  | fixed (offset : Nat) (kind : FixedKind)
  | varying (pointer : String) (base slot : Nat) (charset : Charset)
  deriving DecidableEq, Repr

/-- A name of letters, digits, underscores and dollars of ASCII. -/
def IsName (name : String) : Prop := name.toList ≠ [] ∧ ∀ c ∈ name.toList, isIdent c = true

instance (name : String) : Decidable (IsName name) :=
  decidable_of_iff ((!name.toList.isEmpty && name.toList.all isIdent) = true) (by simp [IsName])

namespace Source

def call : Source → PlainCall
  | fixed offset kind => kind.call offset
  | varying pointer _ _ charset =>
    ⟨"PacketIO".toList, "readVarString".toList, ["buf".toList, pointer.toList, charset.text]⟩

def reading : Source → Reading
  | fixed offset kind => .fixed offset kind.encoding kind.size
  | varying _ _ slot charset => .varying charset.encoding none (some slot)

def declarations : Source → List (List Char)
  | fixed .. => []
  | varying pointer base slot _ => [pointerText pointer.toList base slot]

def pointer? : Source → Option (String × OffsetPointer)
  | fixed .. => none
  | varying pointer base slot _ => some (pointer, ⟨slot, base⟩)

/-- The names are names, that of a type begins with a letter, and a position is one of a buffer. -/
def WellFormed : Source → Prop
  | fixed offset kind => offset < 2 ^ 31 ∧
      ∀ type, kind = .nested type → IsName type ∧ type.toList.head?.any isAsciiLetter = true
  | varying pointer _ _ _ => IsName pointer

/-- The numbers fit into 32 bits, the name of a type begins with a capital letter, and the name of a pointer to
other text does not name ASCII. -/
def Readable : Source → Prop
  | fixed _ kind => (∀ length, kind = .fixedAscii length → length ≤ maxWord) ∧
      ∀ type, kind = .nested type → type.toList.head?.any isAsciiUpper = true
  | varying pointer base slot charset =>
    base ≤ maxWord ∧ slot ≤ maxWord ∧ (charset = .utf8 → contains "ASCII".toList pointer.toList = false)

end Source

/-! The calls are proper. -/

theorem head?_any_isWord {w : List Char} (h : w.head?.any isAsciiLetter = true) : w.head?.any isWord = true := by
  cases w with
  | nil => cases h
  | cons c w =>
    have hc : isAsciiLetter c = true := h
    have hident : isIdent c = true := by simp [isIdent, hc]
    refine isWord_of_isIdent hident ?_
    rintro rfl
    exact absurd hc (by decide)

def readNames : List String :=
  ["getByte", "getUnsignedByte", "getShortLE", "getUnsignedShortLE", "getIntLE", "getUnsignedIntLE", "getLongLE",
    "getFloatLE", "getDoubleLE", "readUUID", "readFixedAsciiString", "deserialize", "readVarString"]

theorem all_readNames : readNames.all (fun name => name.toList.all isIdent && name.toList.head?.any isWord &&
    name.toList.tails.all fun s => s ≠ "readBytes".toList && s ≠ "readByteArray".toList) = true := by
  decide +kernel

theorem readName {name : String} (h : name ∈ readNames) :
    (∀ c ∈ name.toList, isIdent c = true) ∧ name.toList.head?.any isWord = true ∧
      ∀ s, s <:+ name.toList → s ≠ "readBytes".toList ∧ s ≠ "readByteArray".toList := by
  have hall := List.all_eq_true.1 all_readNames name h
  rw [Bool.and_eq_true, Bool.and_eq_true] at hall
  obtain ⟨⟨hident, hhead⟩, htails⟩ := hall
  refine ⟨List.all_eq_true.1 hident, hhead, fun s hs => ?_⟩
  have hquiet := List.all_eq_true.1 htails s ((List.mem_tails _ _).2 hs)
  rw [Bool.and_eq_true, decide_eq_true_iff, decide_eq_true_iff] at hquiet
  exact hquiet

theorem IsName.argument {name : String} (h : IsName name) : IsArgument name.toList := isArgument_word h.2 h.1

theorem IsName.words {name : String} (h : IsName name) : ∀ c ∈ name.toList, isWordOrDollar c = true :=
  fun c hc => isWordOrDollar_of_isIdent (h.2 c hc)

theorem isArgument_decimal {n : Nat} : IsArgument (decimal n) :=
  isArgument_word (fun _ hc => isIdent_of_mem_decimal hc) decimal_ne_nil

theorem Charset.isArgument_text (charset : Charset) : IsArgument charset.text := by
  have hparts : ∃ first second, charset.text = first ++ '.' :: second ∧ first ≠ [] ∧ second ≠ [] ∧
      first.all isIdent = true ∧ second.all isIdent = true := by
    cases charset with
    | ascii => exact ⟨"PacketIO".toList, "ASCII".toList, by decide +kernel⟩
    | utf8 => exact ⟨"PacketIO".toList, "UTF8".toList, by decide +kernel⟩
  obtain ⟨first, second, htext, hfirst, hsecond, hf, hs⟩ := hparts
  have hf := List.all_eq_true.1 hf
  have hs := List.all_eq_true.1 hs
  rw [htext]
  refine ⟨?_, by simp, fun c hc => ?_, fun c hc => ?_, ?_⟩
  · intro c hc
    rcases List.mem_append.1 hc with hc | hc
    · simp [isArgumentChar, hf c hc]
    · rcases List.mem_cons.1 hc with rfl | hc
      · decide
      · simp [isArgumentChar, hs c hc]
  · rw [List.head?_append_of_ne_nil _ hfirst] at hc
    exact hf c (List.mem_of_mem_head? hc)
  · rw [List.getLast?_append_of_ne_nil _ (List.cons_ne_nil _ _), List.getLast?_cons_of_ne_nil hsecond] at hc
    exact hs c (List.mem_of_getLast? hc)
  · exact harmless_dotted (fun c hc => isWordOrDollar_of_isIdent (hf c hc))
      (harmless_word fun c hc => isWordOrDollar_of_isIdent (hs c hc))

theorem proper_of_readName {receiver : List Char} {name : String} {arguments : List (List Char)}
    (hr : ∀ c ∈ receiver, isIdent c = true) (hh : receiver.head?.any isWord = true)
    (hn : name ∈ readNames) (ha : ∀ a ∈ arguments, IsArgument a) :
    (PlainCall.mk receiver name.toList arguments).Proper :=
  ⟨⟨hr, hh, (readName hn).1, (readName hn).2.1, ha⟩, (readName hn).2.2⟩

theorem all_receivers : ["buf", "PacketIO"].all (fun name =>
    name.toList.all isIdent && name.toList.head?.any isWord && decide (name.toList ≠ [])) = true := by
  decide +kernel

theorem receiver {name : String} (h : name ∈ ["buf", "PacketIO"]) :
    IsName name ∧ name.toList.head?.any isWord = true := by
  have hall := List.all_eq_true.1 all_receivers name h
  rw [Bool.and_eq_true, Bool.and_eq_true, decide_eq_true_iff] at hall
  exact ⟨⟨hall.2, List.all_eq_true.1 hall.1.1⟩, hall.1.2⟩

theorem Source.proper_call {source : Source} (hc : source.WellFormed) : source.call.Proper := by
  obtain ⟨hbuf, hbufHead⟩ := receiver (show "buf" ∈ _ by simp)
  obtain ⟨hio, hioHead⟩ := receiver (show "PacketIO" ∈ _ by simp)
  have hpair : ∀ offset, ∀ a ∈ ["buf".toList, positionText offset], IsArgument a := fun offset =>
    List.forall_mem_cons.2 ⟨hbuf.argument, List.forall_mem_singleton.2 isArgument_positionText⟩
  cases source with
  | fixed offset kind =>
    cases kind with
    | primitive getter =>
      refine proper_of_readName hbuf.2 hbufHead ?_ (List.forall_mem_singleton.2 isArgument_positionText)
      cases getter <;> simp [readNames, Getter.name]
    | uuid => exact proper_of_readName hio.2 hioHead (by simp [readNames]) (hpair offset)
    | fixedAscii length =>
      exact proper_of_readName hio.2 hioHead (by simp [readNames])
        (List.forall_mem_append.2 ⟨hpair offset, List.forall_mem_singleton.2 isArgument_decimal⟩)
    | nested type =>
      obtain ⟨hname, hhead⟩ := hc.2 type rfl
      exact proper_of_readName hname.2 (head?_any_isWord hhead) (by simp [readNames]) (hpair offset)
  | varying pointer base slot charset =>
    have hname : IsName pointer := hc
    exact proper_of_readName hio.2 hioHead (by simp [readNames])
      (List.forall_mem_cons.2 ⟨hbuf.argument, List.forall_mem_cons.2 ⟨hname.argument,
        List.forall_mem_singleton.2 charset.isArgument_text⟩⟩)

/-! The reads are read back. -/

theorem findCall_named {receiver : List Char} {name : String} {arguments : List (List Char)}
    (h : (PlainCall.mk receiver name.toList arguments).Proper) (other : String) :
    findCall other (PlainCall.mk receiver name.toList arguments).text =
      if name = other then some ⟨some receiver, arguments, []⟩ else none := by
  rw [PlainCall.findCall_text h.toWritten]
  simp [String.toList_inj]

namespace Scope

variable {scope : Scope}

theorem sized_positionText (ho : scope.offsetName = offsetWord) {offset : Nat}
    (hk : offset ≤ maxWord) {receiver : Option (List Char)} {first after : List Char} {rest : List (List Char)}
    (encoding : Encoding) (size : Option Nat) :
    scope.sized ⟨receiver, first :: positionText offset :: rest, after⟩ encoding size =
      .fixed offset encoding size := by
  have hposition : scope.position? ((first :: positionText offset :: rest)[1]?.getD []) = some offset :=
    position?_positionText ho hk
  rw [sized, hposition]

theorem primitive?_call (ho : scope.offsetName = offsetWord) {offset : Nat}
    (hk : offset ≤ maxWord) {getter : Getter} (h : ((FixedKind.primitive getter).call offset).Proper) :
    scope.primitive? ((FixedKind.primitive getter).call offset).text =
      some (.fixed offset getter.encoding (some getter.width)) := by
  have hposition : scope.position? (positionText offset) = some offset := position?_positionText ho hk
  have hzero : comparesWithZero [] = false := rfl
  have hfind : ∀ other, findCall other ((FixedKind.primitive getter).call offset).text =
      if getter.name = other then some ⟨some "buf".toList, [positionText offset], []⟩ else none :=
    findCall_named h
  generalize ((FixedKind.primitive getter).call offset).text = text at hfind ⊢
  cases getter <;>
    simp [primitive?, primitives, primitiveFrom, hfind, hposition, hzero, Getter.name, Getter.encoding, Getter.width,
      Encoding.fixedSize?]

/-- A read through a pointer gets the charset from its last argument, unless the name of the pointer has it. -/
theorem reading?_varying {pointer : String} {base slot : Nat} {charset : Charset}
    (hc : (Source.varying pointer base slot charset).WellFormed)
    (hr : (Source.varying pointer base slot charset).Readable)
    (hp : scope.pointers.find? pointer = some ⟨slot, base⟩) :
    scope.reading? (Source.varying pointer base slot charset).call.text =
      some (Source.varying pointer base slot charset).reading := by
  have hproper := Source.proper_call hc
  have hname : IsName pointer := hc
  have htrim : trim isSpace pointer.toList = pointer.toList :=
    trim_eq_self (fun c hc => isSpace_of_isIdent (hname.2 c (List.mem_of_mem_head? hc)))
      fun c hc => isSpace_of_isIdent (hname.2 c (List.mem_of_getLast? hc))
  have hslot : scope.slot? pointer.toList = some slot := by
    rw [slot?, htrim, String.ofList_toList, hp]
    rfl
  have hbuf : contains "ASCII".toList "buf".toList = false := by decide +kernel
  have hascii : (contains "ASCII".toList pointer.toList || contains "ASCII".toList charset.text) =
      decide (charset = .ascii) := by
    cases charset with
    | ascii =>
      have htext : contains "ASCII".toList Charset.ascii.text = true := by decide +kernel
      rw [htext, Bool.or_true]
      rfl
    | utf8 =>
      have htext : contains "ASCII".toList Charset.utf8.text = false := by decide +kernel
      rw [htext, hr.2.2 rfl]
      rfl
  have hfind : findCall "readVarString" (Source.varying pointer base slot charset).call.text =
      some ⟨some "PacketIO".toList, ["buf".toList, pointer.toList, charset.text], []⟩ :=
    (findCall_named hproper "readVarString").trans (if_pos rfl)
  rw [reading?, form, PlainCall.makesArray_text hproper, if_neg (by simp), hfind]
  simp only [stringReading, List.any_cons, List.any_nil, hbuf, hascii, Bool.false_or, Bool.or_false,
    secondSlot?, List.getElem?_cons_succ, List.getElem?_cons_zero, Option.bind_some, hslot, Source.reading]
  cases charset <;> rfl

/-- A read at a constant position is read back, whatever pointers there are. -/
theorem reading?_fixed (ho : scope.offsetName = offsetWord) {offset : Nat} {kind : FixedKind}
    (hc : (Source.fixed offset kind).WellFormed) (hr : (Source.fixed offset kind).Readable) :
    scope.reading? (Source.fixed offset kind).call.text = some (Source.fixed offset kind).reading := by
  have hproper := Source.proper_call hc
  have hk : offset ≤ maxWord := (Nat.le_of_lt hc.1).trans (by decide)
  have hmakes := PlainCall.makesArray_text hproper
  cases kind with
  | primitive getter =>
    have hfind : ∀ other, findCall other (Source.fixed offset (.primitive getter)).call.text =
        if getter.name = other then some ⟨some "buf".toList, [positionText offset], []⟩ else none :=
      findCall_named hproper
    have hprimitive := primitive?_call ho hk hproper
    have hnone : ∀ other ∈ ["readVarString", "readFixedAsciiString", "readUUID", "deserialize", "fromValue", "peek"],
        getter.name ≠ other := by
      cases getter <;> simp [Getter.name]
    simp only [List.forall_mem_cons] at hnone
    obtain ⟨h1, h2, h3, h4, h5, h6, -⟩ := hnone
    rw [reading?, form, hmakes]
    simp only [hfind, if_neg h1, if_neg h2, if_neg h3, if_neg h4, if_neg h5, if_neg h6, Option.filter_none]
    exact hprimitive
  | uuid =>
    have hfind : ∀ other, findCall other (Source.fixed offset .uuid).call.text =
        if "readUUID" = other then some ⟨some "PacketIO".toList, ["buf".toList, positionText offset], []⟩ else none :=
      findCall_named hproper
    rw [reading?, form, hmakes]
    simp [hfind, sized_positionText ho hk, Source.reading, FixedKind.encoding, FixedKind.size]
  | fixedAscii length =>
    have hfind : ∀ other, findCall other (Source.fixed offset (.fixedAscii length)).call.text =
        if "readFixedAsciiString" = other then
          some ⟨some "PacketIO".toList, ["buf".toList, positionText offset, decimal length], []⟩ else none :=
      findCall_named hproper
    have hlength : (IntLiteral.read? (decimal length)).bind word? = some length :=
      word?_read?_decimal [] (by simp) (hr.1 length rfl)
    rw [reading?, form, hmakes]
    simp [hfind, fixedStringReading?, hlength, sized_positionText ho hk, Source.reading, FixedKind.encoding,
      FixedKind.size]
  | nested type =>
    have hfind : ∀ other, findCall other (Source.fixed offset (.nested type)).call.text =
        if "deserialize" = other then some ⟨some type.toList, ["buf".toList, positionText offset], []⟩ else none :=
      findCall_named hproper
    have htype : ∀ arguments, onType ⟨some type.toList, arguments, []⟩ = true := fun _ => hr.2 type rfl
    rw [reading?, form, hmakes]
    simp [hfind, Option.filter, htype, sized_positionText ho hk, Source.reading, FixedKind.encoding, FixedKind.size]

end Scope

/-! Fields. -/

/-- A presence test of one bit, in an octet of flags or in an element of several. -/
structure PresenceTest where
  index : Option (Fin 4)
  exponent : Fin 8
  deriving DecidableEq, Repr

namespace PresenceTest

def mask (test : PresenceTest) : Nat := 2 ^ (test.exponent : Nat)

def bit (test : PresenceTest) : Nat := test.mask * 2 ^ (8 * test.index.elim 0 Fin.val)

def tested (test : PresenceTest) : List Char :=
  "nullBits".toList ++ (test.index.elim [] (fun i => '[' :: (decimal i ++ [']'])) ++
    (" & ".toList ++ decimal test.mask))

def condition (test : PresenceTest) : List Char := '(' :: (test.tested ++ [')']) ++ " != 0".toList

def header (test : PresenceTest) : List Char := "if ".toList ++ '(' :: (test.condition ++ [')'])

end PresenceTest

/-- A field, how it is read, and the presence test around the read. -/
structure CanonicalField where
  name : String
  source : Source
  test : Option PresenceTest
  deriving DecidableEq, Repr

namespace CanonicalField

def fact (f : CanonicalField) : Fact := ⟨f.name, f.source.reading, f.test.map (·.bit)⟩

def statements (f : CanonicalField) : List (List Char) :=
  f.source.declarations ++ [assignmentText f.name.toList f.source.call.text]

def block (gap : List Char) (statements : List (List Char)) : List Char :=
  statements.flatMap fun s => gap ++ (s ++ [';'])

def text (gap : List Char) (f : CanonicalField) : List Char :=
  match f.test with
  | none => block gap f.statements
  | some test => gap ++ (test.header ++ ' ' :: '{' :: (block gap f.statements ++ (gap ++ ['}'])))

def steps (f : CanonicalField) : List Step :=
  match f.test with
  | none => f.statements.map .execute
  | some test => .enter test.header :: (f.statements.map .execute ++ [.leave])

end CanonicalField

/-- Every presence test is read as a test of its bit on the flags; there are forty. -/
theorem maskTest_header : ∀ (index : Option (Fin 4)) (exponent : Fin 8),
    (maskTest (PresenceTest.header ⟨index, exponent⟩)).map (fun t => (t.variableName, t.bit?)) =
      some ("nullBits", some (PresenceTest.bit ⟨index, exponent⟩)) := by
  decide +kernel

theorem guard?_header (r : Reader) (test : PresenceTest) : r.guard? test.header = some test.bit := by
  have hflags : r.isFlags "nullBits" = true := by
    have hname : contains "null".toList (Reader.lowerName "nullBits") = true := by decide +kernel
    rw [Reader.isFlags, hname, Bool.or_true, Bool.true_or]
  obtain ⟨t, ht, heq⟩ := Option.map_eq_some_iff.1 (maskTest_header test.index test.exponent)
  obtain ⟨hname, hbit⟩ := Prod.mk.inj heq
  rw [Reader.guard?_eq, ht, Option.bind_some, hname, if_pos hflags, hbit]

end WireLayout.Routine

/-! Maps as lists of entries in strictly increasing order of their keys. The order is part of the type,
so a map with given entries is unique, and an insertion is described by what `find?` sees after it. -/

namespace WireLayout

/-- Entries in increasing order of the keys, one for each key. -/
structure SortedMap (κ α : Type) [Ord κ] where
  entries : List (κ × α) := []
  sorted : entries.Pairwise (fun a b => compare a.1 b.1 = .lt) := by exact List.Pairwise.nil
  deriving DecidableEq, Repr

namespace SortedMap

variable {κ α β : Type} [Ord κ]

def empty : SortedMap κ α := {}

instance : EmptyCollection (SortedMap κ α) := ⟨empty⟩

instance : Inhabited (SortedMap κ α) := ⟨empty⟩

def insertEntry (k : κ) (v : α) : List (κ × α) → List (κ × α)
  | [] => [(k, v)]
  | e :: rest =>
    match compare k e.1 with
    | .lt => (k, v) :: e :: rest
    | .eq => (k, v) :: rest
    | .gt => e :: insertEntry k v rest

def lookup (k : κ) : List (κ × α) → Option α
  | [] => none
  | e :: rest => if compare k e.1 = .eq then some e.2 else lookup k rest

theorem mem_insertEntry {k : κ} {v : α} {e : κ × α} {es : List (κ × α)} (h : e ∈ insertEntry k v es) :
    e = (k, v) ∨ e ∈ es := by
  induction es with
  | nil => simpa [insertEntry] using h
  | cons x rest ih =>
    unfold insertEntry at h
    split at h <;> simp at h ⊢ <;> grind

theorem sorted_insertEntry [Std.TransOrd κ] [Std.LawfulEqOrd κ] (k : κ) (v : α) {es : List (κ × α)}
    (h : es.Pairwise (fun a b => compare a.1 b.1 = .lt)) :
    (insertEntry k v es).Pairwise (fun a b => compare a.1 b.1 = .lt) := by
  induction es with
  | nil => simp [insertEntry]
  | cons x rest ih =>
    rw [List.pairwise_cons] at h
    unfold insertEntry
    split
    · rename_i hlt
      refine List.pairwise_cons.2 ⟨fun e he => ?_, List.pairwise_cons.2 h⟩
      rcases List.mem_cons.1 he with rfl | he
      · exact hlt
      · exact Std.TransCmp.lt_trans hlt (h.1 e he)
    · rename_i heq
      have : k = x.1 := Std.LawfulEqOrd.eq_of_compare heq
      exact List.pairwise_cons.2 ⟨fun e he => this ▸ h.1 e he, h.2⟩
    · rename_i hgt
      refine List.pairwise_cons.2 ⟨fun e he => ?_, ih h.2⟩
      rcases mem_insertEntry he with rfl | he
      · exact Std.OrientedCmp.gt_iff_lt.1 hgt
      · exact h.1 e he

theorem lookup_insertEntry_self [Std.LawfulEqOrd κ] (k : κ) (v : α) (es : List (κ × α)) :
    lookup k (insertEntry k v es) = some v := by
  induction es with
  | nil => simp [insertEntry, lookup]
  | cons x rest ih =>
    unfold insertEntry
    split <;> rename_i h <;> simp [lookup, h, ih]

theorem lookup_insertEntry_ne [Std.LawfulEqOrd κ] {k k' : κ} (h : k' ≠ k) (v : α) (es : List (κ × α)) :
    lookup k' (insertEntry k v es) = lookup k' es := by
  have hk : compare k' k ≠ .eq := fun e => h (Std.LawfulEqOrd.eq_of_compare e)
  induction es with
  | nil => simp [insertEntry, lookup, hk]
  | cons x rest ih =>
    unfold insertEntry
    split
    · simp [lookup, hk]
    · rename_i heq
      have : k = x.1 := Std.LawfulEqOrd.eq_of_compare heq
      simp [lookup, hk, ← this]
    · simp [lookup, ih]

variable [Std.TransOrd κ] [Std.LawfulEqOrd κ]

def insert (m : SortedMap κ α) (k : κ) (v : α) : SortedMap κ α :=
  ⟨insertEntry k v m.entries, sorted_insertEntry k v m.sorted⟩

def find? (m : SortedMap κ α) (k : κ) : Option α := lookup k m.entries

def contains (m : SortedMap κ α) (k : κ) : Bool := (m.find? k).isSome

/-- Sets the value of a key that has none yet. -/
def insertNew (m : SortedMap κ α) (k : κ) (v : α) : SortedMap κ α :=
  if m.contains k then m else m.insert k v

/-- The last of several values for a key stays. -/
def ofList (es : List (κ × α)) : SortedMap κ α := es.foldl (fun m e => m.insert e.1 e.2) empty

def mapValues (f : α → β) (m : SortedMap κ α) : SortedMap κ β :=
  ⟨m.entries.map fun e => (e.1, f e.2), by simpa [List.pairwise_map] using m.sorted⟩

def keys (m : SortedMap κ α) : List κ := m.entries.map (·.1)

def values (m : SortedMap κ α) : List α := m.entries.map (·.2)

def size (m : SortedMap κ α) : Nat := m.entries.length

def isEmpty (m : SortedMap κ α) : Bool := m.entries.isEmpty

@[simp] theorem find?_insert_self (m : SortedMap κ α) (k : κ) (v : α) :
    (m.insert k v).find? k = some v :=
  lookup_insertEntry_self k v m.entries

theorem find?_insert_ne (m : SortedMap κ α) {k k' : κ} (h : k' ≠ k) (v : α) :
    (m.insert k v).find? k' = m.find? k' :=
  lookup_insertEntry_ne h v m.entries

omit [Std.TransOrd κ] [Std.LawfulEqOrd κ] in
@[simp] theorem find?_empty (k : κ) : (∅ : SortedMap κ α).find? k = none := rfl

end SortedMap

end WireLayout

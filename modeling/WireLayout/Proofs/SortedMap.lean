import Mathlib.Data.List.Nodup
import WireLayout.SortedMap

/-! What a sorted map holds, read off `find?`: it agrees with membership of the entries, an insertion changes
one key only, and a map made of a list gives each key the last value that the list has for it. -/

namespace WireLayout.SortedMap

variable {κ α : Type} [Ord κ] [Std.TransOrd κ] [Std.LawfulEqOrd κ]

omit [Std.TransOrd κ] in
theorem mem_of_lookup {k : κ} {v : α} {es : List (κ × α)} (h : lookup k es = some v) : (k, v) ∈ es := by
  induction es with
  | nil => cases h
  | cons e rest ih =>
    unfold lookup at h
    split at h
    · rename_i hk
      have hk : k = e.1 := Std.LawfulEqOrd.eq_of_compare hk
      cases h
      exact hk ▸ List.mem_cons_self
    · exact List.mem_cons_of_mem _ (ih h)

theorem lookup_of_mem {k : κ} {v : α} {es : List (κ × α)}
    (hs : es.Pairwise fun a b => compare a.1 b.1 = .lt) (h : (k, v) ∈ es) : lookup k es = some v := by
  induction es with
  | nil => cases h
  | cons e rest ih =>
    rw [List.pairwise_cons] at hs
    unfold lookup
    rcases List.mem_cons.1 h with rfl | h
    · simp
    · have hlt : compare e.1 k = .lt := hs.1 (k, v) h
      have hne : compare k e.1 ≠ .eq := by
        rw [Std.OrientedCmp.gt_of_lt hlt]; decide
      rw [if_neg hne]
      exact ih hs.2 h

omit [Std.TransOrd κ] in
theorem lookup_eq_none_of_lt {k : κ} {es : List (κ × α)} (h : ∀ e ∈ es, compare k e.1 = .lt) :
    lookup k es = none := by
  cases hl : lookup k es with
  | none => rfl
  | some v =>
    have hlt := h _ (mem_of_lookup hl)
    rw [Std.ReflOrd.compare_self] at hlt
    cases hlt

theorem find?_eq_some_iff {m : SortedMap κ α} {k : κ} {v : α} : m.find? k = some v ↔ (k, v) ∈ m.entries :=
  ⟨mem_of_lookup, lookup_of_mem m.sorted⟩

theorem find?_insert [DecidableEq κ] (m : SortedMap κ α) (k k' : κ) (v : α) :
    (m.insert k v).find? k' = if k' = k then some v else m.find? k' := by
  by_cases h : k' = k
  · subst h; simp
  · rw [if_neg h, find?_insert_ne m h]

theorem mem_entries_insert {m : SortedMap κ α} {k : κ} {v : α} {e : κ × α} :
    e ∈ (m.insert k v).entries ↔ e = (k, v) ∨ e.1 ≠ k ∧ e ∈ m.entries := by
  classical
  obtain ⟨k', v'⟩ := e
  rw [← find?_eq_some_iff, find?_insert, ← find?_eq_some_iff]
  by_cases h : k' = k
  · subst h; simp [eq_comm]
  · simp [h]

theorem mem_keys_iff {m : SortedMap κ α} {k : κ} : k ∈ m.keys ↔ (m.find? k).isSome = true := by
  simp [keys, Option.isSome_iff_exists, find?_eq_some_iff]

omit [Std.LawfulEqOrd κ] in
theorem nodup_keys (m : SortedMap κ α) : m.keys.Nodup := by
  rw [keys, List.Nodup, List.pairwise_map]
  refine m.sorted.imp fun {a b} hlt heq => ?_
  rw [heq, Std.ReflOrd.compare_self] at hlt
  cases hlt

omit [Std.TransOrd κ] [Std.LawfulEqOrd κ] in
theorem mem_values {m : SortedMap κ α} {v : α} : v ∈ m.values ↔ ∃ k, (k, v) ∈ m.entries := by
  simp [values]

omit [Std.LawfulEqOrd κ] in
theorem nodup_values_iff {m : SortedMap κ α} :
    m.values.Nodup ↔ ∀ e ∈ m.entries, ∀ e' ∈ m.entries, e.2 = e'.2 → e = e' := by
  constructor
  · intro h e he e' he' heq
    exact List.inj_on_of_nodup_map h he he' heq
  · intro h
    exact (List.Nodup.of_map _ m.nodup_keys).map_on h

/-- A new key with a new value keeps the values distinct. -/
theorem nodup_values_insert {m : SortedMap κ α} {k : κ} {v : α} (h : m.values.Nodup) (hv : v ∉ m.values) :
    (m.insert k v).values.Nodup := by
  rw [nodup_values_iff] at h ⊢
  have hne : ∀ e ∈ m.entries, e.2 ≠ v := by
    rintro e he rfl
    exact hv (mem_values.2 ⟨e.1, he⟩)
  intro e he e' he' heq
  rcases mem_entries_insert.1 he with rfl | ⟨-, he⟩ <;>
    rcases mem_entries_insert.1 he' with rfl | ⟨-, he'⟩
  · rfl
  · exact absurd heq.symm (hne e' he')
  · exact absurd heq (hne e he)
  · exact h e he e' he' heq

def lastValue [DecidableEq κ] (es : List (κ × α)) (k : κ) : Option α :=
  ((es.filter fun e => e.1 = k).getLast?).map (·.2)

section

variable [DecidableEq κ]

omit [Ord κ] [Std.TransOrd κ] [Std.LawfulEqOrd κ] in
theorem lastValue_cons (e : κ × α) (es : List (κ × α)) (k : κ) :
    lastValue (e :: es) k = (lastValue es k).or (if e.1 = k then some e.2 else none) := by
  unfold lastValue
  by_cases h : e.1 = k
  · cases hl : (es.filter fun e => decide (e.1 = k)).getLast? <;> simp [h, List.getLast?_cons, hl]
  · simp [h]

omit [Ord κ] [Std.TransOrd κ] [Std.LawfulEqOrd κ] in
theorem mem_of_lastValue {es : List (κ × α)} {k : κ} {v : α} (h : lastValue es k = some v) :
    (k, v) ∈ es := by
  obtain ⟨e, he, rfl⟩ := Option.map_eq_some_iff.1 h
  have hm := List.mem_filter.1 (List.mem_of_getLast? he)
  have hk : e.1 = k := by simpa using hm.2
  exact hk ▸ hm.1

omit [Ord κ] [Std.TransOrd κ] [Std.LawfulEqOrd κ] in
theorem lastValue_eq_none_iff {es : List (κ × α)} {k : κ} :
    lastValue es k = none ↔ ∀ v, (k, v) ∉ es := by
  simp only [lastValue, Option.map_eq_none_iff, List.getLast?_eq_none_iff, List.filter_eq_nil_iff,
    decide_eq_true_eq]
  constructor
  · intro h v hv
    exact h _ hv rfl
  · intro h e he hk
    exact h e.2 (hk ▸ he)

theorem find?_foldl_insert (es : List (κ × α)) (m : SortedMap κ α) (k : κ) :
    (es.foldl (fun m e => m.insert e.1 e.2) m).find? k = (lastValue es k).or (m.find? k) := by
  induction es generalizing m with
  | nil => simp [lastValue]
  | cons e rest ih =>
    rw [List.foldl_cons, ih, find?_insert, lastValue_cons]
    by_cases h : e.1 = k
    · cases lastValue rest k <;> simp [h]
    · cases lastValue rest k <;> simp [h, Ne.symm h]

theorem find?_ofList (es : List (κ × α)) (k : κ) : (ofList es).find? k = lastValue es k := by
  rw [ofList, find?_foldl_insert]
  exact Option.or_none

end

theorem mem_of_mem_ofList {es : List (κ × α)} {e : κ × α} (h : e ∈ (ofList es).entries) : e ∈ es := by
  classical
  have hf := find?_eq_some_iff.2 h
  rw [find?_ofList] at hf
  exact mem_of_lastValue hf

/-- When a list has no two values for a key, all its entries are found. -/
theorem find?_ofList_of_mem {es : List (κ × α)} (hs : (es.map (·.1)).Nodup) {e : κ × α} (h : e ∈ es) :
    (ofList es).find? e.1 = some e.2 := by
  classical
  rw [find?_ofList]
  cases hl : lastValue es e.1 with
  | none => exact absurd h (lastValue_eq_none_iff.1 hl e.2)
  | some v =>
    have he : (e.1, v) = e := List.inj_on_of_nodup_map hs (mem_of_lastValue hl) h rfl
    rw [← he]

theorem mem_values_ofList {es : List (κ × α)} (hs : (es.map (·.1)).Nodup) {v : α} :
    v ∈ (ofList es).values ↔ ∃ k, (k, v) ∈ es := by
  rw [mem_values]
  constructor
  · rintro ⟨k, hk⟩
    exact ⟨k, mem_of_mem_ofList hk⟩
  · rintro ⟨k, hk⟩
    exact ⟨k, find?_eq_some_iff.1 (find?_ofList_of_mem hs hk)⟩

theorem ext_find? {m m' : SortedMap κ α} (h : ∀ k, m.find? k = m'.find? k) : m = m' := by
  have hmem : ∀ e, e ∈ m.entries ↔ e ∈ m'.entries := by
    rintro ⟨k, v⟩
    rw [← find?_eq_some_iff, ← find?_eq_some_iff, h]
  have hperm : m.entries.Perm m'.entries :=
    (List.perm_ext_iff_of_nodup (List.Nodup.of_map _ m.nodup_keys) (List.Nodup.of_map _ m'.nodup_keys)).2 hmem
  have hentries : m.entries = m'.entries := by
    refine hperm.eq_of_pairwise (fun a b _ _ hab hba => ?_) m.sorted m'.sorted
    rw [Std.OrientedCmp.gt_of_lt hab] at hba
    cases hba
  cases m
  cases m'
  cases hentries
  rfl

/-- The entries of a map, in any order, make the map again. -/
theorem ofList_perm_entries {es : List (κ × α)} {m : SortedMap κ α} (h : es.Perm m.entries) : ofList es = m := by
  classical
  have hkeys : (es.map (·.1)).Nodup := (h.map _).nodup_iff.2 m.nodup_keys
  refine ext_find? fun k => ?_
  cases hm : m.find? k with
  | some v =>
    have hmem : (k, v) ∈ es := h.mem_iff.2 (find?_eq_some_iff.1 hm)
    exact find?_ofList_of_mem hkeys hmem
  | none =>
    rw [find?_ofList, lastValue_eq_none_iff]
    intro v hv
    rw [find?_eq_some_iff.2 (h.mem_iff.1 hv)] at hm
    cases hm

end WireLayout.SortedMap

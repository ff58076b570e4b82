import WireLayout.Proofs.Routine.Assignments
import WireLayout.Proofs.Routine.Signature

/-! What a walk is offered for the declared fields: each assignment to a member of a declared name whose value is
recognised where it stands, with the object that the member is of. A reader keeps the first offer for each name,
whatever comes later. -/

namespace WireLayout.Routine

open WireLayout.Java WireLayout.Text

/-- Where keys are distinct, a search for a key finds exactly the item with it. -/
theorem find?_eq_some_iff_of_nodup {α : Type} {key : α → String} {xs : List α} (h : (xs.map key).Nodup) {name : String}
    {x : α} : xs.find? (key · = name) = some x ↔ x ∈ xs ∧ key x = name := by
  constructor
  · intro hx
    exact ⟨List.mem_of_find?_eq_some hx, by simpa using List.find?_some hx⟩
  · rintro ⟨hx, rfl⟩
    obtain ⟨y, hy⟩ : ∃ y, xs.find? (key · = key x) = some y :=
      Option.isSome_iff_exists.1 (List.find?_isSome.2 ⟨x, hx, by simp⟩)
    have hkey : key y = key x := by simpa using List.find?_some hy
    rw [hy, List.inj_on_of_nodup_map h (List.mem_of_find?_eq_some hy) hx hkey]

/-- A recognised assignment: the object of the member, and the fact that it makes for a name without one. -/
structure Offer where
  object : String
  fact : Fact
  deriving DecidableEq, Repr

def Offer.name (o : Offer) : String := o.fact.name

@[simp] theorem Offer.fact_name (o : Offer) : o.fact.name = o.name := rfl

def objectOf (statement : List Char) : String := String.ofList (statement.takeWhile isWordOrDollar)

def Reader.offer? (r : Reader) (nullBit : Option Nat) (body : List Char) : Option Offer :=
  (memberAssignment? body).bind fun (member, value) =>
    if member ∈ r.declared then
      (r.valueReading? value).map fun reading => ⟨objectOf body, member, reading, nullBit⟩
    else none

def firstsFrom (seen : List String) : List Offer → List Offer
  | [] => []
  | o :: rest => if o.name ∈ seen then firstsFrom seen rest else o :: firstsFrom (seen ++ [o.name]) rest

def firsts (offers : List Offer) : List Offer := firstsFrom [] offers

section

variable {seen : List String} {offers : List Offer} {name : String}

theorem firstsFrom_append (seen : List String) (offers later : List Offer) :
    firstsFrom seen (offers ++ later) =
      firstsFrom seen offers ++ firstsFrom (seen ++ (firstsFrom seen offers).map Offer.name) later := by
  induction offers generalizing seen with
  | nil => simp [firstsFrom]
  | cons o rest ih =>
    rw [List.cons_append, firstsFrom, firstsFrom]
    split
    · exact ih seen
    · rw [ih]
      simp [List.append_assoc]

theorem firstsFrom_sublist (seen : List String) (offers : List Offer) :
    (firstsFrom seen offers).Sublist offers := by
  induction offers generalizing seen with
  | nil => exact List.Sublist.refl _
  | cons o rest ih =>
    rw [firstsFrom]
    split
    · exact (ih seen).cons o
    · exact (ih _).cons_cons o

theorem name_notMem_of_mem_firstsFrom {o : Offer} (h : o ∈ firstsFrom seen offers) : o.name ∉ seen := by
  induction offers generalizing seen with
  | nil => cases h
  | cons p rest ih =>
    rw [firstsFrom] at h
    split at h
    · exact ih h
    · rename_i hnew
      rcases List.mem_cons.1 h with rfl | h
      · exact hnew
      · exact fun hseen => ih h (List.mem_append_left _ hseen)

theorem nodup_firstsFrom (seen : List String) (offers : List Offer) :
    ((firstsFrom seen offers).map Offer.name).Nodup := by
  induction offers generalizing seen with
  | nil => exact List.nodup_nil
  | cons o rest ih =>
    rw [firstsFrom]
    split
    · exact ih seen
    · rw [List.map_cons, List.nodup_cons]
      refine ⟨fun hmem => ?_, ih _⟩
      obtain ⟨p, hp, hname⟩ := List.mem_map.1 hmem
      exact name_notMem_of_mem_firstsFrom hp (by simp [hname])

/-- A name that has not been seen finds its first offer. -/
theorem find?_firstsFrom (h : name ∉ seen) :
    (firstsFrom seen offers).find? (·.name = name) = offers.find? (·.name = name) := by
  induction offers generalizing seen with
  | nil => rfl
  | cons o rest ih =>
    rw [firstsFrom]
    by_cases hname : o.name = name
    · rw [if_neg (hname ▸ h), List.find?_cons_of_pos (by simpa using hname),
        List.find?_cons_of_pos (by simpa using hname)]
    · rw [List.find?_cons_of_neg (by simpa using hname)]
      split
      · exact ih h
      · rw [List.find?_cons_of_neg (by simpa using hname)]
        exact ih (by simp [h, Ne.symm hname])

end

/-- A statement adds the fact that it offers, unless its name has one. -/
theorem Reader.facts_simpleStatement (r : Reader) (nullBit : Option Nat) (body : List Char) :
    (r.simpleStatement nullBit body).facts =
      r.facts ++ (firstsFrom (r.facts.map (·.name)) (r.offer? nullBit body).toList).map Offer.fact := by
  cases ha : memberAssignment? body with
  | none =>
    have hoffer : r.offer? nullBit body = none := by simp [offer?, ha]
    rw [hoffer]
    unfold simpleStatement declareLocal
    rw [ha]
    simp only [Option.toList_none, firstsFrom, List.map_nil, List.append_nil]
    repeat' split
    all_goals rfl
  | some found =>
    obtain ⟨member, value⟩ := found
    rw [simpleStatement_of_memberAssignment? r nullBit ha]
    by_cases hd : member ∈ r.declared
    · by_cases hn : ∀ f ∈ r.facts, f.name ≠ member
      · have hnew : member ∉ r.facts.map (·.name) := by simpa using hn
        rw [facts_assign_of_new hd hn]
        cases hv : r.valueReading? value <;> simp [offer?, ha, hd, hnew, hv, firstsFrom, Offer.name, -List.mem_map]
      · have hold : member ∈ r.facts.map (·.name) := by simpa using hn
        have hkept : r.assign member value nullBit = r := by
          simp [assign, hn]
        cases hv : r.valueReading? value <;>
          simp [hkept, offer?, ha, hd, hold, hv, firstsFrom, Offer.name, -List.mem_map]
    · simp [assign, offer?, ha, hd, firstsFrom]

def Walker.offer? (w : Walker) : Step → Option Offer
  | .execute text => (Statement.parse? text).bind fun st =>
      w.reader.offer? (st.guardUnder w.reader (Reader.innermost w.guards)) st.body
  | _ => none

def Walker.offers (w : Walker) : List Step → List Offer
  | [] => []
  | s :: rest => (w.offer? s).toList ++ (w.step s).offers rest

namespace Walker

theorem facts_step (w : Walker) (s : Step) :
    (w.step s).reader.facts =
      w.reader.facts ++ (firstsFrom (w.reader.facts.map (·.name)) (w.offer? s).toList).map Offer.fact := by
  cases s with
  | enter header => simp [step, offer?, firstsFrom]
  | leave => simp [step, offer?, firstsFrom]
  | execute text =>
    rw [step, Reader.statement, offer?]
    cases Statement.parse? text with
    | none => simp [firstsFrom]
    | some st => exact Reader.facts_simpleStatement _ _ _

/-- A run adds the first offer for each name without a fact, by induction on the steps. -/
theorem facts_run (w : Walker) (steps : List Step) :
    (w.run steps).reader.facts =
      w.reader.facts ++ (firstsFrom (w.reader.facts.map (·.name)) (w.offers steps)).map Offer.fact := by
  induction steps generalizing w with
  | nil => simp [offers, firstsFrom]
  | cons s rest ih =>
    have hnames : (w.step s).reader.facts.map (·.name) = w.reader.facts.map (·.name) ++
        (firstsFrom (w.reader.facts.map (·.name)) (w.offer? s).toList).map Offer.name := by
      rw [facts_step, List.map_append, List.map_map]
      rfl
    rw [run_cons, ih, hnames, facts_step, offers, firstsFrom_append, List.map_append, List.append_assoc]

theorem offers_append (w : Walker) (before after : List Step) :
    w.offers (before ++ after) = w.offers before ++ (w.run before).offers after := by
  induction before generalizing w with
  | nil => rfl
  | cons s rest ih => rw [List.cons_append, offers, ih, offers, run_cons, List.append_assoc]

/-- Offers are of declared fields, since a run does not change what is declared. -/
theorem declared_of_mem_offers {w : Walker} {steps : List Step} {o : Offer} (h : o ∈ w.offers steps) :
    o.name ∈ w.reader.declared := by
  induction steps generalizing w with
  | nil => cases h
  | cons s rest ih =>
    rcases List.mem_append.1 h with h | h
    · cases s with
      | enter header => cases h
      | leave => cases h
      | execute text =>
        simp only [offer?, Reader.offer?, Option.mem_toList, Option.bind_eq_some_iff] at h
        obtain ⟨st, -, ⟨member, value⟩, -, ho⟩ := h
        split at ho
        · rename_i hd
          obtain ⟨reading, -, rfl⟩ := Option.map_eq_some_iff.1 ho
          exact hd
        · cases ho
    · have hdeclared : (w.step s).reader.declared = w.reader.declared := (w.names_run [s]).2
      exact hdeclared ▸ ih h

/-- The first offer for a name is that of a step before which nothing is offered for it. -/
theorem find?_offers_eq_some_iff {w : Walker} {steps : List Step} {name : String} {o : Offer} :
    (w.offers steps).find? (·.name = name) = some o ↔
      ∃ before s after, steps = before ++ s :: after ∧ (w.run before).offer? s = some o ∧ o.name = name ∧
        ∀ p ∈ w.offers before, p.name ≠ name := by
  constructor
  · intro h
    induction steps generalizing w with
    | nil => cases h
    | cons s rest ih =>
      rw [offers, List.find?_append] at h
      cases hs : w.offer? s with
      | none =>
        rw [hs] at h
        obtain ⟨before, t, after, rfl, ho, hname, hfirst⟩ := ih h
        exact ⟨s :: before, t, after, rfl, ho, hname, by simpa [offers, hs] using hfirst⟩
      | some p =>
        by_cases hp : p.name = name
        · rw [hs] at h
          obtain rfl : p = o := by simpa [hp] using h
          exact ⟨[], s, rest, rfl, hs, hp, by simp [offers]⟩
        · have hrest : ((w.step s).offers rest).find? (·.name = name) = some o := by simpa [hs, hp] using h
          obtain ⟨before, t, after, rfl, ho, hname, hfirst⟩ := ih hrest
          refine ⟨s :: before, t, after, rfl, ho, hname, ?_⟩
          simpa [offers, hs, hp] using hfirst
  · rintro ⟨before, s, after, rfl, ho, hname, hfirst⟩
    have hnone : (w.offers before).find? (·.name = name) = none := by simpa using hfirst
    rw [offers_append, List.find?_append, hnone, offers, ho]
    simp [hname]

end Walker

theorem nodup_firsts (offers : List Offer) : ((firsts offers).map Offer.name).Nodup := nodup_firstsFrom [] offers

theorem find?_firsts (offers : List Offer) (name : String) :
    (firsts offers).find? (·.name = name) = offers.find? (·.name = name) :=
  find?_firstsFrom List.not_mem_nil

theorem mem_firsts_iff {offers : List Offer} {o : Offer} :
    o ∈ firsts offers ↔ offers.find? (·.name = o.name) = some o := by
  rw [← find?_firsts, find?_eq_some_iff_of_nodup (nodup_firsts offers)]
  simp

/-- What a reader has read when it starts with nothing: the first offer for each name. -/
theorem Reader.facts_after {start : Reader} (h : start.facts = []) (steps : List Step) :
    (start.after steps).facts = (firsts ((Walker.mk start []).offers steps)).map Offer.fact := by
  rw [after, Walker.facts_run, h]
  rfl

end WireLayout.Routine

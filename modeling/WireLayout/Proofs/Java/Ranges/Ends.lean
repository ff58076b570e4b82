import WireLayout.Proofs.Java.Ranges.Members

/-! What stands at the ends of the ranges that scanning gives: no blank at either end of a trimmed range, a part of a name
behind the start of a name, and only blanks between a piece and the sign that the piece follows. -/

namespace WireLayout.Java

open WireLayout.Text

variable {text : List Char} {p : Char → Bool} {i stop : Nat} {s : Span}

/-- The octet at the position is of a class. -/
def ShowsAt (text : List Char) (p : Char → Bool) (i : Nat) : Prop := ∃ x, octetAt text i = .ok x ∧ p x = true

def visible (c : Char) : Bool := !isAsciiSpace c

theorem passWhile_spec {j : {j // i ≤ j}} (h : passWhile text p i stop = .ok j) :
    (∀ k, i ≤ k → k < j.1 → ShowsAt text p k) ∧ (j.1 < stop → ShowsAt text (fun c => !p c) j.1) := by
  induction hn : stop - i using Nat.strong_induction_on generalizing i with
  | _ n ih =>
    rw [passWhile] at h
    split at h
    · obtain ⟨x, hx, h⟩ := Except.bind_eq_ok_iff.1 h
      split at h
      · rename_i hp
        obtain ⟨j', hj, h⟩ := Except.bind_eq_ok_iff.1 h
        cases h
        obtain ⟨hpassed, hend⟩ := ih (stop - (i + 1)) (by omega) hj rfl
        refine ⟨fun k hk hkj => ?_, hend⟩
        rcases Nat.eq_or_lt_of_le hk with rfl | hk
        · exact ⟨x, hx, hp⟩
        · exact hpassed k hk hkj
      · rename_i hp
        cases h
        exact ⟨fun k hk hki => absurd hki (Nat.not_lt.2 hk), fun _ => ⟨x, hx, by simpa using hp⟩⟩
    · rename_i hstop
      cases h
      exact ⟨fun k hk hki => absurd hki (Nat.not_lt.2 hk), fun hlt => absurd hlt hstop⟩

theorem backWhile_spec {start : Nat} {j : {j // j ≤ stop}} (h : backWhile text p start stop = .ok j) :
    (start < j.1 → ShowsAt text (fun c => !p c) (j.1 - 1)) ∧ (j.1 < stop → ShowsAt text p j.1) := by
  induction stop with
  | zero =>
    cases h
    exact ⟨fun hlt => absurd hlt (Nat.not_lt_zero start), fun hlt => absurd hlt (lt_irrefl 0)⟩
  | succ stop ih =>
    rw [backWhile] at h
    split at h
    · obtain ⟨x, hx, h⟩ := Except.bind_eq_ok_iff.1 h
      split at h
      · rename_i hp
        obtain ⟨⟨j', hle⟩, hj, h⟩ := Except.bind_eq_ok_iff.1 h
        cases h
        obtain ⟨hbefore, hname⟩ := ih hj
        refine ⟨hbefore, fun _ => ?_⟩
        rcases Nat.eq_or_lt_of_le hle with rfl | hlt
        · exact ⟨x, hx, hp⟩
        · exact hname hlt
      · rename_i hp
        cases h
        exact ⟨fun _ => ⟨x, hx, by simpa using hp⟩, fun hlt => absurd hlt (lt_irrefl _)⟩
    · rename_i hstart
      cases h
      exact ⟨fun hlt => absurd (Nat.le_of_lt_succ hlt) hstart, fun hlt => absurd hlt (lt_irrefl _)⟩

/-- No blank stands at either end of the range, unless it is empty. -/
def Trimmed (text : List Char) (s : Span) : Prop :=
  s.start < s.stop → ShowsAt text visible s.start ∧ ShowsAt text visible (s.stop - 1)

theorem trimRange_spec {r : {r : Span // r.stop ≤ s.stop}} (h : trimRange text s = .ok r) :
    s.start ≤ r.1.start ∧ (∀ k, s.start ≤ k → k < r.1.start → ShowsAt text isAsciiSpace k) ∧ Trimmed text r.1 := by
  obtain ⟨_, _, h⟩ := Except.bind_eq_ok_iff.1 h
  obtain ⟨start, hstart, h⟩ := Except.bind_eq_ok_iff.1 h
  obtain ⟨stop, hstop, h⟩ := Except.bind_eq_ok_iff.1 h
  cases h
  obtain ⟨hblank, hfirst⟩ := passWhile_spec hstart
  have hlast := (backWhile_spec hstop).1
  refine ⟨start.2, hblank, fun hlt => ⟨hfirst (Nat.lt_of_lt_of_le hlt stop.2), hlast hlt⟩⟩

def Follows (text : List Char) (x : Char) (i : Nat) : Prop :=
  ∃ k, k < i ∧ octetAt text k = .ok x ∧ ∀ j, k < j → j < i → ShowsAt text isAsciiSpace j

/-- A piece is not empty and has no blank at its ends; it follows the first position or a separator. -/
structure PieceOf (text : List Char) (sep : Char) (first : Nat) (s : Span) : Prop where
  lt : s.start < s.stop
  trimmed : Trimmed text s
  follows : (first ≤ s.start ∧ ∀ j, first ≤ j → j < s.start → ShowsAt text isAsciiSpace j) ∨ Follows text sep s.start

theorem pieceOf_spanOf {sep : Char} {first start : Nat} {r : {r : Span // r.stop ≤ stop}}
    (hstart : start = first ∨ ∃ k, start = k + 1 ∧ octetAt text k = .ok sep)
    (hr : trimRange text ⟨start, stop⟩ = .ok r) :
    ∀ piece ∈ spanOf r.1, PieceOf text sep first piece := by
  intro piece hpiece
  rw [spanOf] at hpiece
  split at hpiece
  · rename_i hlt
    rw [List.mem_singleton.1 hpiece]
    obtain ⟨hle, hblank, htrimmed⟩ := trimRange_spec hr
    refine ⟨hlt, htrimmed, ?_⟩
    rcases hstart with rfl | ⟨k, rfl, hsep⟩
    · exact .inl ⟨hle, hblank⟩
    · exact .inr ⟨k, hle, hsep, fun j hk hj => hblank j hk hj⟩
  · cases hpiece

theorem pieceSpansFrom_spec {sep : Char} {generics : Bool} {depth : Int} {first start : Nat} {pieces : List Span}
    (h : pieceSpansFrom text sep generics depth start i stop = .ok pieces)
    (hstart : start = first ∨ ∃ k, start = k + 1 ∧ octetAt text k = .ok sep) :
    ∀ piece ∈ pieces, PieceOf text sep first piece := by
  induction hn : stop - i using Nat.strong_induction_on generalizing depth start i pieces with
  | _ n ih =>
    rw [pieceSpansFrom] at h
    split at h
    · obtain ⟨x, hx, h⟩ := Except.bind_eq_ok_iff.1 h
      split at h
      · exact ih _ (by omega) h hstart rfl
      · split at h
        · rename_i hsep
          rw [Bool.and_eq_true, decide_eq_true_eq] at hsep
          obtain ⟨r, hr, h⟩ := Except.bind_eq_ok_iff.1 h
          obtain ⟨more, hmore, h⟩ := Except.bind_eq_ok_iff.1 h
          cases h
          intro piece hmem
          rcases List.mem_append.1 hmem with hmem | hmem
          · exact pieceOf_spanOf hstart hr piece hmem
          · exact ih _ (by omega) hmore (.inr ⟨i, rfl, hsep.1 ▸ hx⟩) rfl piece hmem
        · exact ih _ (by omega) h hstart rfl
    · obtain ⟨r, hr, h⟩ := Except.bind_eq_ok_iff.1 h
      cases h
      exact pieceOf_spanOf hstart hr

theorem pieceRanges_spec {sep : Char} {generics : Bool} {pieces : List Span}
    (h : pieceRanges text sep generics s = .ok pieces) : ∀ piece ∈ pieces, PieceOf text sep s.start piece := by
  obtain ⟨_, _, h⟩ := Except.bind_eq_ok_iff.1 h
  exact pieceSpansFrom_spec h (.inl rfl)

/-- Where the reading ends within annotations, it ends at a parenthesis. -/
theorem argumentsEnd_spec {j : {j : Nat // i ≤ j}} (h : argumentsEnd text i stop = .ok (j, false)) :
    ShowsAt text visible j.1 := by
  obtain ⟨⟨open_, _⟩, _, h⟩ := Except.bind_eq_ok_iff.1 h
  dsimp only at h
  split at h
  · obtain ⟨x, hx, h⟩ := Except.bind_eq_ok_iff.1 h
    split at h
    · rename_i hparen
      split at h
      · cases h
      · cases h
        exact ⟨x, hx, by rw [hparen]; rfl⟩
    · cases h
  · cases h

/-- What follows annotations and modifiers begins with no blank. -/
theorem leadFrom_spec {r : LeadRange} (h : leadFrom text i stop = .ok r) (hlt : r.rest.start < r.rest.stop) :
    ShowsAt text visible r.rest.start := by
  induction hn : stop - i using Nat.strong_induction_on generalizing i r with
  | _ n ih =>
    rw [leadFrom] at h
    obtain ⟨⟨j, hij⟩, hj, h⟩ := Except.bind_eq_ok_iff.1 h
    have hfirst := (passWhile_spec hj).2
    dsimp only at h hfirst
    split at h
    · rename_i hstop
      obtain ⟨c, hc, h⟩ := Except.bind_eq_ok_iff.1 h
      have hlater : ∀ {k : Nat} (more : LeadRange), j < k → leadFrom text k stop = .ok more →
          more.rest.start < more.rest.stop → ShowsAt text visible more.rest.start :=
        fun more hk hmore hmorelt => ih _ (by omega) hmore hmorelt rfl
      split at h
      · obtain ⟨⟨nameEnd, hname⟩, _, h⟩ := Except.bind_eq_ok_iff.1 h
        obtain ⟨name, _, h⟩ := Except.bind_eq_ok_iff.1 h
        split at h
        · cases h
          exact hfirst hstop
        · obtain ⟨⟨⟨next, hnext⟩, goesOn⟩, hargs, h⟩ := Except.bind_eq_ok_iff.1 h
          cases goesOn with
          | true =>
            obtain ⟨more, hmore, h⟩ := Except.bind_eq_ok_iff.1 h
            cases h
            exact hlater more (Nat.lt_of_lt_of_le hname hnext) hmore hlt
          | false =>
            cases h
            exact argumentsEnd_spec hargs
      · split at h
        · obtain ⟨⟨next, hnext⟩, _, h⟩ := Except.bind_eq_ok_iff.1 h
          exact ih (stop - next) (by omega) h hlt rfl
        · obtain ⟨⟨wordEnd, _⟩, _, h⟩ := Except.bind_eq_ok_iff.1 h
          obtain ⟨word, _, h⟩ := Except.bind_eq_ok_iff.1 h
          dsimp only at h
          split at h
          · rename_i hword
            obtain ⟨more, hmore, h⟩ := Except.bind_eq_ok_iff.1 h
            cases h
            exact hlater more hword.1 hmore hlt
          · cases h
            exact hfirst hstop
    · cases h
      dsimp only at hlt
      omega

theorem lt_of_parenthesisAt {depth : Int} {open_ : Nat} (h : parenthesisAt text depth i stop = .ok (some open_)) :
    i < stop := by
  rw [parenthesisAt] at h
  split at h
  · assumption
  · cases h

/-! Parts of a text. -/

theorem splitOctets?_eq_some {n : Nat} {front back : List Char} (h : splitOctets? n text = some (front, back)) :
    text = front ++ back ∧ n = (octetViews front).length := by
  induction text generalizing n front with
  | nil =>
    cases n with
    | zero => cases h; exact ⟨rfl, rfl⟩
    | succ n => cases h
  | cons c text ih =>
    cases n with
    | zero => cases h; exact ⟨rfl, rfl⟩
    | succ n =>
      rw [splitOctets?] at h
      split at h
      · rename_i hfits
        obtain ⟨⟨front', back'⟩, hsplit, heq⟩ := Option.map_eq_some_iff.1 h
        obtain ⟨rfl, rfl⟩ := Prod.mk.inj heq
        obtain ⟨rfl, hn⟩ := ih hsplit
        refine ⟨rfl, ?_⟩
        rw [octetViews_cons, List.length_append, length_octetViews_singleton, ← hn]
        omega
      · cases h

theorem textIn_eq_ok {part : List Char} (h : textIn text s = .ok part) : ∃ before rest,
    text = before ++ (part ++ rest) ∧ s.start = (octetViews before).length ∧
      s.stop = (octetViews before).length + (octetViews part).length := by
  unfold textIn at h
  split at h
  · rename_i part' hpart
    cases h
    obtain ⟨_, hle, hpart⟩ := Option.bind_eq_some_iff.1 hpart
    obtain ⟨⟨before, rest⟩, hbefore, hpart⟩ := Option.bind_eq_some_iff.1 hpart
    obtain ⟨⟨part', after⟩, hcut, hpart⟩ := Option.bind_eq_some_iff.1 hpart
    obtain rfl := Option.some.inj hpart
    obtain ⟨rfl, hstart⟩ := splitOctets?_eq_some hbefore
    obtain ⟨rfl, hstop⟩ := splitOctets?_eq_some hcut
    have hle : s.start ≤ s.stop := by simpa [guard] using hle
    exact ⟨before, after, rfl, hstart, by omega⟩
  · cases h

/-- A part of a text that is not empty takes a range that is not empty. -/
theorem lt_of_textIn {part : List Char} (h : textIn text s = .ok part) (hne : part ≠ []) : s.start < s.stop := by
  obtain ⟨before, rest, -, hstart, hstop⟩ := textIn_eq_ok h
  obtain ⟨c, part, rfl⟩ := List.exists_cons_of_ne_nil hne
  have := c.utf8Size_pos
  rw [octetViews_cons, List.length_append, length_octetViews_singleton] at hstop
  omega

theorem octetAt_of_textIn {part : List Char} (h : textIn text s = .ok part) {k : Nat} {x : Char}
    (hk : (octetViews part)[k]? = some x) : octetAt text (s.start + k) = .ok x := by
  obtain ⟨before, rest, rfl, hstart, -⟩ := textIn_eq_ok h
  have hlt := (List.getElem?_eq_some_iff.1 hk).1
  rw [octetAt, octetViews_append, octetViews_append, hstart, List.getElem?_append_right (Nat.le_add_right _ _),
    Nat.add_sub_cancel_left, List.getElem?_append_left hlt, hk]

/-- An assignment sign stands at the index of an assignment. -/
theorem assignmentIndex_spec {shown : List Char} {k : Nat} (h : assignmentIndex shown = some k) :
    (octetViews shown)[k]? = some '=' := by
  obtain ⟨⟨before, after⟩, hsplit, rfl⟩ := Option.map_eq_some_iff.1 h
  obtain ⟨sign, hsign, hcells⟩ := assignmentFrom_eq_some hsplit
  have hviews : octetViews shown = views before ++ sign.view :: views after := by
    calc octetViews shown = views (octetCells shown) := views_codes.symm
      _ = views before ++ sign.view :: views after := by
        rw [hcells]
        simp [views]
  rw [hviews, hsign, List.getElem?_append_right (by simp [views])]
  simp [views]

end WireLayout.Java

import WireLayout.Java.Positions
import WireLayout.Proofs.Java.Ranges.Masked
import WireLayout.Proofs.Java.Ranges.Reader

/-! Balance and partners. The check with a stack of three kinds accepts the texts whose brackets are a well-nested word,
and in such a text the search with a counter of one kind finds for each opening bracket the one that closes it. -/

namespace WireLayout.Java

open WireLayout.Text

def bracketPairs : List (Char × Char) := [('(', ')'), ('[', ']'), ('{', '}')]

def isBracket (c : Char) : Bool := bracketPairs.any fun p => c = p.1 || c = p.2

/-- Words of brackets in which every bracket has its partner. -/
inductive WellNested : List Char → Prop where
  | nil : WellNested []
  | group {o c : Char} {inside rest : List Char} (hpair : (o, c) ∈ bracketPairs) (hinside : WellNested inside)
      (hrest : WellNested rest) : WellNested (o :: (inside ++ c :: rest))

variable {α : Type}

/-- The bracket that opens at one position closes at the other: the brackets between them are a well-nested word. -/
def ArePartners (view : α → Char) (xs : List α) (i j : Nat) : Prop :=
  ∃ before o inside c after, xs = before ++ o :: (inside ++ c :: after) ∧ i = before.length ∧
    j = i + 1 + inside.length ∧ (view o, view c) ∈ bracketPairs ∧ WellNested ((inside.map view).filter isBracket)

/-- The search for a partner with a counter. The counter cannot fall below zero: where it would, the search breaks off
with the position. -/
def countFrom (view : α → Char) (opener closer : Char) : Nat → Nat → List α → Except Nat (Option Nat)
  | _, _, [] => .ok none
  | depth, i, x :: xs =>
    if view x = opener then countFrom view opener closer (depth + 1) (i + 1) xs
    else if view x = closer then
      match depth with
      | 0 => .error i
      | 1 => .ok (some i)
      | depth + 2 => countFrom view opener closer (depth + 1) (i + 1) xs
    else countFrom view opener closer depth (i + 1) xs

/-- The search with a counter, from an opening bracket on. -/
def countMatching (view : α → Char) (xs : List α) (i : Nat) (opener closer : Char) : Except Nat (Option Nat) :=
  if xs[i]?.map view = some opener then countFrom view opener closer 0 i (xs.drop i) else .ok none

variable {view : α → Char} {xs ys rest : List α} {o c : Char} {i j : Nat}

/-! Well-nested words. -/

theorem closer?_eq_some_iff : closer? o = some c ↔ (o, c) ∈ bracketPairs := by
  constructor
  · intro h
    rcases closer?_eq_some h with ⟨rfl, rfl⟩ | ⟨rfl, rfl⟩ | ⟨rfl, rfl⟩ <;> decide
  · intro h
    simp only [bracketPairs, List.mem_cons, Prod.mk.injEq, List.not_mem_nil, or_false] at h
    rcases h with ⟨rfl, rfl⟩ | ⟨rfl, rfl⟩ | ⟨rfl, rfl⟩ <;> rfl

theorem isBracket_eq (c : Char) : isBracket c = ((closer? c).isSome || isCloser c) := by
  simp only [isBracket, bracketPairs, closer?, isCloser]
  grind

theorem balancedFrom_filter (stack cs : List Char) : balancedFrom stack (cs.filter isBracket) = balancedFrom stack cs := by
  induction cs generalizing stack with
  | nil => rfl
  | cons c cs ih =>
    rw [List.filter_cons, isBracket_eq]
    cases hopen : closer? c with
    | some close =>
      rw [Option.isSome_some, Bool.true_or, if_pos rfl, balancedFrom_opener hopen, balancedFrom_opener hopen, ih]
    | none =>
      cases hclose : isCloser c with
      | false => simp only [Option.isSome_none, Bool.or_false, Bool.false_eq_true, if_false, balancedFrom_plain hopen hclose, ih]
      | true =>
        simp only [Option.isSome_none, Bool.or_true, if_true]
        cases stack with
        | nil => rw [balancedFrom_closer_nil hopen hclose, balancedFrom_closer_nil hopen hclose]
        | cons close stack => rw [balancedFrom_closer hopen hclose, balancedFrom_closer hopen hclose, ih]

theorem WellNested.balanced {w : List Char} (h : WellNested w) : Balanced id w := by
  induction h with
  | nil => exact .nil
  | group hpair _ _ ihinside ihrest => exact .group (closer?_eq_some_iff.2 hpair) ihinside ihrest

theorem Balanced.wellNested (h : Balanced view xs) : WellNested ((xs.map view).filter isBracket) := by
  induction h with
  | nil => exact .nil
  | plain hopen hclose _ ih =>
    rw [List.map_cons, List.filter_cons, isBracket_eq, hopen, hclose]
    exact ih
  | @group o c _ _ hpair _ _ ihinside ihrest =>
    have hopener : isBracket (view o) = true := by rw [isBracket_eq, hpair]; rfl
    have hcloser : isBracket (view c) = true := by rw [isBracket_eq, isCloser_closer hpair, Bool.or_true]
    rw [List.map_cons, List.map_append, List.map_cons, List.filter_cons_of_pos hopener, List.filter_append,
      List.filter_cons_of_pos hcloser]
    exact .group (closer?_eq_some_iff.1 hpair) ihinside ihrest

/-- The check accepts the texts whose brackets are a well-nested word. -/
theorem isBalanced_iff_wellNested (cs : List Char) : isBalanced cs = true ↔ WellNested (cs.filter isBracket) := by
  constructor
  · intro h
    rw [← List.map_id cs] at h
    simpa using (isBalanced_map.1 h).wellNested
  · intro h
    have hword := isBalanced_map.2 h.balanced
    rw [List.map_id, isBalanced, balancedFrom_filter] at hword
    exact hword

theorem balanced_iff_wellNested : Balanced view xs ↔ WellNested ((xs.map view).filter isBracket) := by
  rw [← isBalanced_map, isBalanced_iff_wellNested]

/-! The partner of a bracket. -/

/-- A bracket has one partner: of two candidates the later one would have the earlier one unmatched before it. -/
theorem ArePartners.unique {k : Nat} (hj : ArePartners view xs i j) (hk : ArePartners view xs i k) : j = k := by
  -- by symmetry the first candidate is not behind the second
  wlog hle : j ≤ k generalizing j k
  · exact (this hk hj (Nat.le_of_not_le hle)).symm
  obtain ⟨before, o, inside, c, after, rfl, rfl, rfl, hpair, hinside⟩ := hj
  obtain ⟨before', o', inside', c', after', hxs, hbefore, rfl, hpair', hinside'⟩ := hk
  obtain ⟨rfl, hfrom⟩ := List.append_inj hxs hbefore
  obtain ⟨rfl, hrest⟩ := List.cons.inj hfrom
  rcases List.append_eq_append_iff.1 hrest with ⟨more, rfl, hmore⟩ | ⟨more, rfl, -⟩
  · cases more with
    | nil => simp
    | cons d more =>
      obtain ⟨rfl, -⟩ := List.cons.inj hmore
      have hclosed := (balanced_iff_wellNested.2 hinside).of_append (balanced_iff_wellNested.2 hinside')
      have hcloser := closer?_eq_some_iff.2 hpair
      cases hclosed with
      | plain _ hclose _ =>
        rw [isCloser_closer hcloser] at hclose
        cases hclose
      | group hopen _ _ =>
        rw [closer?_closer hcloser] at hopen
        cases hopen
  · rw [List.length_append] at hle
    rw [List.length_append]
    omega

theorem countFrom_eq {depth : Nat} (hdepth : 1 ≤ depth) (i : Nat) (xs : List α) :
    countFrom view o c depth i xs = .ok ((closing view o c depth xs).map fun p => i + p.1.length) := by
  induction xs generalizing depth i with
  | nil => rfl
  | cons x xs ih =>
    have hlater : ∀ {d : Nat}, 1 ≤ d → countFrom view o c d (i + 1) xs =
        .ok (((closing view o c d xs).map fun p => (x :: p.1, p.2)).map fun p => i + p.1.length) := by
      intro d hd
      rw [ih hd, Option.map_map]
      simp [Function.comp_def, Nat.add_assoc, Nat.add_comm 1]
    rw [countFrom.eq_def, closing]
    simp only
    split
    · exact hlater (Nat.le_succ_of_le hdepth)
    · split
      · obtain _ | _ | depth := depth
        · omega
        · rfl
        · exact hlater (Nat.succ_pos depth)
      · exact hlater hdepth

/-- The counter never falls below zero, in whatever text. -/
theorem countMatching_eq (view : α → Char) (xs : List α) (i : Nat) (o c : Char) :
    countMatching view xs i o c = .ok (findMatching view xs i o c) := by
  rw [countMatching, findMatching]
  cases hdrop : xs.drop i with
  | nil =>
    have hnone : xs[i]? = none := by rw [← List.head?_drop, hdrop, List.head?_nil]
    rw [hnone]
    rfl
  | cons x rest =>
    have hsome : xs[i]? = some x := by rw [← List.head?_drop, hdrop, List.head?_cons]
    simp only [hsome, Option.map_some, Option.some.injEq]
    split
    · rename_i hx
      simp only [countFrom, if_pos hx, countFrom_eq le_rfl]
    · rfl

/-- In a balanced sequence the search finds for an opening bracket the one bracket that is its partner. -/
theorem Balanced.findMatching_eq (h : Balanced view xs) (hi : xs[i]?.map view = some o) (hpair : closer? o = some c) :
    ∃ j, findMatching view xs i o c = some j ∧ i < j ∧ (∀ k, ArePartners view xs i k ↔ k = j) ∧
      Balanced view ((xs.drop (i + 1)).take (j - (i + 1))) := by
  obtain ⟨x, hx, rfl⟩ := Option.map_eq_some_iff.1 hi
  obtain ⟨hlt, rfl⟩ := List.getElem?_eq_some_iff.1 hx
  have hparts : xs = xs.take i ++ xs[i] :: xs.drop (i + 1) := by rw [List.getElem_cons_drop, List.take_append_drop]
  have hlength : (xs.take i).length = i := List.length_take_of_le hlt.le
  rw [hparts] at h
  obtain ⟨inside, close, after, hrest, hinside, rfl⟩ := h.exists_partner hpair
  have hpartners : ArePartners view xs i (i + 1 + inside.length) :=
    ⟨xs.take i, xs[i], inside, close, after, by rw [← hrest]; exact hparts, hlength.symm, rfl,
      closer?_eq_some_iff.1 hpair, hinside.wellNested⟩
  refine ⟨i + 1 + inside.length, ?_, by omega, ?_, ?_⟩
  · have hclosing : closing view (view xs[i]) (view close) 1 (inside ++ close :: after) = some (inside, after) :=
      closing_balanced hinside hpair
    have hdrop : xs.drop i = xs[i] :: (inside ++ close :: after) := by rw [← hrest, List.getElem_cons_drop]
    simp only [findMatching, hdrop, if_true, hclosing, Option.map_some]
  · intro k
    constructor
    · intro hk
      exact hk.unique hpartners
    · rintro rfl
      exact hpartners
  · rw [hrest, Nat.add_sub_cancel_left, List.take_left]
    exact hinside

/-! The readers of ranges. -/

/-- In the readers that search for a partner it does not matter what is done where there is none. -/
structure FindsPartners (t : Texts) : Prop where
  arguments (i stop : Nat) (otherwise : Checked ({j : Nat // i ≤ j} × Bool)) :
    argumentsEnd t.masked i stop = do
      let ⟨open_, hopen⟩ ← passWhile t.masked isAsciiSpace i stop
      if open_ < stop then
        if (← octetAt t.masked open_) = '(' then
          match partner? t.masked open_ '(' ')' with
          | none => otherwise
          | some ⟨close, hclose⟩ => return (⟨close + 1, Nat.le_succ_of_le (hopen.trans hclose.le)⟩, true)
        else return (⟨open_, hopen⟩, true)
      else return (⟨open_, hopen⟩, true)
  segments (start i stop : Nat) (otherwise : Checked (List SegmentRange)) :
    segmentRangesFrom t.masked start i stop = do
      if i < stop then
        let c ← octetAt t.masked i
        if c = ';' then return .statement ⟨start, i⟩ :: (← segmentRangesFrom t.masked (i + 1) (i + 1) stop)
        else match closer? c with
        | none => segmentRangesFrom t.masked start (i + 1) stop
        | some closer =>
          match partner? t.masked i c closer with
          | none => otherwise
          | some ⟨close, _⟩ =>
            if c = '{' then
              if (assignmentIndex (← textIn t.masked ⟨start, i⟩)).isSome then
                segmentRangesFrom t.masked start (close + 1) stop
              else
                return .block ⟨start, i⟩ ⟨i + 1, close⟩ ::
                  (← segmentRangesFrom t.masked (close + 1) (close + 1) stop)
            else segmentRangesFrom t.masked start (close + 1) stop
      else return []
  constantsEnd (i stop : Nat) (otherwise : Checked {j : Nat // i ≤ j ∨ j = stop}) :
    constantsEndFrom t.masked i stop = do
      if i < stop then
        let c ← octetAt t.masked i
        if c = ';' then return ⟨i, .inl le_rfl⟩
        else match closer? c with
        | none =>
          let ⟨j, hj⟩ ← constantsEndFrom t.masked (i + 1) stop
          return ⟨j, hj.imp_left Nat.le_of_succ_le⟩
        | some closer =>
          match partner? t.masked i c closer with
          | none => otherwise
          | some ⟨close, hclose⟩ =>
            let ⟨j, hj⟩ ← constantsEndFrom t.masked (close + 1) stop
            return ⟨j, hj.imp_left fun hle => (Nat.lt_of_lt_of_le hclose (Nat.le_of_succ_le hle)).le⟩
      else return ⟨stop, .inr rfl⟩
  components (i stop : Nat) (otherwise : Checked (Option Span)) :
    components t.masked i stop = do
      if i < stop then
        if (← octetAt t.masked i) = '(' then
          match partner? t.masked i '(' ')' with
          | none => otherwise
          | some ⟨close, _⟩ => return some ⟨i + 1, close⟩
        else return none
      else return none
  /-- `found` is what the reader does with the places of the two parentheses. -/
  method (owner : String) (header : Span) (body : Option Span) :
    ∃ found : LeadRange → Nat → Nat → Checked (Option Method), ∀ otherwise : Checked (Option Method),
      t.method owner header body = do
        let lead ← t.lead header
        match ← parenthesisAt t.masked 0 lead.rest.start lead.rest.stop with
        | none => return none
        | some open_ =>
          match partner? t.masked open_ '(' ')' with
          | none => otherwise
          | some ⟨close, _⟩ => found lead open_ close
  enumConstant (piece : Span) (otherwise : Checked (Option EnumConstant)) :
    t.enumConstant piece = do
      let lead ← t.lead piece
      let nameEnd ← passWhile t.masked isIdent lead.rest.start piece.stop
      if nameEnd = lead.rest.start then return none
      let name := String.ofList (← textIn t.masked ⟨lead.rest.start, nameEnd⟩)
      let ⟨open_, _⟩ ← passWhile t.masked isAsciiSpace nameEnd piece.stop
      if open_ < piece.stop then
        if (← octetAt t.masked open_) = '(' then
          match partner? t.masked open_ '(' ')' with
          | none => otherwise
          | some ⟨close, _⟩ =>
            let arguments ← pieceRanges t.masked ',' false ⟨open_ + 1, close⟩
            return some ⟨name, ← arguments.mapM fun a => (String.ofList ∘ trim isSpace) <$> textIn t.source a⟩
        else return some ⟨name, []⟩
      else return some ⟨name, []⟩

section

variable {text : List Char}

theorem map_view_octets (text : List Char) : (octets text).map Octet.view = octetViews text := by
  have hview : Octet.view = (fun b : UInt8 => Char.ofNat b.toNat) ∘ Prod.fst := rfl
  rw [octets, hview, ← List.map_map, List.zipIdx_map_fst, octetViews]

theorem isBalanced_octetViews (text : List Char) : isBalanced (octetViews text) = isBalanced text := by
  have hcells := isBalanced_maskedText (codes text)
  rw [maskedText_codes, views_codes] at hcells
  exact hcells

theorem findMatching_octetViews (text : List Char) (i : Nat) (o c : Char) :
    findMatching id (octetViews text) i o c = (partner? text i o c).map Subtype.val := by
  rw [findMatching, partner?]
  cases (octetViews text).drop i with
  | nil => rfl
  | cons x rest =>
    simp only [id_eq]
    split
    · rw [Option.map_map]
      rfl
    · rfl

theorem octetAt_eq_ok_iff : octetAt text i = .ok o ↔ (octetViews text)[i]? = some o := by
  unfold octetAt
  cases (octetViews text)[i]? with
  | none => simp
  | some c => simp

/-- In a balanced text each search for a partner finds one. -/
theorem exists_partner? (h : isBalanced text = true) (hi : octetAt text i = .ok o) (hpair : closer? o = some c) :
    ∃ j, partner? text i o c = some j := by
  rw [← isBalanced_octetViews, ← List.map_id (octetViews text), isBalanced_map] at h
  have hget : (octetViews text)[i]?.map id = some o := by rw [Option.map_id_fun, octetAt_eq_ok_iff.1 hi]; rfl
  obtain ⟨j, hj, -⟩ := h.findMatching_eq hget hpair
  rw [findMatching_octetViews] at hj
  obtain ⟨p, hp, -⟩ := Option.map_eq_some_iff.1 hj
  exact ⟨p, hp⟩

theorem octetAt_of_parenthesisAt {depth : Int} {stop : Nat} (h : parenthesisAt text depth i stop = .ok (some j)) :
    octetAt text j = .ok '(' := by
  induction hn : stop - i using Nat.strong_induction_on generalizing depth i with
  | _ n ih =>
    rw [parenthesisAt] at h
    split at h
    · obtain ⟨x, hx, h⟩ := Except.bind_eq_ok_iff.1 h
      split at h
      · rename_i hopen
        rw [Bool.and_eq_true, decide_eq_true_eq] at hopen
        obtain ⟨rfl, -⟩ := hopen
        cases h
        exact hx
      · exact ih (stop - (i + 1)) (by omega) h rfl
    · cases h

/-- In a balanced text no reader comes to a bracket without a partner. -/
theorem findsPartners_of_isBalanced (h : isBalanced text = true) (source : List Char) :
    FindsPartners ⟨text, source⟩ where
  arguments i stop otherwise := by
    rw [argumentsEnd]
    refine bind_congr fun found => ?_
    obtain ⟨open_, hle⟩ := found
    dsimp only
    split
    · refine Except.bind_congr_of_ok fun x hx => ?_
      split
      · subst x
        obtain ⟨j, hj⟩ := exists_partner? h hx rfl
        rw [hj]
      · rfl
    · rfl
  segments start i stop otherwise := by
    rw [segmentRangesFrom]
    split
    · refine Except.bind_congr_of_ok fun x hx => ?_
      split
      · rfl
      · cases hpair : closer? x with
        | none => rfl
        | some c =>
          obtain ⟨j, hj⟩ := exists_partner? h hx hpair
          simp only [hj]
    · rfl
  constantsEnd i stop otherwise := by
    rw [constantsEndFrom]
    split
    · refine Except.bind_congr_of_ok fun x hx => ?_
      split
      · rfl
      · cases hpair : closer? x with
        | none => rfl
        | some c =>
          obtain ⟨j, hj⟩ := exists_partner? h hx hpair
          simp only [hj]
    · rfl
  components i stop otherwise := by
    rw [components]
    split
    · refine Except.bind_congr_of_ok fun x hx => ?_
      split
      · subst x
        obtain ⟨j, hj⟩ := exists_partner? h hx rfl
        simp only [hj]
        rfl
      · rfl
    · rfl
  method owner header body := by
    -- the reader itself shows what `found` is, in the one case in which it comes to it
    apply Exists.intro
    intro otherwise
    rw [Texts.method]
    refine bind_congr fun lead => Except.bind_congr_of_ok fun found hfound => ?_
    cases found with
    | none => rfl
    | some open_ =>
      obtain ⟨⟨close, hclose⟩, hj⟩ := exists_partner? h (octetAt_of_parenthesisAt hfound) rfl
      simp only [hj]
      rfl
  enumConstant piece otherwise := by
    rw [Texts.enumConstant]
    refine bind_congr fun lead => bind_congr fun nameEnd => ?_
    split
    · rfl
    · refine bind_congr fun name => bind_congr fun found => ?_
      obtain ⟨open_, hle⟩ := found
      dsimp only
      split
      · refine Except.bind_congr_of_ok fun x hx => ?_
        split
        · subst x
          obtain ⟨j, hj⟩ := exists_partner? h hx rfl
          simp only [hj]
        · rfl
      · rfl

end

/-- The check and the search agree. -/
theorem partners_of_isBalanced (text : List Char) :
    (isBalanced text = true ↔ WellNested (text.filter isBracket)) ∧
    (∀ i o c, countMatching Octet.view (octets text) i o c = .ok (findMatching Octet.view (octets text) i o c)) ∧
    (isBalanced text = true →
      (∀ i o c, (octets text)[i]?.map Octet.view = some o → closer? o = some c →
        ∃ j, findMatching Octet.view (octets text) i o c = some j ∧ i < j ∧
          (∀ k, ArePartners Octet.view (octets text) i k ↔ k = j) ∧
          isBalanced ((slice (octets text) (i + 1) j).map Octet.view) = true) ∧
      ∀ source, FindsPartners ⟨text, source⟩) := by
  refine ⟨isBalanced_iff_wellNested text, fun i o c => countMatching_eq Octet.view (octets text) i o c, fun h => ?_⟩
  refine ⟨fun i o c hi hpair => ?_, findsPartners_of_isBalanced h⟩
  rw [← isBalanced_octetViews, ← map_view_octets, isBalanced_map] at h
  obtain ⟨j, hj, hlt, hpartners, hinside⟩ := h.findMatching_eq hi hpair
  exact ⟨j, hj, hlt, hpartners, isBalanced_map.2 hinside⟩

end WireLayout.Java

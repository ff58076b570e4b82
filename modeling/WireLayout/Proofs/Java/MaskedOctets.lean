import WireLayout.Proofs.Java.Ranges.States
import WireLayout.Proofs.Text.Utf8

/-! The mask over the octets of a text. It runs over octets as it does over characters, and what it leaves are the
octets of the masked text: each octet stays or becomes a space, characters are kept or blanked as a whole although an
escape passes over one octet only, and a second run changes nothing. -/

namespace WireLayout.Java

open WireLayout.Text

/-- The mask over octets, each read as the character of its number; one that is hidden becomes a space. -/
def maskOctets (octets : List UInt8) : List UInt8 :=
  (cells (octets.map fun b => Char.ofNat b.toNat)).map fun c => UInt8.ofNat c.view.toNat

/-- An octet on one side of a position is no space. -/
def VisibleBeside (octets : List UInt8) (i : Nat) : Prop :=
  (∃ b, octets[i]? = some b ∧ b ≠ 0x20) ∨ 0 < i ∧ ∃ b, octets[i - 1]? = some b ∧ b ≠ 0x20

variable {text rest cs front back : List Char} {state : MaskState} {c x : Char}

/-! What the mask sees ahead of it. -/

theorem octetViews_cons_ascii (h : c.toNat < 128) : octetViews (c :: cs) = c :: octetViews cs := by
  rw [octetViews_cons, octetViews_ascii h]
  rfl

/-- The octets of a character above ASCII, of which there is one at least. -/
theorem exists_octets_other (h : 128 ≤ c.toNat) :
    ∃ y ys, octetViews [c] = y :: ys ∧ 128 ≤ y.toNat ∧ ∀ z ∈ ys, 128 ≤ z.toNat := by
  have hlength : 0 < (octetViews [c]).length := by
    rw [length_octetViews_singleton]
    exact c.utf8Size_pos
  obtain ⟨y, ys, hys⟩ := List.exists_cons_of_ne_nil (List.length_pos_iff.1 hlength)
  have hall := octetViews_other h
  rw [hys] at hall
  exact ⟨y, ys, hys, hall y List.mem_cons_self, fun z hz => hall z (List.mem_cons_of_mem y hz)⟩

/-- A character of ASCII stands in front of the octets if it stands in front of the text. -/
theorem octetViews_eq_cons_iff (hx : x.toNat < 128) {os : List Char} :
    octetViews cs = x :: os ↔ ∃ ds, cs = x :: ds ∧ octetViews ds = os := by
  constructor
  · intro h
    cases cs with
    | nil => cases h
    | cons c cs =>
      by_cases hc : c.toNat < 128
      · rw [octetViews_cons_ascii hc] at h
        obtain ⟨rfl, rfl⟩ := List.cons.inj h
        exact ⟨cs, rfl, rfl⟩
      · obtain ⟨y, ys, hys, hy, -⟩ := exists_octets_other (Nat.le_of_not_lt hc)
        rw [octetViews_cons, hys] at h
        obtain ⟨rfl, -⟩ := List.cons.inj h
        omega
  · rintro ⟨ds, rfl, rfl⟩
    exact octetViews_cons_ascii hx

theorem head?_octetViews (hx : x.toNat < 128) : (octetViews cs).head? = some x ↔ cs.head? = some x := by
  rw [List.head?_eq_some_iff, List.head?_eq_some_iff]
  constructor
  · rintro ⟨os, hos⟩
    obtain ⟨ds, rfl, -⟩ := (octetViews_eq_cons_iff hx).1 hos
    exact ⟨ds, rfl⟩
  · rintro ⟨ds, rfl⟩
    exact ⟨octetViews ds, octetViews_cons_ascii hx⟩

theorem twoQuotes_octetViews (cs : List Char) : twoQuotes (octetViews cs) = twoQuotes cs := by
  have hquote : ('"' : Char).toNat < 128 := by decide
  rw [Bool.eq_iff_iff, twoQuotes_eq_true, twoQuotes_eq_true]
  constructor
  · rintro ⟨os, hos⟩
    obtain ⟨ds, rfl, hds⟩ := (octetViews_eq_cons_iff hquote).1 hos
    obtain ⟨es, rfl, -⟩ := (octetViews_eq_cons_iff hquote).1 hds
    exact ⟨es, rfl⟩
  · rintro ⟨ds, rfl⟩
    exact ⟨octetViews ds, by rw [octetViews_cons_ascii hquote, octetViews_cons_ascii hquote]⟩

theorem isEmpty_octetViews (cs : List Char) : (octetViews cs).isEmpty = cs.isEmpty := by
  cases cs with
  | nil => rfl
  | cons c cs =>
    have hpos := c.utf8Size_pos
    rw [Bool.eq_iff_iff, List.isEmpty_iff_length_eq_zero, octetViews_cons, List.length_append,
      length_octetViews_singleton]
    simp only [List.isEmpty_cons, Bool.false_eq_true, iff_false]
    omega

/-- The last character of the hidden mark that stands between code and a comment. No such mark leads into a literal. -/
def Region.markEnd? : Region → Option Char
  | .code | .lineComment => some '/'
  | .blockComment => some '*'
  | .string | .character | .textBlock => none

namespace MaskState

/-- In front of the octets of a text the mask does what it does in front of the text. -/
theorem step_octetViews (c : Char) (rest : List Char) : state.step c (octetViews rest) = state.step c rest := by
  have hslash : (octetViews rest).head? = some '/' ↔ rest.head? = some '/' := head?_octetViews (by decide)
  have hstar : (octetViews rest).head? = some '*' ↔ rest.head? = some '*' := head?_octetViews (by decide)
  cases state with
  | passing left shown region => cases left <;> rfl
  | inside region =>
    cases region <;>
      simp only [step, step.literal, hslash, hstar, twoQuotes_octetViews, isEmpty_octetViews]

theorem step_other (hc : 128 ≤ c.toNat) (region : Region) (rest : List Char) :
    (MaskState.inside region).step c rest = (decide (region = .code), .inside region) := by
  have hne : ∀ v : Char, v.toNat < 128 → c ≠ v := by
    rintro v hv rfl
    omega
  have hslash := hne '/' (by decide)
  have hstar := hne '*' (by decide)
  have hdouble := hne '"' (by decide)
  have hsingle := hne '\'' (by decide)
  have hbackslash := hne '\\' (by decide)
  have hnewline := hne '\n' (by decide)
  cases region <;> simp [step, step.literal, *]

/-- A character that is passed over and hidden ends a mark, or it is the only one that is escaped. -/
def HidesOne : MaskState → List Char → Prop
  | .passing left false region, rest => left = 0 ∧ ∀ x ∈ region.markEnd?, rest.head? = some x
  | _, _ => True

theorem HidesOne.step (h : state.HidesOne (c :: rest)) : (state.step c rest).2.HidesOne rest := by
  cases state with
  | passing left shown region =>
    cases left with
    | zero => trivial
    | succ left =>
      cases shown with
      | true => trivial
      | false => exact absurd h.1 (Nat.succ_ne_zero left)
  | inside region =>
    cases region <;> rw [MaskState.step] <;> try rw [step.literal]
    all_goals split_ifs <;> first | trivial | simp_all [HidesOne, Region.markEnd?]

end MaskState

/-! The mask over octets. -/

theorem views_cellsFrom_cons (state : MaskState) (c : Char) (rest : List Char) :
    views (cellsFrom state (c :: rest)) = (Cell.mk c (state.step c rest).1).view ::
      views (cellsFrom (state.step c rest).2 rest) := rfl

theorem views_cellsFrom_others {os : List Char} (h : ∀ x ∈ os, 128 ≤ x.toNat) (region : Region) (rest : List Char) :
    views (cellsFrom (.inside region) (os ++ rest)) =
      (if region = .code then os else List.replicate os.length ' ') ++ views (cellsFrom (.inside region) rest) := by
  induction os with
  | nil => simp
  | cons x os ih =>
    have hx := h x List.mem_cons_self
    have hos := ih fun y hy => h y (List.mem_cons_of_mem x hy)
    rw [List.cons_append, views_cellsFrom_cons, MaskState.step_other hx, hos]
    by_cases hcode : region = .code <;> simp [Cell.view, hcode, List.replicate_succ]

/-- Octet by octet the mask keeps and hides what it keeps and hides of the characters: an octet above ASCII is no mark,
and behind a backslash the octets that it does not pass over are hidden with the rest of the literal. -/
theorem views_cellsFrom_octetViews (hfits : state.Fits text) (hhides : state.HidesOne text) :
    views (cellsFrom state (octetViews text)) = octetViews (maskedText (cellsFrom state text)) := by
  induction text generalizing state with
  | nil => rfl
  | cons c text ih =>
    have hrest := ih hfits.step hhides.step
    rw [cellsFrom, maskedText_cons, octetViews_append, ← hrest]
    by_cases hc : c.toNat < 128
    · have hcell : octetViews (Cell.mk c (state.step c text).1).masked = [(Cell.mk c (state.step c text).1).view] := by
        have hsize : c.utf8Size = 1 := by rw [← length_octetViews_singleton, octetViews_ascii hc, List.length_singleton]
        rw [Cell.masked, Cell.view]
        split
        · exact octetViews_ascii hc
        · simp [hsize, octetViews_ascii (show ' '.toNat < 128 by decide)]
      rw [octetViews_cons_ascii hc, views_cellsFrom_cons, MaskState.step_octetViews, hcell, List.singleton_append]
    · have hother : 128 ≤ c.toNat := Nat.le_of_not_lt hc
      cases state with
      | inside region =>
        rw [octetViews_cons, views_cellsFrom_others (octetViews_other hother), MaskState.step_other hother,
          Cell.masked, length_octetViews_singleton]
        by_cases hcode : region = .code <;> simp [hcode, octetViews_blanks]
      | passing left shown region =>
        cases shown with
        | true =>
          obtain rfl : '"' = c := (List.cons_prefix_cons.1 hfits.2).1
          exact absurd (by decide) hc
        | false =>
          obtain ⟨rfl, hmark⟩ := hhides
          have hregion : region ≠ .code := by
            intro hcode
            obtain rfl : c = '/' := by simpa [hcode, Region.markEnd?] using hmark
            exact absurd (by decide) hc
          obtain ⟨y, ys, hys, -, hothers⟩ := exists_octets_other hother
          have hlength : c.utf8Size = ys.length + 1 := by
            rw [← length_octetViews_singleton, hys, List.length_cons]
          have hmasked : octetViews (Cell.mk c false).masked = ' ' :: List.replicate ys.length ' ' := by
            rw [Cell.masked, if_neg Bool.false_ne_true, octetViews_blanks, hlength, List.replicate_succ]
          rw [octetViews_cons, hys, List.cons_append, views_cellsFrom_cons]
          simp only [MaskState.step]
          rw [views_cellsFrom_others hothers, if_neg hregion, hmasked]
          rfl

theorem views_cells_octetViews (text : List Char) : views (cells (octetViews text)) = octetViews (mask text) := by
  have hfits : (MaskState.inside .code).Fits text := trivial
  exact views_cellsFrom_octetViews hfits trivial

/-! The mask over what it shows. -/

namespace MaskState

/-- The state over what is shown, where comments and escapes have become blanks. -/
def overShown : MaskState → MaskState
  | .passing left true region => .passing left true region
  | .inside region | .passing _ false region => .inside region.uncommented

theorem step_space {region : Region} (hregion : region.uncommented = region) (rest : List Char) :
    (MaskState.inside region).step ' ' rest = (decide (region = .code), .inside region) := by
  cases region <;> simp_all [step, step.literal, Region.uncommented]

theorem overShown_of_hidden (h : (state.step c rest).1 = false) : ∃ region, region.uncommented = region ∧
    state.overShown = .inside region ∧ (state.step c rest).2.overShown = .inside region := by
  cases state with
  | passing left shown region =>
    obtain rfl : shown = false := by cases left <;> exact h
    refine ⟨region.uncommented, by cases region <;> rfl, rfl, ?_⟩
    cases left <;> cases region <;> rfl
  | inside region =>
    refine ⟨region.uncommented, by cases region <;> rfl, rfl, ?_⟩
    cases region <;> rw [step] at h ⊢ <;> try rw [step.literal] at h ⊢
    all_goals split_ifs at h ⊢ <;> rfl

theorem Fits.quotes_of_step {region : Region} (h : state.Fits (c :: rest))
    (hstep : (state.step c rest).2 = .passing 1 true region) : twoQuotes rest = true := by
  have hfits := h.step
  rw [hstep] at hfits
  obtain ⟨more, rfl⟩ := hfits.2
  rfl

/-- The one character of a literal that is shown is the quote at its end. -/
theorem literal_overShown {region : Region} {quote : Char} (rest' : List Char) (hquote : quote ≠ '\\')
    (h : (step.literal region quote c rest).1 = true) :
    step.literal region quote c rest' = (true, .inside .code) ∧ (step.literal region quote c rest).2 = .inside .code := by
  rw [step.literal] at h ⊢
  split_ifs at h with hescape hend
  have hc : c ≠ '\\' := by
    rintro rfl
    simp [Ne.symm hquote] at hend
  rw [step.literal, if_neg (by simp [hc]), if_pos hend]
  exact ⟨rfl, by rw [if_neg hescape]⟩

/-- What is shown is shown again: a mark stands where one stood, and blanks make none. -/
theorem step_overShown {rest' : List Char} (hfits : state.Fits (c :: rest)) (h : (state.step c rest).1 = true)
    (hhead : ∀ v, v ≠ ' ' → rest'.head? = some v → rest.head? = some v)
    (hquotes : twoQuotes rest' = true → twoQuotes rest = true)
    (hmark : ∀ region, (state.step c rest).2 = .passing 1 true region → twoQuotes rest' = true) :
    state.overShown.step c rest' = (true, (state.step c rest).2.overShown) := by
  cases state with
  | passing left shown region =>
    obtain rfl : shown = true := by cases left <;> exact h
    cases left with
    | zero => rcases hfits.1 with rfl | rfl <;> rfl
    | succ left => rfl
  | inside region =>
    cases region with
    | code =>
      have hslash := hhead '/' (by decide)
      have hstar := hhead '*' (by decide)
      show (MaskState.inside .code).step c rest' = _
      rw [step] at h hmark
      rw [step, step]
      split_ifs at h hmark ⊢ <;> simp_all [overShown, Region.uncommented]
    | lineComment =>
      rw [step] at h ⊢
      split_ifs at h with hend
      subst hend
      rfl
    | blockComment =>
      rw [step] at h ⊢
      split_ifs at h with hend
      rw [decide_eq_true_eq] at h
      subst h
      rfl
    | string =>
      obtain ⟨hagain, hafter⟩ := literal_overShown rest' (by decide) h
      rw [step, hafter]
      exact hagain
    | character =>
      obtain ⟨hagain, hafter⟩ := literal_overShown rest' (by decide) h
      rw [step, hafter]
      exact hagain
    | textBlock =>
      show (MaskState.inside .textBlock).step c rest' = _
      rw [step] at h hmark
      rw [step, step]
      split_ifs at h hmark ⊢ <;> simp_all [overShown, Region.uncommented]

end MaskState

/-- The masked text is as the text where it is not blank. -/
theorem head?_views {x : Char} (hx : x ≠ ' ') (h : (views (cellsFrom state text)).head? = some x) :
    text.head? = some x := by
  cases text with
  | nil => exact h
  | cons c text =>
    rw [views_cellsFrom_cons, List.head?_cons, Option.some.injEq, Cell.view] at h
    split at h
    · exact congrArg some h
    · exact absurd h.symm hx

theorem twoQuotes_of_views (h : twoQuotes (views (cellsFrom state text)) = true) : twoQuotes text = true := by
  cases text with
  | nil => exact h
  | cons c text =>
    have hfirst : (views (cellsFrom state (c :: text))).head? = some '"' := by
      obtain ⟨rest, hrest⟩ := twoQuotes_eq_true.1 h
      rw [hrest, List.head?_cons]
    obtain rfl : c = '"' := by simpa using head?_views (by decide) hfirst
    rw [views_cellsFrom_cons, twoQuotes_cons, Bool.and_eq_true, decide_eq_true_eq, decide_eq_true_eq] at h
    rw [twoQuotes_cons, head?_views (by decide) h.2]
    rfl

/-- The quotes of a mark that is passed over are shown. -/
theorem twoQuotes_views {region : Region} (h : twoQuotes text = true) :
    twoQuotes (views (cellsFrom (.passing 1 true region) text)) = true := by
  obtain ⟨rest, rfl⟩ := twoQuotes_eq_true.1 h
  rfl

/-- The masked copy of what is shown is what is shown, by induction on the text: over blanks the mask stays in code or
inside the same literal, and over a character that is shown it does what it did over the text. -/
theorem views_cellsFrom_views (hfits : state.Fits text) :
    views (cellsFrom state.overShown (views (cellsFrom state text))) = views (cellsFrom state text) := by
  induction text generalizing state with
  | nil => rfl
  | cons c text ih =>
    have hrest := ih hfits.step
    rw [views_cellsFrom_cons, views_cellsFrom_cons]
    cases hshown : (state.step c text).1 with
    | true =>
      have hquotes : ∀ region, (state.step c text).2 = .passing 1 true region →
          twoQuotes (views (cellsFrom (state.step c text).2 text)) = true := by
        intro region hregion
        rw [hregion]
        exact twoQuotes_views (hfits.quotes_of_step hregion)
      have hstep := MaskState.step_overShown hfits hshown (fun x hx => head?_views hx) twoQuotes_of_views hquotes
      have hview : (Cell.mk c true).view = c := rfl
      rw [hview, hstep, hview, hrest]
    | false =>
      obtain ⟨region, hregion, hbefore, hafter⟩ := MaskState.overShown_of_hidden hshown
      rw [hafter] at hrest
      have hview : ∀ shown, (Cell.mk ' ' shown).view = ' ' := by
        intro shown
        cases shown <;> rfl
      rw [show (Cell.mk c false).view = ' ' from rfl, hbefore, MaskState.step_space hregion, hview, hrest]

theorem views_cells_views (text : List Char) : views (cells (views (cells text))) = views (cells text) := by
  have hfits : (MaskState.inside .code).Fits text := trivial
  exact views_cellsFrom_views hfits

/-! Where the masked text can be cut. -/

theorem Cell.blank_of_divided {c : Cell} (h : c.masked = front ++ back) (hfront : front ≠ []) (hback : back ≠ []) :
    ∀ x ∈ c.masked, x = ' ' := by
  obtain ⟨xs, hxs, hblank, -⟩ := c.exists_masked
  have hmore : xs ≠ [] := by
    rintro rfl
    have hlength := congrArg List.length (hxs.symm.trans h)
    have := List.length_pos_iff.2 hfront
    have := List.length_pos_iff.2 hback
    rw [List.length_singleton, List.length_append] at hlength
    omega
  intro x hx
  rw [c.mem_masked x hx]
  exact hblank hmore

/-- A cut of the masked text with something visible on one side of it lies between two cells. -/
theorem exists_cells_of_cut {cs : List Cell} (h : maskedText cs = front ++ back)
    (hvisible : (∃ x ∈ front.getLast?, x ≠ ' ') ∨ ∃ x ∈ back.head?, x ≠ ' ') :
    ∃ ds es, cs = ds ++ es ∧ maskedText ds = front := by
  induction cs generalizing front with
  | nil => exact ⟨[], [], rfl, (List.append_eq_nil_iff.1 h.symm).1.symm⟩
  | cons c cs ih =>
    have hone : maskedText [c] = c.masked := by rw [maskedText_cons, maskedText, List.flatMap_nil, List.append_nil]
    by_cases hfront : front = []
    · exact ⟨[], c :: cs, rfl, hfront.symm⟩
    rw [maskedText_cons] at h
    rcases List.append_eq_append_iff.1 h with ⟨more, hmore, hrest⟩ | ⟨more, hmore, hrest⟩
    · by_cases hend : more = []
      · rw [hend, List.append_nil] at hmore
        exact ⟨[c], cs, rfl, hone.trans hmore.symm⟩
      · rw [hmore, List.getLast?_append_of_ne_nil _ hend] at hvisible
        obtain ⟨ds, es, hcs, hds⟩ := ih hrest hvisible
        exact ⟨c :: ds, es, by rw [hcs, List.cons_append], by rw [maskedText_cons, hds, hmore]⟩
    · by_cases hend : more = []
      · rw [hend, List.append_nil] at hmore
        exact ⟨[c], cs, rfl, hone.trans hmore⟩
      · have hblank := Cell.blank_of_divided hmore hfront hend
        exfalso
        rcases hvisible with ⟨x, hx, hne⟩ | ⟨x, hx, hne⟩
        · apply hne (hblank x _)
          rw [hmore]
          exact List.mem_append_left more (List.mem_of_getLast? hx)
        · apply hne (hblank x _)
          rw [hrest, List.head?_append_of_ne_nil _ hend] at hx
          rw [hmore]
          exact List.mem_append_right front (List.mem_of_head? hx)

/-! The masked text, octet by octet. -/

theorem toOctet (b : UInt8) : UInt8.ofNat (Char.ofNat b.toNat).toNat = b := by
  rw [toNat_octet, UInt8.ofNat_toNat]

/-- The mask leaves of the octets of a text the octets of the masked text. -/
theorem maskOctets_utf8 (text : List Char) : maskOctets (utf8 text) = utf8 (mask text) := by
  have hviews : maskOctets (utf8 text) = (views (cells (octetViews text))).map fun v => UInt8.ofNat v.toNat := by
    rw [maskOctets, octetViews, views, List.map_map]
    rfl
  rw [hviews, views_cells_octetViews, octetViews, List.map_map]
  simp [Function.comp_def, toOctet]

theorem length_maskOctets (octets : List UInt8) : (maskOctets octets).length = octets.length := by
  rw [maskOctets, List.length_map, cells, length_cellsFrom, List.length_map]

theorem getElem?_maskOctets (octets : List UInt8) (i : Nat) :
    (maskOctets octets)[i]? = octets[i]? ∨ (maskOctets octets)[i]? = some 0x20 := by
  have hverbatim : verbatim (cells (octets.map fun b => Char.ofNat b.toNat)) = octets.map fun b => Char.ofNat b.toNat :=
    verbatim_cellsFrom _ _
  have hchar := congrArg (fun cs => cs[i]?) hverbatim
  rw [maskOctets, List.getElem?_map]
  simp only [verbatim, List.getElem?_map] at hchar
  cases hoctet : octets[i]? with
  | none =>
    rw [hoctet, Option.map_none, Option.map_eq_none_iff] at hchar
    left
    rw [hchar, Option.map_none]
  | some b =>
    rw [hoctet, Option.map_some, Option.map_eq_some_iff] at hchar
    obtain ⟨cell, hcell, hb⟩ := hchar
    rw [hcell, Option.map_some, Cell.view]
    split
    · left
      rw [hb, toOctet]
    · right
      rfl

theorem visible_of_visibleBeside (h : VisibleBeside (utf8 (front ++ back)) (utf8 front).length) :
    (∃ x ∈ front.getLast?, x ≠ ' ') ∨ ∃ x ∈ back.head?, x ≠ ' ' := by
  rw [VisibleBeside, utf8_append] at h
  rcases h with ⟨b, hb, hne⟩ | ⟨hpos, b, hb, hne⟩
  · right
    rw [List.getElem?_append_right le_rfl, Nat.sub_self] at hb
    cases back with
    | nil => cases hb
    | cons x back =>
      refine ⟨x, rfl, ?_⟩
      rintro rfl
      exact hne (Option.some.inj hb).symm
  · left
    rw [List.getElem?_append_left (by omega)] at hb
    obtain rfl | ⟨before, x, rfl⟩ := front.eq_nil_or_concat'
    · cases hb
    · refine ⟨x, by simp, ?_⟩
      rintro rfl
      have hspace : utf8 [' '] = [0x20] := rfl
      rw [utf8_append, hspace, List.length_append, List.length_singleton, Nat.add_sub_cancel,
        List.getElem?_append_right le_rfl, Nat.sub_self] at hb
      exact hne (Option.some.inj hb).symm

/-- Beside what is visible of the masked text a position between characters is one of the text. -/
theorem isValid_of_mask {i : Nat} (h : (⟨i⟩ : String.Pos.Raw).IsValid (String.ofList (mask text)))
    (hvisible : VisibleBeside (utf8 (mask text)) i) : (⟨i⟩ : String.Pos.Raw).IsValid (String.ofList text) := by
  obtain ⟨front, back, hcut, rfl⟩ := isValid_ofList_iff.1 h
  rw [hcut] at hvisible
  obtain ⟨ds, es, hcells, rfl⟩ := exists_cells_of_cut hcut (visible_of_visibleBeside hvisible)
  have htext : text = verbatim ds ++ verbatim es := by
    rw [← verbatim_append, ← hcells, cells, verbatim_cellsFrom]
  refine isValid_ofList_iff.2 ⟨verbatim ds, verbatim es, htext, ?_⟩
  have hwidth := width_eq ds
  rw [width] at hwidth
  simpa [octetViews] using hwidth.symm

theorem mask_mask (text : List Char) : mask (mask text) = mask text := by
  have hviews : octetViews (mask (mask text)) = octetViews (mask text) := by
    rw [← views_cells_octetViews, ← views_cells_octetViews, views_cells_views]
  have hoctets := congrArg (List.map fun v : Char => UInt8.ofNat v.toNat) hviews
  simp only [octetViews, List.map_map, Function.comp_def, toOctet, List.map_id'] at hoctets
  exact utf8_injective hoctets

/-- The mask works in place. What it leaves of the octets of a text is a text again, as long as before; each octet
stays or becomes a space; where a cut of it has something visible on one side, the text can be cut as well; and what is
masked stays as it is when it is masked again. -/
theorem mask_inPlace (text : List Char) :
    utf8 (mask text) = maskOctets (utf8 text) ∧
    String.fromUTF8? (maskOctets (utf8 text)).toByteArray = some (String.ofList (mask text)) ∧
    (maskOctets (utf8 text)).length = (utf8 text).length ∧
    (∀ i : Nat, (maskOctets (utf8 text))[i]? = (utf8 text)[i]? ∨ (maskOctets (utf8 text))[i]? = some 0x20) ∧
    (∀ i, (⟨i⟩ : String.Pos.Raw).IsValid (String.ofList (mask text)) → VisibleBeside (maskOctets (utf8 text)) i →
      (⟨i⟩ : String.Pos.Raw).IsValid (String.ofList text)) ∧
    mask (mask text) = mask text := by
  refine ⟨(maskOctets_utf8 text).symm, ?_, length_maskOctets _, getElem?_maskOctets _, ?_, mask_mask text⟩
  · rw [maskOctets_utf8]
    exact fromUTF8?_utf8 (mask text)
  · intro i hvalid hvisible
    rw [maskOctets_utf8] at hvisible
    exact isValid_of_mask hvalid hvisible

end WireLayout.Java

import WireLayout.Proofs.Java.Mask
import WireLayout.Proofs.Java.Places

/-! An annotation put into the text of a file. The file is read as before but for the members at the place, and these
change by the annotation alone if they are no fields that parentheses hide and no parameters whose commas unmatched
angle brackets hide. -/

namespace WireLayout.Java

open WireLayout.Text

section

variable {front back : List Char} {a : Annotation} {site : Site}

/-- The annotation as a text is masked as its cells say, and ends outside comments and literals. -/
structure Annotation.Written (a : Annotation) : Prop where
  masked : Java.cells (verbatim a.cells) = a.cells
  ends : EndsInCode (verbatim a.cells)

/-- The annotation holds no package or import clause, and none begins where it is put. -/
structure Annotation.Apart (a : Annotation) (r : List Cell) : Prop where
  clauseless : Clauseless a.tag
  imports : importRest? (views r) = none

theorem Annotation.cells_insert (hwritten : a.Written) (hfront : EndsInCode front) (hback : Java.Apart back) :
    Java.cells (front ++ (verbatim a.cells ++ back)) = Java.cells front ++ (a.cells ++ Java.cells back) := by
  have hsign : Java.Apart (verbatim a.cells ++ back) := by simp [ Annotation.cells, verbatim, Cell.code]
  rw [cells_append hfront hsign, cells_append hwritten.ends hback, hwritten.masked]

theorem Place.clauses {l r : List Cell} (h : Place site l r) (hapart : a.Apart r) :
    allMatches packageName? (views (l ++ (a.cells ++ r))) = allMatches packageName? (views (l ++ r)) ∧
      allMatches importName? (views (l ++ (a.cells ++ r))) = allMatches importName? (views (l ++ r)) := by
  obtain ⟨before, gap, rfl, hgap, hlast⟩ := h.behind_mark
  have hspaces : ∀ {bs : List Cell}, Blank bs → ∀ c ∈ views bs, isSpace c = true := by
    intro bs hbs c hc
    obtain ⟨d, hd, rfl⟩ := List.mem_map.1 hc
    exact isSpace_of_isAsciiSpace (hbs d hd)
  have hmark : ∀ c ∈ (views before).getLast?, IsMark c := by
    intro c hc
    rw [views, List.getLast?_map] at hc
    obtain ⟨d, hd, rfl⟩ := Option.map_eq_some_iff.1 hc
    exact hlast d hd
  have hname : ∀ c ∈ a.tag.name, isIdent c = true ∨ c = '.' := by
    intro c hc
    obtain ⟨d, hd, rfl⟩ := List.mem_map.1 hc
    have hcell := a.named d hd
    rwa [isAnnotationCell, Bool.or_eq_true, decide_eq_true_eq] at hcell
  have hspaced : a.tag.arguments = none → a.tag.gap ≠ [] := by
    intro hnone
    simpa [ Annotation.tag, views] using a.spaced (by simpa [ Annotation.tag] using hnone)
  simp only [views_append, ← a.text_tag]
  exact clauses_insert hmark (hspaces hgap) hname (hspaces a.blank) hspaced hapart.clauseless hapart.imports

/-- With an annotation at a place the file is read, with the same package and imports, and with the same members but
for the effect of the annotation on those at the place. -/
theorem parse_annotated {path : String} {file : SourceFile}
    (hfile : SourceFile.parse path (String.ofList (front ++ back)) = .ok file) (hfront : EndsInCode front)
    (hback : Apart back) (hplace : Place site (cells front) (cells back)) (hwritten : a.Written)
    (hapart : a.Apart (cells back)) :
    ∃ file', SourceFile.parse path (String.ofList (front ++ (verbatim a.cells ++ back))) = .ok file' ∧
      file'.package = file.package ∧ file'.imports = file.imports ∧
      ∃ ms ms', Changed (a.Effect site) ms ms' ∧
        file.types = ms.filterMap Member.nested? ∧ file'.types = ms'.filterMap Member.nested? := by
  obtain ⟨-, hbalanced, rfl⟩ := SourceFile.parse_eq_ok_iff.1 hfile
  rw [String.toList_ofList, cells_append hfront hback] at hbalanced
  obtain ⟨hpackage, himports⟩ := hplace.clauses hapart
  have hcells := a.cells_insert hwritten hfront hback
  refine ⟨SourceFile.ofText (String.ofList (front ++ (verbatim a.cells ++ back))), ?_, ?_, ?_, ?_⟩
  · rw [SourceFile.parse_eq_ok_iff, String.toList_ofList, hcells]
    refine ⟨?_, isBalanced_map.2 ((isBalanced_map.1 hbalanced).insert a.balanced_cells), rfl⟩
    rw [List.all_eq_false]
    exact ⟨'@', by simp [ Annotation.cells, verbatim, Cell.code], by decide⟩
  · simp only [SourceFile.ofText, String.toList_ofList, hcells, cells_append hfront hback, hpackage]
  · simp only [SourceFile.ofText, String.toList_ofList, hcells, cells_append hfront hback, himports]
  · refine ⟨_, _, hplace.changed a "", ?_, ?_⟩
    · simp only [SourceFile.ofText, String.toList_ofList, cells_append hfront hback, members, topLevelTypes_eq ""]
    · simp only [SourceFile.ofText, String.toList_ofList, hcells, members, topLevelTypes_eq ""]

end

namespace Marked

def front : List Char := "class P \x7b ".toList

def back : List Char := "public int id; \x7d".toList

def mark : Annotation where
  name := cells "Id".toList
  arguments := none
  gap := cells " ".toList
  named := by decide
  title_ne := by decide
  balanced := by simp
  blank := by decide
  spaced := by decide

def statement : List Cell := cells "public int id".toList

def heading : Heading := ⟨[], .classType, "P", cells " ".toList⟩

theorem segments_statement : segments (cells "public int id; ".toList) = [.statement statement] := by decide +kernel

theorem place : Place (statementSite (trimCells statement)) (cells front) (cells back) := by
  have hhead : TypeHead (cells "class P ".toList) heading :=
    ⟨isBalanced_map.1 (by decide), by decide, by decide, by decide +kernel⟩
  have hinner : Place (statementSite (trimCells statement)) ([] ++ cells " ".toList) (cells "public int id; ".toList) :=
    .statement (cuts_nil rfl) (by simp) (by decide) segments_statement ⟨_, _, rfl, by decide⟩
  have houter : Place (statementSite (trimCells statement))
      ([] ++ (cells "class P ".toList ++ Cell.code '\x7b' :: ([] ++ ([] ++ cells " ".toList))))
      (cells "public int id; ".toList ++ Cell.code '\x7d' :: []) :=
    .inside (cuts_nil rfl) hhead rfl rfl (.none (by decide)) (isBalanced_map.1 (by decide)) hinner
  exact houter

theorem written : mark.Written := ⟨by decide, by decide⟩

theorem isApart : mark.Apart (cells back) := ⟨⟨by decide +kernel, by decide +kernel⟩, by decide +kernel⟩

end Marked

theorem parse_annotated_marked :
    ∃ file, SourceFile.parse "P.java" "class P \x7b @Id public int id; \x7d" = .ok file ∧
      file.package = "" ∧ file.imports = [] ∧
      ∃ ms ms', Changed (Marked.mark.Effect (statementSite (trimCells Marked.statement))) ms ms' ∧
        (SourceFile.ofText "class P \x7b public int id; \x7d").types = ms.filterMap Member.nested? ∧
        file.types = ms'.filterMap Member.nested? := by
  have hplain : String.ofList (Marked.front ++ Marked.back) = "class P \x7b public int id; \x7d" := by decide
  have hmarked : String.ofList (Marked.front ++ (verbatim Marked.mark.cells ++ Marked.back)) =
      "class P \x7b @Id public int id; \x7d" := by decide
  have hfile : SourceFile.parse "P.java" (String.ofList (Marked.front ++ Marked.back)) =
      .ok (SourceFile.ofText "class P \x7b public int id; \x7d") := by
    rw [hplain]
    exact SourceFile.parse_eq_ok_iff.2 ⟨by decide +kernel, by decide +kernel, rfl⟩
  have hback : Apart Marked.back := by
    intro c hc
    rw [← Option.some.inj hc]
    decide
  obtain ⟨file, hread, hpackage, himports, hmembers⟩ :=
    parse_annotated hfile (by decide) hback Marked.place Marked.written Marked.isApart
  rw [hmarked] at hread
  exact ⟨file, hread, hpackage.trans (by decide +kernel), himports.trans (by decide +kernel), hmembers⟩

/-- The parentheses of an annotation hide a field. -/
theorem annotation_hides_field :
    (∃ t, (SourceFile.parse "P.java" "class P \x7b public int id; \x7d").toOption.map SourceFile.types = some [t] ∧
      t.fields.map (fun f => (f.type, f.name)) = [("int", "id")]) ∧
    ∃ t, (SourceFile.parse "P.java" "class P \x7b @JsonProperty(\"id\") public int id; \x7d").toOption.map
        SourceFile.types = some [t] ∧ t.fields = [] := by
  have hread : ∀ text : String, text.toList.all isSpace = false → isBalanced (views (cells text.toList)) = true →
      (SourceFile.ofText text).types.length = 1 →
      ∃ t, (SourceFile.parse "P.java" text).toOption.map SourceFile.types = some [t] ∧
        (SourceFile.ofText text).types = [t] := by
    intro text hshows hbalanced hone
    obtain ⟨t, ht⟩ := List.length_eq_one_iff.1 hone
    have hfile : SourceFile.parse "P.java" text = .ok (SourceFile.ofText text) :=
      SourceFile.parse_eq_ok_iff.2 ⟨hshows, hbalanced, rfl⟩
    exact ⟨t, by rw [hfile, ← ht]; rfl, ht⟩
  refine ⟨?_, ?_⟩
  · obtain ⟨t, hparse, ht⟩ := hread "class P \x7b public int id; \x7d" (by decide +kernel) (by decide +kernel)
      (by decide +kernel)
    have hfields : (SourceFile.ofText "class P \x7b public int id; \x7d").types.map
        (fun t => t.fields.map fun f => (f.type, f.name)) = [[("int", "id")]] := by decide +kernel
    rw [ht] at hfields
    exact ⟨t, hparse, (List.cons.inj hfields).1⟩
  · obtain ⟨t, hparse, ht⟩ := hread "class P \x7b @JsonProperty(\"id\") public int id; \x7d" (by decide +kernel)
      (by decide +kernel) (by decide +kernel)
    have hfields : (SourceFile.ofText "class P \x7b @JsonProperty(\"id\") public int id; \x7d").types.map
        (fun t => t.fields) = [[]] := by decide +kernel
    rw [ht] at hfields
    exact ⟨t, hparse, (List.cons.inj hfields).1⟩

end WireLayout.Java

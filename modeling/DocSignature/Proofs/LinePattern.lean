import DocSignature.Log
import DocSignature.Proofs.CharClass
import Mathlib.Data.List.Find

/-!
# What stands in a line

The label of a log is part of the pattern of its lines, which is filled as a whole. What the label
shows does not depend on what stands around it: a label without percent signs is shown as it is, and
one with a percent sign is shown otherwise for some entry, or not at all.
-/

namespace DocSignature.Log

/-! ## Filling patterns -/

section Fill

variable {fields : List (List Char × List Char)}

theorem fillFrom_length_append (xs ys : List Char) :
    fillFrom fields xs.length (xs ++ ys) = fillFrom fields 0 ys := by
  induction xs with
  | nil => rfl
  | cons x xs ih => rw [List.length_cons, List.cons_append, fillFrom, ih]

theorem fillFrom_append_of_plain {xs : List Char} (h : '%' ∉ xs) (ys : List Char) :
    fillFrom fields 0 (xs ++ ys) = (fillFrom fields 0 ys).map (xs ++ ·) := by
  induction xs with
  | nil => simp
  | cons x xs ih =>
    have hx : '%' ≠ x := List.ne_of_not_mem_cons h
    rw [List.cons_append, fillFrom, if_neg (Ne.symm hx), ih (List.not_mem_of_not_mem_cons h),
      Option.map_map]
    rfl

/-- A mark at the front is replaced by its field. -/
theorem fillFrom_mark_append {mark text rest : List Char}
    (hfind : (fields.find? fun (m, _) => m.isPrefixOf ('%' :: mark ++ rest)) =
      some ('%' :: mark, text)) :
    fillFrom fields 0 ('%' :: mark ++ rest) = (fillFrom fields 0 rest).map (text ++ ·) := by
  rw [List.cons_append] at hfind ⊢
  rw [fillFrom, if_pos rfl, hfind]
  simp only [List.length_cons, Nat.add_sub_cancel, fillFrom_length_append]

/-- The mark that is found stands at the front. -/
theorem prefix_of_find? {cs mark text : List Char}
    (h : (fields.find? fun (m, _) => m.isPrefixOf cs) = some (mark, text)) :
    (mark, text) ∈ fields ∧ mark.length ≤ cs.length := by
  have hprefix := List.find?_some h
  exact ⟨List.mem_of_find?_eq_some h, (List.isPrefixOf_iff_prefix.1 hprefix).length_le⟩

/-- Which mark stands at the front is settled before a character that no mark has in it. -/
theorem find?_append_cons {c : Char} (hc : ∀ f ∈ fields, c ∉ f.1) (xs ys : List Char) :
    (fields.find? fun (m, _) => m.isPrefixOf (xs ++ c :: ys)) =
      fields.find? fun (m, _) => m.isPrefixOf xs := by
  refine List.find?_congr fun f hf => ?_
  rw [Bool.eq_iff_iff, List.isPrefixOf_iff_prefix, List.isPrefixOf_iff_prefix]
  exact ⟨Text.prefix_of_not_mem (hc f hf), fun h => h.trans (List.prefix_append _ _)⟩

/-- A pattern is filled in two parts, cut before a character that no mark has in it. -/
theorem fillFrom_append_cons {c : Char} (hc : ∀ f ∈ fields, c ∉ f.1) (ys : List Char)
    (skip : Nat) (xs : List Char) (hskip : skip ≤ xs.length) :
    fillFrom fields skip (xs ++ c :: ys) =
      (fillFrom fields skip xs).bind fun shown =>
        (fillFrom fields 0 (c :: ys)).map (shown ++ ·) := by
  -- What is to be skipped lies in front of `c`: a mark that begins there ends there, too.
  fun_induction fillFrom fields skip xs with
  | case1 skip =>
    obtain rfl : skip = 0 := Nat.le_zero.1 hskip
    simp
  | case2 skip x xs ih =>
    rw [List.cons_append, fillFrom]
    exact ih (Nat.le_of_succ_le_succ hskip)
  | case3 xs mark text hmark ih =>
    have hlength : mark.length - 1 ≤ xs.length := by
      have := (prefix_of_find? hmark).2
      rw [List.length_cons] at this
      omega
    have hfind := find?_append_cons hc ('%' :: xs) ys
    rw [List.cons_append] at hfind ⊢
    rw [fillFrom, if_pos rfl, hfind, hmark]
    simp only [ih hlength]
    cases fillFrom fields (mark.length - 1) xs with
    | none => rfl
    | some shown => simp [Function.comp_def]
  | case4 xs hmark =>
    have hfind := find?_append_cons hc ('%' :: xs) ys
    rw [List.cons_append] at hfind ⊢
    rw [fillFrom, if_pos rfl, hfind, hmark]
    rfl
  | case5 x xs hx ih =>
    rw [List.cons_append, fillFrom, if_neg hx, ih (Nat.zero_le _)]
    cases fillFrom fields 0 xs with
    | none => rfl
    | some shown => simp [Function.comp_def]

/-- Where every field is shorter than its mark, a pattern with a percent sign gets shorter. -/
theorem length_of_fillFrom (hshort : ∀ f ∈ fields, f.2.length < f.1.length) {skip : Nat}
    {cs shown : List Char} (h : fillFrom fields skip cs = some shown) (hskip : skip ≤ cs.length) :
    skip + shown.length ≤ cs.length ∧
      ('%' ∈ cs.drop skip → skip + shown.length < cs.length) := by
  fun_induction fillFrom fields skip cs generalizing shown with
  | case1 skip =>
    cases h
    simpa using hskip
  | case2 skip c cs ih =>
    obtain ⟨hle, hlt⟩ := ih h (Nat.le_of_succ_le_succ hskip)
    simp only [List.length_cons, List.drop_succ_cons]
    exact ⟨by omega, fun hmem => by have := hlt hmem; omega⟩
  | case3 cs mark text hmark ih =>
    obtain ⟨rest, hrest, rfl⟩ := Option.map_eq_some_iff.1 h
    obtain ⟨hmem, hlength⟩ := prefix_of_find? hmark
    have htext := hshort _ hmem
    rw [List.length_cons] at hlength
    obtain ⟨hle, -⟩ := ih hrest (by omega)
    -- The mark makes the difference, whatever comes behind it.
    have hless : text.length + rest.length < cs.length + 1 := by
      simp only at htext
      omega
    simp only [List.length_append, List.length_cons, Nat.zero_add]
    exact ⟨hless.le, fun _ => hless⟩
  | case4 cs hmark => cases h
  | case5 c cs hc ih =>
    obtain ⟨rest, hrest, rfl⟩ := Option.map_eq_some_iff.1 h
    obtain ⟨hle, hlt⟩ := ih hrest (Nat.zero_le _)
    simp only [List.length_cons, Nat.zero_add, List.drop_zero] at hle hlt ⊢
    refine ⟨by omega, fun hmem => ?_⟩
    have := hlt ((List.mem_cons.1 hmem).resolve_left (Ne.symm hc))
    omega

end Fill

/-! ## Lines -/

namespace Entry

variable (e : Entry)

theorem fill_append_of_plain {a : String} (h : '%' ∉ a.toList) (b : String) :
    e.fill (a ++ b) = (e.fill b).map (a ++ ·) := by
  simp only [fill, String.toList_append, fillFrom_append_of_plain h, Option.map_map,
    Function.comp_def, String.ofList_append, String.ofList_toList]

theorem fill_of_plain {a : String} (h : '%' ∉ a.toList) : e.fill a = some a := by
  have hfill := e.fill_append_of_plain h ""
  rw [String.append_empty] at hfill
  simpa [fill, fillFrom] using hfill

theorem fill_levelname_append (b : String) :
    e.fill ("%(levelname)s" ++ b) = (e.fill b).map (e.level.label ++ ·) := by
  have hmark : fillFrom e.fields 0 ("%(levelname)s".toList ++ b.toList) = _ :=
    fillFrom_mark_append rfl
  simp only [fill, String.toList_append, hmark, Option.map_map, Function.comp_def,
    String.ofList_append, String.ofList_toList]

theorem fill_blank_message : e.fill " %(message)s" = some (" " ++ e.message) := by
  have hmark : fillFrom e.fields 0 ("%(message)s".toList ++ []) = _ := fillFrom_mark_append rfl
  rw [List.append_nil, fillFrom] at hmark
  have hblank : " %(message)s" = " " ++ "%(message)s" := by decide
  rw [hblank, e.fill_append_of_plain (by decide), fill, hmark]
  simp

/-- All entries have the same marks. -/
theorem map_fst_fields (e e' : Entry) : e.fields.map Prod.fst = e'.fields.map Prod.fst := rfl

/-- No mark has a blank or a bracket in it. -/
theorem not_mem_of_mem_fields {c : Char} (hc : c = ' ' ∨ c = ']') : ∀ f ∈ e.fields, c ∉ f.1 := by
  have hmarks : ∀ mark ∈ e.fields.map Prod.fst, c ∉ mark := by
    rw [map_fst_fields e ⟨.debug, "", ""⟩]
    rcases hc with rfl | rfl <;> decide
  exact fun f hf => hmarks f.1 (List.mem_map_of_mem hf)

theorem fill_append {b : String} {c : Char} {cs : List Char} (hb : b.toList = c :: cs)
    (hc : c = ' ' ∨ c = ']') (a : String) :
    e.fill (a ++ b) = (e.fill a).bind fun shown => (e.fill b).map (shown ++ ·) := by
  simp only [fill, String.toList_append, hb,
    fillFrom_append_cons (e.not_mem_of_mem_fields hc) cs 0 a.toList (Nat.zero_le _)]
  cases fillFrom e.fields 0 a.toList with
  | none => rfl
  | some shown => simp [Function.comp_def]

theorem fill_bracketed (label : String) :
    e.fill (bracketed label) =
      (e.fill label).map fun shown => if label = "" then "" else " [" ++ shown ++ "]" := by
  unfold bracketed
  split
  · rename_i hlabel
    rw [hlabel]
    rfl
  · rw [String.append_assoc, e.fill_append_of_plain (by decide),
      e.fill_append rfl (.inr rfl), e.fill_of_plain (a := "]") (by decide)]
    cases e.fill label with
    | none => rfl
    | some shown => simp [String.append_assoc]

/-- The line of an entry, with a text behind its level. -/
def lineWith (text : String) : String :=
  "[" ++ programName ++ "] [" ++ e.level.label ++ "]" ++ text ++ " " ++ e.message ++ "\n"

theorem fill_linePattern (label : String) :
    (e.fill (linePattern label)).map (· ++ "\n") = (e.fill (bracketed label)).map e.lineWith := by
  have hfront : "[" ++ programName ++ "] [%(levelname)s]" =
      "[" ++ programName ++ "] [" ++ ("%(levelname)s" ++ "]") := by decide
  have hparts : linePattern label = "[" ++ programName ++ "] [" ++
      ("%(levelname)s" ++ ("]" ++ (bracketed label ++ " %(message)s"))) := by
    rw [linePattern, hfront]
    simp only [String.append_assoc]
  rw [hparts, e.fill_append_of_plain (by decide), e.fill_levelname_append,
    e.fill_append_of_plain (a := "]") (by decide), e.fill_append rfl (.inl rfl),
    e.fill_blank_message]
  cases e.fill (bracketed label) with
  | none => rfl
  | some shown => simp [lineWith, String.append_assoc]

end Entry

theorem Handler.write_eq {h : Handler} {label : String} (hpattern : h.pattern = linePattern label)
    (root : Root) (e : Entry) :
    h.write root e = match e.fill (bracketed label) with
      | some text => e.lineWith text
      | none => root.report e := by
  have hfill := e.fill_linePattern label
  rw [write, hpattern]
  cases hshown : e.fill (bracketed label) with
  | none =>
    rw [hshown, Option.map_none, Option.map_eq_none_iff] at hfill
    rw [hfill]
  | some text =>
    rw [hshown] at hfill
    obtain ⟨filled, hfilled, hline⟩ := Option.map_eq_some_iff.1 hfill
    rw [hfilled]
    exact hline

theorem Handler.write_of_plain {h : Handler} {label : String}
    (hpattern : h.pattern = linePattern label) (hplain : '%' ∉ label.toList) (root : Root)
    (e : Entry) :
    h.write root e = e.lineWith (bracketed label) := by
  rw [write_eq hpattern, e.fill_bracketed, e.fill_of_plain hplain]
  rfl

/-- An entry whose fields are all shorter than their marks. -/
def terse : Entry := { level := .error, message := "" }

theorem length_fill_terse {label shown : String} (hpercent : '%' ∈ label.toList)
    (h : terse.fill label = some shown) : shown.length < label.length := by
  obtain ⟨cs, hcs, rfl⟩ := Option.map_eq_some_iff.1 h
  have hshort : ∀ f ∈ terse.fields, f.2.length < f.1.length := by decide
  have hlength := (length_of_fillFrom hshort hcs (Nat.zero_le _)).2 hpercent
  rwa [String.length_toList, Nat.zero_add, ← String.length_ofList] at hlength

/-- A report is no line. -/
theorem report_ne_lineWith (root : Root) (e : Entry) (text : String) :
    root.report e ≠ e.lineWith text := by
  intro heq
  have htitle : reportTitle.toList.head? = some '-' := by decide +kernel
  have hfirst := congrArg (fun s => s.toList.head?) heq
  simp [Root.report, htitle, Entry.lineWith] at hfirst

/-- A label with a percent sign is not shown as it is. -/
theorem Handler.write_terse_ne {h : Handler} {label : String}
    (hpattern : h.pattern = linePattern label) (hpercent : '%' ∈ label.toList) (root : Root) :
    h.write root terse ≠ terse.lineWith (bracketed label) := by
  rw [write_eq hpattern, terse.fill_bracketed]
  cases hfill : terse.fill label with
  | none => exact report_ne_lineWith root terse _
  | some shown =>
    have hlabel : label ≠ "" := by
      rintro rfl
      simp at hpercent
    have hless := length_fill_terse hpercent hfill
    intro heq
    have hlength := congrArg String.length heq
    simp [Entry.lineWith, bracketed, hlabel] at hlength
    omega

end DocSignature.Log

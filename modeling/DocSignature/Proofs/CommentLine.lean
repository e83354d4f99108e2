import DocSignature.Proofs.Blank
import DocSignature.Proofs.Place
import DocSignature.Proofs.Search
import DocSignature.Tag.DocComment

/-!
# The lines of a comment in their source

What a comment says on a line stands in the source at the place that the line is given. On all lines
but the first of the comment that place is behind a margin, the decoration and the blanks around it,
which can be read off the line of the source alone.
-/

namespace DocSignature.Text

theorem trimLeft_append_of_ne_nil {xs : List Char} (h : trimLeft xs ≠ []) (ys : List Char) :
    trimLeft (xs ++ ys) = trimLeft xs ++ ys := by
  unfold trimLeft at h ⊢
  rw [List.dropWhile_append, if_neg (by simpa using h)]

/-! ## Lines of a text -/

theorem not_mem_of_mem_cut {mark : Char} {cs part : List Char} (h : part ∈ cut mark cs) :
    mark ∉ part := by
  induction cs generalizing part with
  | nil => simp_all [cut]
  | cons c cs ih =>
    rw [cut] at h
    split at h
    · rcases List.mem_cons.1 h with rfl | h
      · simp
      · exact ih h
    · rename_i hc
      obtain ⟨first, rest, hcut⟩ := List.exists_cons_of_ne_nil (TypeExpr.cut_ne_nil mark cs)
      rw [hcut] at h ih
      rcases List.mem_cons.1 h with rfl | h
      · simp [Ne.symm hc, ih (List.mem_cons_self)]
      · exact ih (List.mem_cons_of_mem _ h)

theorem lines_append_line (xs ys : List Char) :
    lines (xs ++ '\n' :: ys) = lines xs ++ lines ys := by
  induction xs with
  | nil => simp [lines, cut]
  | cons x xs ih =>
    obtain ⟨first, rest, hcut⟩ := List.exists_cons_of_ne_nil (TypeExpr.cut_ne_nil '\n' xs)
    unfold lines at ih ⊢
    rw [hcut] at ih
    rw [List.cons_append, cut, cut, ih, hcut]
    split <;> rfl

theorem length_lines (cs : List Char) : (lines cs).length = cs.count '\n' + 1 := by
  induction cs with
  | nil => rfl
  | cons c cs ih =>
    obtain ⟨first, rest, hcut⟩ := List.exists_cons_of_ne_nil (TypeExpr.cut_ne_nil '\n' cs)
    unfold lines at ih ⊢
    rw [hcut] at ih
    rw [cut, hcut]
    by_cases hc : c = '\n'
    · rw [if_pos hc, List.length_cons, ih, hc, List.count_cons_self]
    · rw [if_neg hc, List.count_cons_of_ne hc]
      exact ih

/-- Lines of which some come first are, put together, a text that comes first. -/
theorem unlines_prefix {ls ls' : List (List Char)} (h : ls <+: ls') :
    unlines ls <+: unlines ls' := by
  obtain ⟨more, rfl⟩ := h
  induction ls with
  | nil => exact List.nil_prefix
  | cons l ls ih =>
    cases ls with
    | nil =>
      cases more with
      | nil => simp
      | cons m more =>
        rw [List.singleton_append, unlines_cons_cons]
        simp [unlines]
    | cons second ls =>
      rw [List.cons_append, List.cons_append, unlines_cons_cons, unlines_cons_cons]
      exact (List.prefix_append_right_inj _).2 (List.cons_prefix_cons.2 ⟨rfl, ih⟩)

/-- A word without a line feed stands before the end of a line or behind it. -/
theorem prefix_or_behind {xs word line rest : List Char} (hword : '\n' ∉ word) (hne : word ≠ [])
    (h : xs ++ word <+: line ++ '\n' :: rest) :
    xs ++ word <+: line ∨ ∃ ys, xs = line ++ '\n' :: ys ∧ ys ++ word <+: rest := by
  obtain ⟨more, hmore⟩ := h
  rw [List.append_assoc] at hmore
  rcases List.append_eq_append_iff.1 hmore with ⟨as, rfl, has⟩ | ⟨bs, rfl, hbs⟩
  · -- The word starts on the line, and a line feed would have to be in it.
    rcases List.append_eq_append_iff.1 has with ⟨as', rfl, -⟩ | ⟨bs, rfl, hbs⟩
    · exact .inl (by simp)
    · cases bs with
      | nil => exact .inl (by simp)
      | cons b bs =>
        rw [List.cons_append, List.cons.injEq] at hbs
        simp [← hbs.1] at hword
  · cases bs with
    | nil =>
      obtain ⟨w, word, rfl⟩ := List.exists_cons_of_ne_nil hne
      rw [List.nil_append, List.cons_append, List.cons.injEq] at hbs
      simp [← hbs.1] at hword
    | cons b bs =>
      rw [List.cons_append, List.cons.injEq] at hbs
      exact .inr ⟨bs, by rw [hbs.1], more, by rw [hbs.2, List.append_assoc]⟩

/-- A word without a line feed, somewhere in the lines of a text, is in one of them. -/
theorem exists_line_of_prefix {texts : List (List Char)} (htexts : ∀ t ∈ texts, '\n' ∉ t)
    {xs word : List Char} (hword : '\n' ∉ word) (hne : word ≠ [])
    (h : xs ++ word <+: unlines texts) :
    ∃ j t ys, texts[j]? = some t ∧ ys ++ word <+: t ∧ ∀ loc : Loc, xs.foldl Loc.next loc =
      if j = 0 then loc.forward ys.length else ⟨loc.line + j, ys.length + 1⟩ := by
  induction texts generalizing xs with
  | nil => simp [unlines, hne] at h
  | cons first texts ih =>
    have hfirst : '\n' ∉ first := htexts first (by simp)
    -- on the first line nothing is passed but characters of that line
    have here (hpre : xs ++ word <+: first) : ∃ j t ys, (first :: texts)[j]? = some t ∧
        ys ++ word <+: t ∧ ∀ loc : Loc, xs.foldl Loc.next loc =
          if j = 0 then loc.forward ys.length else ⟨loc.line + j, ys.length + 1⟩ := by
      refine ⟨0, first, xs, rfl, hpre, fun loc => ?_⟩
      have hxs : '\n' ∉ xs := fun hmem =>
        hfirst (hpre.subset (List.mem_append_left _ hmem))
      rw [if_pos rfl, Loc.foldl_next_of_plain hxs]
    cases texts with
    | nil => exact here (by simpa [unlines] using h)
    | cons second texts =>
      rw [unlines_cons_cons] at h
      rcases prefix_or_behind hword hne h with hpre | ⟨ys, rfl, hys⟩
      · exact here hpre
      · obtain ⟨j, t, zs, hj, hzs, hloc⟩ := ih (fun t ht => htexts t (by simp [ht])) hys
        refine ⟨j + 1, t, zs, by simpa using hj, hzs, fun loc => ?_⟩
        rw [List.append_cons, List.foldl_append, Loc.foldl_next_of_line hfirst, hloc,
          if_neg (Nat.succ_ne_zero j)]
        split
        · rename_i h0
          subst h0
          rw [Loc.forward, Nat.add_comm 1]
        · rw [Nat.add_assoc, Nat.add_comm 1]

end DocSignature.Text

namespace DocSignature.Source

/-- The line `n` of a source. -/
def lineOf (cs : List Char) (n : Nat) : List Char :=
  (Text.lines cs).getD (n - 1) []

/-- What stands at the start of a line is what the line starts with. -/
theorem StandsAt.prefix_lineOf {cs line : List Char} {n : Nat} (h : StandsAt cs ⟨n, 1⟩ line)
    (hline : '\n' ∉ line) : line <+: lineOf cs n := by
  obtain ⟨front, rest, rfl, hloc⟩ := standsAt_iff.1 h
  obtain ⟨part, parts, hcut⟩ := List.exists_cons_of_ne_nil (TypeExpr.cut_ne_nil '\n' rest)
  have hlines : Text.lines (line ++ rest) = (line ++ part) :: parts :=
    TypeExpr.cut_append hline hcut
  unfold lineOf
  rcases List.eq_nil_or_concat front with rfl | ⟨before, c, rfl⟩
  · cases hloc
    rw [List.nil_append, hlines]
    exact List.prefix_append line part
  · rw [List.concat_eq_append] at hloc ⊢
    rw [List.foldl_append, List.foldl_cons, List.foldl_nil, Loc.next] at hloc
    -- a character in front of the start of a line is a line feed
    split at hloc
    · rename_i hc
      have hn : n - 1 = (Text.lines before).length := by
        rw [Text.length_lines]
        have hfst := congrArg Loc.line hloc
        simp only [foldl_next_line] at hfst
        change 1 + _ + 1 = n at hfst
        omega
      rw [hc, List.append_assoc, List.singleton_append, Text.lines_append_line, hlines, hn]
      simp
    · have hpos := (Loc.one_le_foldl_next before .first (by decide)).2
      have hsnd := congrArg Loc.column hloc
      simp only at hsnd
      omega

/-! ## Doc comments of a source -/

/-- A doc comment goes on up to its closing mark. -/
theorem exists_of_docComment {cs : List Char} {n : Nat}
    (h : regionAt? cs = some (.docComment, n)) :
    ∃ body m, cs = '/' :: '*' :: '*' :: body ∧ commentEnd? body = some m ∧ n = m + 3 := by
  unfold regionAt? at h
  split at h
  · split at h
    · split at h
      · cases h
      · obtain ⟨m, hm, heq⟩ := Option.map_eq_some_iff.1 h
        cases heq
        exact ⟨_, m, rfl, hm, rfl⟩
    · obtain ⟨m, -, heq⟩ := Option.map_eq_some_iff.1 h
      cases heq
  · cases h
  · split at h
    · obtain ⟨m, -, heq⟩ := Option.map_eq_some_iff.1 h
      cases heq
    · cases h
  · cases h

/-- A doc comment stands at its place, and its opening mark is on one line. -/
theorem standsAt_of_mem_docBlocks {cs : List Char} {block : DocBlock} (h : block ∈ docBlocks cs) :
    StandsAt cs block.loc block.text ∧ '\n' ∉ block.text.take 3 ∧ 3 ≤ block.text.length := by
  obtain ⟨r, hr, rfl⟩ := List.mem_map.1 h
  obtain ⟨hregion, hkind⟩ := List.mem_filter.1 hr
  obtain ⟨front, rest, size, rfl, hstart, hstop, hfind⟩ := Text.hitsFrom_spec _ _ _ _ r hregion
  rw [of_decide_eq_true hkind] at hfind
  obtain ⟨body, k, rfl, -, rfl⟩ := exists_of_docComment hfind
  rw [Nat.zero_add] at hstart
  have htext : slice (front ++ '/' :: '*' :: '*' :: body) r.start r.stop =
      '/' :: '*' :: '*' :: body.take k := by
    rw [slice, hstop, Nat.add_sub_cancel_left, hstart, List.drop_left]
    rfl
  dsimp only
  rw [htext, hstart]
  refine ⟨⟨front.length, by simp, rfl, ?_⟩, by simp, by simp⟩
  rw [List.drop_left]
  exact ⟨body.drop k, by simp⟩

end DocSignature.Source

namespace DocSignature.Tag

open Source (StandsAt lineOf)

/-! ## Margins -/

/-- The number of characters of a later line of a comment that stand before what it says. -/
def margin (line : List Char) : Nat :=
  line.length - (Text.trimLeft (undecorated line)).length

theorem undecorated_suffix (line : List Char) : undecorated line <:+ line := by
  have hsuffix : Text.trimLeft line <:+ line := List.dropWhile_suffix _
  unfold undecorated
  split
  · rename_i rest hstar
    rw [hstar] at hsuffix
    have hrest : rest <:+ line := (List.suffix_cons _ _).trans hsuffix
    split
    · exact List.suffix_rfl
    · split
      · exact (List.suffix_cons _ _).trans hrest
      · exact hrest
    · exact hrest
  · exact List.suffix_rfl

theorem undecorated_append {line : List Char} (h : Text.trimLeft (undecorated line) ≠ [])
    (rest : List Char) : undecorated (line ++ rest) = undecorated line ++ rest := by
  have hne : Text.trimLeft line ≠ [] := by
    intro hnil
    rw [undecorated, hnil] at h
    exact h hnil
  have happend := Text.trimLeft_append_of_ne_nil hne rest
  unfold undecorated at h ⊢
  rw [happend]
  cases hline : Text.trimLeft line with
  | nil => exact absurd hline hne
  | cons c more =>
    rw [hline] at h
    by_cases hc : c = '*'
    · subst hc
      cases more with
      | nil => exact absurd rfl h
      | cons d more =>
        by_cases hd : d = '/'
        · subst hd
          rfl
        · simp only [List.cons_append]
          split <;> rfl
    · simp [hc]

/-- What follows on a line does not change its margin. -/
theorem margin_append {line : List Char} (h : Text.trimLeft (undecorated line) ≠ [])
    (rest : List Char) : margin (line ++ rest) = margin line := by
  unfold margin
  rw [undecorated_append h, Text.trimLeft_append_of_ne_nil h, List.length_append,
    List.length_append]
  omega

/-! ## The lines of a comment -/

/-- A line of a comment that starts on line `first` of the source, `i` lines further down. -/
structure Line.Placed (cs : List Char) (first i : Nat) (l : Line) : Prop where
  stands : StandsAt cs l.loc l.text
  plain : '\n' ∉ l.text
  line : l.loc.line = first + i
  column : 0 < i → l.text ≠ [] → l.loc.column = 1 + margin (lineOf cs l.loc.line)

/-- Below a line, the place that counts only what the comment says is the place in the source less
the margin. -/
theorem Line.Placed.forward_margin {cs : List Char} {first i j : Nat} {l l' : Line}
    (hl : l.Placed cs first i) (hl' : l'.Placed cs first (i + j)) (hj : j ≠ 0) (hne : l'.text ≠ [])
    (n : Nat) :
    (⟨l.loc.line + j, n + 1⟩ : Loc).forward (margin (lineOf cs (l.loc.line + j))) =
      l'.loc.forward n := by
  have hline : l'.loc.line = l.loc.line + j := by
    rw [hl'.line, hl.line, Nat.add_assoc]
  have hcolumn := hl'.column (by omega) hne
  rw [hline] at hcolumn
  simp only [Loc.forward, hline, hcolumn, Loc.mk.injEq, true_and]
  omega

theorem placed_lineAt {cs : List Char} {start : Loc} {line content : List Char}
    (hline : StandsAt cs start line) (hplain : '\n' ∉ line) (hcontent : content <:+ line) :
    StandsAt cs (lineAt start line content).loc (lineAt start line content).text ∧
      '\n' ∉ (lineAt start line content).text := by
  have hbody : Text.trimLeft content <:+ line := (List.dropWhile_suffix _).trans hcontent
  have htext : (lineAt start line content).text <+: Text.trimLeft content :=
    Text.trimRight_prefix _
  obtain ⟨front, rfl⟩ := hbody
  have hfront : '\n' ∉ front := fun hmem => hplain (List.mem_append_left _ hmem)
  have hloc : (lineAt start (front ++ Text.trimLeft content) content).loc =
      front.foldl Loc.next start := by
    rw [Loc.foldl_next_of_plain hfront, lineAt]
    simp
  rw [hloc]
  refine ⟨hline.behind.mono htext, fun hmem => hplain ?_⟩
  exact List.mem_append_right _ (htext.subset hmem)

theorem getElem?_laterLines (n : Nat) (ls : List (List Char)) (i : Nat) :
    (laterLines n ls)[i]? = ls[i]?.map fun line => lineAt ⟨n + i, 1⟩ line (undecorated line) := by
  induction ls generalizing n i with
  | nil => rfl
  | cons line ls ih =>
    cases i with
    | zero => rfl
    | succ i =>
      rw [laterLines, List.getElem?_cons_succ, List.getElem?_cons_succ, ih]
      rw [Nat.add_assoc, Nat.add_comm 1 i]

/-- Each line of a comment is placed where it stands. -/
theorem placed_bodyLines {cs text : List Char} {loc : Loc} (h : StandsAt cs loc text)
    (hmark : '\n' ∉ text.take 3) (hlength : 3 ≤ text.length) {i : Nat} {l : Line}
    (hi : (bodyLines loc text)[i]? = some l) : l.Placed cs loc.line i := by
  have hinner : StandsAt cs (loc.forward 3) ((text.drop 3).take (text.length - 5)) := by
    have htext := h
    rw [← List.take_append_drop 3 text] at htext
    have hbehind := htext.behind
    rw [Loc.foldl_next_of_plain hmark, List.length_take, min_eq_left hlength] at hbehind
    exact hbehind.mono (List.take_prefix _ _)
  have hlines : StandsAt cs (loc.forward 3)
      (Text.unlines (Text.lines ((text.drop 3).take (text.length - 5)))) := by
    rwa [Text.unlines, Text.lines, TypeExpr.intercalate_cut]
  have hplain : ∀ line ∈ Text.lines ((text.drop 3).take (text.length - 5)), '\n' ∉ line :=
    fun line hline => Text.not_mem_of_mem_cut hline
  unfold bodyLines at hi
  split at hi
  · simp at hi
  · rename_i line rest hcut
    rw [hcut] at hlines hplain
    cases i with
    | zero =>
      cases hi
      obtain ⟨hstands, hnot⟩ := placed_lineAt (hlines.line hplain (i := 0) rfl)
        (hplain line (by simp)) List.suffix_rfl
      exact ⟨hstands, hnot, rfl, fun hlt => absurd hlt (lt_irrefl 0)⟩
    | succ i =>
      rw [List.getElem?_cons_succ, getElem?_laterLines] at hi
      obtain ⟨later, hlater, rfl⟩ := Option.map_eq_some_iff.1 hi
      have hstart : StandsAt cs ⟨loc.line + 1 + i, 1⟩ later := by
        have hline := hlines.line hplain (i := i + 1) (by simpa using hlater)
        rw [if_neg (Nat.succ_ne_zero i)] at hline
        rwa [Nat.add_assoc, Nat.add_comm 1 i]
      have hnot : '\n' ∉ later := hplain later (by simp [List.mem_of_getElem? hlater])
      obtain ⟨hstands, hnot'⟩ := placed_lineAt hstart hnot (undecorated_suffix later)
      refine ⟨hstands, hnot', ?_, fun _ hne => ?_⟩
      · exact Nat.add_right_comm _ _ _
      · -- what is left of the line shows that its margin ends on it
        have hbody : Text.trimLeft (undecorated later) ≠ [] := by
          intro hnil
          simp [lineAt, hnil, Text.trimRight] at hne
        obtain ⟨more, hmore⟩ := hstart.prefix_lineOf hnot
        change 1 + (later.length - _) = 1 + margin (lineOf cs (loc.line + 1 + i))
        rw [← hmore, margin_append hbody, margin]

end DocSignature.Tag

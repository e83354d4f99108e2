import DocSignature.Proofs.PatchRegion

/-!
# Spots of a patch

The comments and literals of a patch as places in its list of cells. Each spot is a region of the
old text and one of the new text, and these are all the regions there are.
-/

namespace DocSignature.Patch

open Source

/-- A comment or a literal of a patch: the cells in front of it, its text and its kind. -/
structure Spot where
  before : List Cell
  inside : List Char
  kind : RegionKind

/-- A spot as a region of a text. -/
def Spot.region (side : Side) (s : Spot) : Region :=
  ⟨(text side s.before).length, (text side s.before).length + s.inside.length, s.kind⟩

/-- Holds of a spot whose characters stay. -/
def Spot.In (p : List Cell) (s : Spot) : Prop :=
  ∃ after, p = s.before ++ s.inside.map .kept ++ after

/-- No swap starts in one of some regions of the old text. -/
def Clear (p : List Cell) (rs : List Region) : Prop :=
  ∀ before o n after, p = before ++ .swap o n :: after → ∀ r ∈ rs,
    ¬(r.start ≤ (text .old before).length ∧ (text .old before).length < r.stop)

/-! ## Steps of the search -/

theorem Sound.regionsFrom_swap {o n : List Char} {q : List Cell} (h : Sound (.swap o n :: q))
    (front : List Cell) (side : Side) :
    regionsFrom (text side front).length (text side (.swap o n :: q)) =
      regionsFrom (text side (front ++ [.swap o n])).length (text side q) := by
  obtain ⟨ho, hn⟩ := h.quiet o n (by simp)
  have hquiet : ∀ c ∈ (Cell.swap o n).text side, isQuiet c = true := by
    cases side with
    | old => exact ho.quiet
    | new => exact hn.quiet
  rw [text_cons, regionsFrom_quiet hquiet]
  simp

theorem Sound.regionsFrom_kept {c : Char} {q : List Cell} (h : Sound q)
    (hnone : regionAt? (c :: text .old q) = none) (front : List Cell) (side : Side) :
    regionsFrom (text side front).length (text side (.kept c :: q)) =
      regionsFrom (text side (front ++ [.kept c])).length (text side q) := by
  have hside : regionAt? (c :: text side q) = none := by
    cases side with
    | old => exact hnone
    | new => exact h.regionAt?_none hnone
  rw [text_cons, Cell.text, List.singleton_append, regionsFrom_none hside]
  simp [Cell.text]

theorem Sound.regionsFrom_region {xs : List Char} {ys : List Cell} (h : Sound ys)
    {kind : RegionKind} (hsome : regionAt? (xs ++ text .old ys) = some (kind, xs.length))
    (front : List Cell) (side : Side) :
    regionsFrom (text side front).length (text side (xs.map .kept ++ ys)) =
      Spot.region side ⟨front, xs, kind⟩ ::
        regionsFrom (text side (front ++ xs.map .kept)).length (text side ys) := by
  have hside : regionAt? (xs ++ text side ys) = some (kind, xs.length) := by
    cases side with
    | old => exact hsome
    | new => exact h.regionAt?_some hsome
  rw [text_append, text_kept, regionsFrom_some hside]
  simp [Spot.region]

/-- A region in which no swap starts stays as a whole. -/
theorem Clear.exists_kept {p front q : List Cell} (hp : p = front ++ q)
    (hclear : Clear p (regionsFrom (text .old front).length (text .old q)))
    {kind : RegionKind} {m : Nat} (hregion : regionAt? (text .old q) = some (kind, m)) :
    ∃ (xs : List Char) (ys : List Cell), q = xs.map .kept ++ ys ∧ xs.length = m := by
  rcases kept_run .old q m (regionAt?_le hregion) with
    ⟨xs, ys, hsplit, hlen⟩ | ⟨xs, o, w, ys, hsplit, hlt⟩
  · exact ⟨xs, ys, hsplit, hlen⟩
  · exfalso
    have hmem : (⟨(text .old front).length, (text .old front).length + m, kind⟩ : Region) ∈
        regionsFrom (text .old front).length (text .old q) := by
      cases htext : text .old q with
      | nil =>
        rw [htext] at hregion
        cases hregion
      | cons c cs =>
        rw [htext] at hregion
        simp [regionsFrom, Text.hitsFrom, hregion]
    have hinside := hclear (front ++ xs.map .kept) o w ys
      (by rw [hp, hsplit, List.append_assoc]) _ hmem
    simp only [text_append, text_kept, List.length_append] at hinside
    omega

/-- The regions of both texts are found step by step at the same spots. -/
theorem Sound.exists_spots {p : List Cell} :
    ∀ (q : List Cell), Sound q → ∀ front, p = front ++ q →
      Clear p (regionsFrom (text .old front).length (text .old q)) →
      ∃ spots : List Spot, (∀ s ∈ spots, s.In p) ∧ ∀ side,
        regionsFrom (text side front).length (text side q) = spots.map (Spot.region side) := by
  intro q
  -- A region takes several cells at once, so the induction is on the number of cells.
  induction hn : q.length using Nat.strong_induction_on generalizing q with
  | _ n ih =>
  intro hq front hp hclear
  have next (xs ys : List Cell) (hxs : xs ≠ []) (hsplit : q = xs ++ ys)
      (hsub : regionsFrom (text .old (front ++ xs)).length (text .old ys) ⊆
        regionsFrom (text .old front).length (text .old q)) :
      ∃ spots : List Spot, (∀ s ∈ spots, s.In p) ∧ ∀ side,
        regionsFrom (text side (front ++ xs)).length (text side ys) =
          spots.map (Spot.region side) := by
    have hlt : ys.length < n := by
      have := List.length_pos_iff.2 hxs
      rw [← hn, hsplit, List.length_append]
      omega
    refine ih ys.length hlt ys rfl (hsplit ▸ hq).suffix (front ++ xs) ?_ ?_
    · rw [hp, hsplit, List.append_assoc]
    · intro before o w after heq r hr
      exact hclear before o w after heq r (hsub hr)
  cases q with
  | nil => exact ⟨[], by simp, fun _ => rfl⟩
  | cons cell q =>
    cases cell with
    | swap o w =>
      have hstep := hq.regionsFrom_swap front
      obtain ⟨spots, hin, hspots⟩ := next [.swap o w] q (by simp) rfl (by
        rw [hstep]
        exact List.Subset.refl _)
      exact ⟨spots, hin, fun side => (hstep side).trans (hspots side)⟩
    | kept c =>
      cases hregion : regionAt? (text .old (.kept c :: q)) with
      | none =>
        have hstep := hq.tail.regionsFrom_kept hregion front
        obtain ⟨spots, hin, hspots⟩ := next [.kept c] q (by simp) rfl (by
          rw [hstep]
          exact List.Subset.refl _)
        exact ⟨spots, hin, fun side => (hstep side).trans (hspots side)⟩
      | some found =>
        obtain ⟨kind, m⟩ := found
        obtain ⟨xs, ys, hsplit, rfl⟩ := Clear.exists_kept hp hclear hregion
        have htwo := two_le_of_regionAt? hregion
        rw [hsplit] at hq hregion
        rw [text_append, text_kept] at hregion
        have hstep := hq.suffix.regionsFrom_region hregion front
        rw [← hsplit] at hstep
        obtain ⟨spots, hin, hspots⟩ := next (xs.map .kept) ys (by
          rintro hnil
          rw [List.map_eq_nil_iff.1 hnil] at htwo
          simp at htwo) hsplit (by
            rw [hstep]
            exact List.subset_cons_self _ _)
        refine ⟨⟨front, xs, kind⟩ :: spots, List.forall_mem_cons.2 ⟨⟨ys, ?_⟩, hin⟩, fun side => ?_⟩
        · rw [hp, hsplit, List.append_assoc]
        · rw [hstep, hspots]
          rfl

/-! ## Covered places -/

theorem sized_regionAt? : Text.Sized fun _ rest => regionAt? rest := by
  intro before cs kind size h
  have htwo := two_le_of_regionAt? h
  exact ⟨by omega, regionAt?_le h⟩

/-- Regions follow one another. -/
theorem regions_pairwise (cs : List Char) :
    (regions cs).Pairwise fun a b => a.stop ≤ b.start :=
  Text.hitsFrom_pairwise sized_regionAt? cs none 0 0

/-- At the start of a region a comment or literal is recognised. -/
theorem regionAt?_drop_start {cs : List Char} {r : Region} (hr : r ∈ regions cs) :
    ∃ size, regionAt? (cs.drop r.start) = some (r.value, size) ∧ r.stop = r.start + size := by
  obtain ⟨front, rest, size, rfl, hstart, hstop, hfind⟩ := Text.hitsFrom_spec _ _ _ _ r hr
  refine ⟨size, ?_, hstop⟩
  rw [hstart, Nat.zero_add, List.drop_left]
  exact hfind

/-- An offset is covered when it lies in one of the regions. -/
theorem covers_iff (cs : List Char) (offset : Nat) :
    covers (regions cs) offset = true ↔
      ∃ r ∈ regions cs, r.start ≤ offset ∧ offset < r.stop := by
  have hpair := regions_pairwise cs
  have hlt : ∀ r ∈ regions cs, r.start < r.stop := fun r hr =>
    (Text.hits_bounds sized_regionAt? hr).1
  generalize regions cs = rs at hpair hlt
  rw [covers]
  constructor
  · intro h
    split at h
    · rename_i r hlast
      have hmem := List.mem_of_getLast? hlast
      have hstart := List.mem_takeWhile_imp hmem
      exact ⟨r, (List.takeWhile_sublist _).subset hmem, by simpa using hstart, by simpa using h⟩
    · cases h
  · rintro ⟨r, hr, hstart, hstop⟩
    obtain ⟨front, back, rfl⟩ := List.append_of_mem hr
    have hfront : ∀ a ∈ front, decide (a.start ≤ offset) = true := by
      intro a ha
      have := (List.pairwise_append.1 hpair).2.2 a ha r (by simp)
      have := hlt a (by simp [ha])
      exact decide_eq_true (by omega)
    -- The regions behind this one start later than the offset.
    have hback : back.takeWhile (fun a => decide (a.start ≤ offset)) = [] := by
      cases back with
      | nil => rfl
      | cons b back =>
        have := (List.pairwise_cons.1 (List.pairwise_append.1 hpair).2.1).1 b (by simp)
        exact List.takeWhile_cons_of_neg (by simp; omega)
    rw [List.takeWhile_append_of_pos hfront, List.takeWhile_cons_of_pos (by simpa using hstart),
      hback]
    simpa using hstop

/-- The spots of a patch: all the regions of both texts. -/
structure Marked (p : List Cell) (spots : List Spot) : Prop where
  spot : ∀ s ∈ spots, s.In p
  regions : ∀ side, regions (text side p) = spots.map (Spot.region side)

theorem Sound.exists_marked {p : List Cell} (h : Sound p)
    (hclear : Clear p (regions (text .old p))) : ∃ spots, Marked p spots := by
  obtain ⟨spots, hin, hspots⟩ := Sound.exists_spots p h [] rfl hclear
  exact ⟨spots, hin, hspots⟩

/-- A place inside of a spot is in front of a character that stays. -/
theorem Sound.kept_of_inside {p before rest : List Cell} (h : Sound p) {s : Spot} (hin : s.In p)
    (hp : p = before ++ rest) {side : Side}
    (hstart : (s.region side).start ≤ (text side before).length)
    (hstop : (text side before).length < (s.region side).stop) :
    ∃ xs c ys rest', s.inside = xs ++ c :: ys ∧ before = s.before ++ xs.map .kept ∧
      rest = .kept c :: rest' := by
  obtain ⟨after, hafter⟩ := hin
  rw [List.append_assoc] at hafter
  obtain ⟨mid, rfl⟩ := h.prefix_of_length hafter hp hstart
  rw [hafter, List.append_assoc, List.append_cancel_left_eq] at hp
  simp only [Spot.region, text_append, List.length_append] at hstop
  rcases List.append_eq_append_iff.1 hp with ⟨t, rfl, -⟩ | ⟨t, hkept, hrest⟩
  · simp only [text_append, text_kept, List.length_append] at hstop
    omega
  · obtain ⟨xs, ys, hinside, rfl, rfl⟩ := List.map_eq_append_iff.1 hkept
    cases ys with
    | nil =>
      rw [hinside, text_kept] at hstop
      simp at hstop
    | cons c ys => exact ⟨xs, c, ys, _, hinside, rfl, hrest⟩

/-- A character that stays is in no swap. -/
theorem Sound.kept_outside {p before after b a : List Cell} (h : Sound p) {c : Char}
    {o n : List Char} (hp : p = before ++ .kept c :: after) (hb : p = b ++ .swap o n :: a)
    (hle : (text .old b).length ≤ (text .old before).length) :
    (text .old b).length + o.length ≤ (text .old before).length := by
  rcases h.cell_cases hb hp hle with ⟨-, hcells⟩ | hbehind
  · cases hcells
  · exact hbehind

section Marked
variable {p : List Cell} (h : Sound p) {spots : List Spot} (hm : Marked p spots)
include h hm

/-- A character that is covered in the old text is covered in the new one. -/
theorem Sound.covers_kept {before after : List Cell} (hp : p = before ++ after)
    (hcov : covers (regions (text .old p)) (text .old before).length = true) :
    covers (regions (text .new p)) (text .new before).length = true := by
  rw [covers_iff] at hcov ⊢
  obtain ⟨r, hr, hstart, hstop⟩ := hcov
  rw [hm.regions] at hr
  obtain ⟨s, hs, rfl⟩ := List.mem_map.1 hr
  obtain ⟨xs, c, ys, -, hinside, rfl, -⟩ := h.kept_of_inside (hm.spot s hs) hp hstart hstop
  refine ⟨s.region .new, ?_, ?_, ?_⟩
  · rw [hm.regions]
    exact List.mem_map_of_mem hs
  · simp [Spot.region]
  · simp [Spot.region, hinside]

/-- No swap starts at a covered place of the new text. -/
theorem Sound.covers_swap {before after : List Cell} {o n : List Char}
    (hp : p = before ++ .swap o n :: after) :
    covers (regions (text .new p)) (text .new before).length = false := by
  rw [Bool.eq_false_iff, Ne, covers_iff]
  rintro ⟨r, hr, hstart, hstop⟩
  rw [hm.regions] at hr
  obtain ⟨s, hs, rfl⟩ := List.mem_map.1 hr
  obtain ⟨xs, c, ys, rest, -, -, hrest⟩ := h.kept_of_inside (hm.spot s hs) hp hstart hstop
  cases hrest

end Marked

end DocSignature.Patch

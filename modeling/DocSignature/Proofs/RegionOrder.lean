import DocSignature.Proofs.CommentLine
import DocSignature.Proofs.Spots

/-!
# Comments and literals in order

The comments and literals of a source are stretches of it that follow one another. The doc comments
among them can be told by how they start, and each goes to the first closing mark behind its opening
one. An offset lies in one of the stretches exactly when the last that starts no later holds it.
-/

namespace DocSignature.Source

/-! ## The ends of comments -/

/-- A comment is closed once, at its end. -/
theorem mark_iff_of_commentEnd? {cs : List Char} {n : Nat} (h : commentEnd? cs = some n) (i : Nat) :
    "*/".toList <+: (cs.take n).drop i ↔ i + 2 = n := by
  induction cs generalizing n i with
  | nil => cases h
  | cons c cs ih =>
    unfold commentEnd? at h
    split at h
    · rename_i hend
      cases h
      simp only [Bool.and_eq_true, decide_eq_true_eq] at hend
      obtain ⟨rfl, hslash⟩ := hend
      obtain ⟨rest, rfl⟩ := List.head?_eq_some_iff.1 hslash
      -- What is taken is the closing mark alone.
      rcases i with _ | _ | i <;> simp
    · rename_i hend
      obtain ⟨m, hm, rfl⟩ := Option.map_eq_some_iff.1 h
      have htwo := two_le_of_commentEnd? hm
      cases i with
      | zero =>
        refine iff_of_false ?_ (by omega)
        have hle := commentEnd?_le hm
        obtain ⟨d, ds, rfl⟩ : ∃ d ds, cs = d :: ds := List.exists_cons_of_length_pos (by omega)
        obtain ⟨k, rfl⟩ := Nat.exists_eq_add_of_le' htwo
        rintro ⟨rest, hrest⟩
        simp only [List.take_succ_cons, List.drop_zero] at hrest
        cases hrest
        exact hend rfl
      | succ i =>
        rw [List.take_succ_cons, List.drop_succ_cons, ih hm]
        omega

/-- Holds of a text that starts with `/**` and no slash behind it. -/
def opensDoc : List Char → Bool
  | '/' :: '*' :: '*' :: rest => rest.head? ≠ some '/'
  | _ => false

theorem exists_of_opensDoc {text : List Char} (h : opensDoc text = true) :
    ∃ rest, text = '/' :: '*' :: '*' :: rest := by
  unfold opensDoc at h
  split at h
  · exact ⟨_, rfl⟩
  · cases h

/-- Among comments and literals the doc comments are those that start like one. -/
theorem docComment_iff_opensDoc {cs : List Char} {kind : RegionKind} {n : Nat}
    (h : regionAt? cs = some (kind, n)) : kind = .docComment ↔ opensDoc (cs.take n) = true := by
  unfold regionAt? at h
  split at h
  · rename_i body
    split at h
    · rename_i inner
      split at h
      · rename_i hend
        cases h
        obtain ⟨rest, rfl⟩ := List.head?_eq_some_iff.1 hend
        simp [opensDoc]
      · rename_i hend
        obtain ⟨m, hm, heq⟩ := Option.map_eq_some_iff.1 h
        cases heq
        have htwo := two_le_of_commentEnd? hm
        have hhead : (inner.take m).head? = inner.head? := by
          rw [List.head?_take, if_neg (by omega)]
        simpa [opensDoc, hhead] using hend
    · rename_i hstar
      obtain ⟨m, hm, heq⟩ := Option.map_eq_some_iff.1 h
      cases heq
      refine iff_of_false (by simp) fun hopens => ?_
      obtain ⟨rest, hrest⟩ := exists_of_opensDoc hopens
      simp only [List.take_succ_cons, List.cons.injEq, true_and] at hrest
      have hbody : body = '*' :: (rest ++ body.drop m) := by
        rw [← List.cons_append, ← hrest, List.take_append_drop]
      exact hstar _ hbody
  · cases h
    rw [Nat.add_comm]
    simp [opensDoc]
  · rename_i c body _ hslash
    split at h
    · rename_i hquote
      obtain ⟨m, hm, heq⟩ := Option.map_eq_some_iff.1 h
      cases heq
      have hc : c ≠ '/' := by
        rintro rfl
        cases hquote
      refine iff_of_false (by simp) fun hopens => ?_
      obtain ⟨rest, hrest⟩ := exists_of_opensDoc hopens
      exact hc (List.cons.inj hrest).1
    · cases h
  · cases h

/-- A doc comment goes to the first closing mark behind its opening mark. -/
def ClosesOnce (text : List Char) : Prop :=
  5 ≤ text.length ∧ ∀ i, 3 ≤ i → ("*/".toList <+: text.drop i ↔ i + 2 = text.length)

theorem closesOnce_of_docComment {cs : List Char} {n : Nat}
    (h : regionAt? cs = some (.docComment, n)) : ClosesOnce (cs.take n) := by
  obtain ⟨inner, m, rfl, hm, rfl⟩ := exists_of_docComment h
  have htwo := two_le_of_commentEnd? hm
  have hle := commentEnd?_le hm
  have hlength : (('/' :: '*' :: '*' :: inner).take (m + 3)).length = m + 3 := by
    simp
    omega
  refine ⟨by omega, fun i hi => ?_⟩
  obtain ⟨k, rfl⟩ := Nat.exists_eq_add_of_le' hi
  rw [hlength]
  have hmark := mark_iff_of_commentEnd? hm k
  simp only [List.take_succ_cons, List.drop_succ_cons]
  rw [hmark]
  omega

/-! ## The regions of a source -/

theorem slice_region {cs : List Char} {r : Region} (hr : r ∈ regions cs) :
    ∃ n, regionAt? (cs.drop r.start) = some (r.value, n) ∧
      slice cs r.start r.stop = (cs.drop r.start).take n := by
  obtain ⟨n, hregion, hstop⟩ := Patch.regionAt?_drop_start hr
  exact ⟨n, hregion, by rw [slice, hstop, Nat.add_sub_cancel_left]⟩

/-- A doc comment is a stretch of the source. -/
theorem bounds_of_mem_docBlocks {cs : List Char} {block : DocBlock} (h : block ∈ docBlocks cs) :
    block.start < block.stop ∧ block.stop ≤ cs.length ∧ block.loc = locate cs block.start ∧
      block.text = slice cs block.start block.stop := by
  obtain ⟨r, hr, rfl⟩ := List.mem_map.1 h
  obtain ⟨hlt, hle⟩ := Text.hits_bounds Patch.sized_regionAt? (List.mem_of_mem_filter hr)
  exact ⟨hlt, hle, rfl, rfl⟩

/-- Doc comments follow one another. -/
theorem docBlocks_pairwise (cs : List Char) :
    (docBlocks cs).Pairwise fun a b => a.stop ≤ b.start :=
  List.pairwise_map.2 ((Patch.regions_pairwise cs).sublist List.filter_sublist)

/-- Outside of the regions nothing is a comment or a literal. -/
theorem regionAt?_eq_none_of_not_covers {cs : List Char} {offset : Nat}
    (h : covers (regions cs) offset = false) : regionAt? (cs.drop offset) = none := by
  rw [Bool.eq_false_iff, Ne, Patch.covers_iff] at h
  by_contra hregion
  obtain ⟨⟨kind, n⟩, hfind⟩ := Option.ne_none_iff_exists'.1 hregion
  have hlt : offset < cs.length := by
    have htwo := Patch.two_le_of_regionAt? hfind
    have hle := Patch.regionAt?_le hfind
    rw [List.length_drop] at hle
    omega
  have hrest : cs.drop offset ≠ [] := by simpa using hlt
  -- The recogniser does not look at the character in front of the offset.
  have hbehind : (fun _ rest => regionAt? rest : Text.Recogniser RegionKind)
      (cs.take offset).getLast? (cs.drop offset) = some (kind, n) := hfind
  obtain ⟨r, hr, hstart, hstop⟩ := Text.exists_hit_of_find Patch.sized_regionAt? hrest hbehind
  rw [List.take_append_drop] at hr
  rw [List.length_take, Nat.min_eq_left hlt.le] at hstart hstop
  exact h ⟨r, hr, hstart, hstop⟩

/-- A region that starts earlier also stops before a region starts. -/
theorem stop_le_start_of_mem_regions {cs : List Char} {a b : Region} (ha : a ∈ regions cs)
    (hb : b ∈ regions cs) (hlt : a.start < b.start) : a.stop ≤ b.start := by
  have hpair := Patch.regions_pairwise cs
  have hforward : (regions cs).Pairwise fun a b => a.start < b.start → a.stop ≤ b.start := by
    refine hpair.imp ?_
    intro a b hle _
    exact hle
  refine hforward.forall_of_forall_of_flip (fun r _ h => absurd h (lt_irrefl _)) ?_ ha hb hlt
  refine hpair.imp_of_mem fun hfirst _ hle hback => ?_
  have hbounds := Text.hits_bounds Patch.sized_regionAt? hfirst
  omega

/-- The regions of a source are what is recognised at the offsets that no earlier region reaches. -/
theorem mem_regions_iff {cs : List Char} {r : Region} :
    r ∈ regions cs ↔ (∀ earlier ∈ regions cs, earlier.start < r.start → earlier.stop ≤ r.start) ∧
      ∃ size, regionAt? (cs.drop r.start) = some (r.value, size) ∧ r.stop = r.start + size := by
  constructor
  · intro hr
    exact ⟨fun _ hearlier => stop_le_start_of_mem_regions hearlier hr,
      Patch.regionAt?_drop_start hr⟩
  · rintro ⟨hfree, size, hregion, hstop⟩
    have hcovers : covers (regions cs) r.start = true := by
      by_contra hnot
      rw [regionAt?_eq_none_of_not_covers (Bool.eq_false_iff.2 hnot)] at hregion
      cases hregion
    obtain ⟨found, hfound, hle, hlt⟩ := (Patch.covers_iff cs r.start).1 hcovers
    have hstart : found.start = r.start := by
      by_contra hne
      have := hfree found hfound (by omega)
      omega
    obtain ⟨size', hregion', hstop'⟩ := Patch.regionAt?_drop_start hfound
    rw [hstart, hregion] at hregion'
    obtain ⟨hvalue, rfl⟩ := Prod.mk.inj (Option.some.inj hregion')
    have hstops : found.stop = r.stop := by omega
    obtain ⟨start, stop, value⟩ := r
    cases hstart
    cases hstops
    cases hvalue
    exact hfound

/-- The comments and literals of a source are stretches of it that are not empty and follow one
another; they are all that is recognised outside of one another. The doc comments are those that
start like one, each with its text, and that ends with the first closing mark. An offset, also one
behind the source, is covered exactly when a region holds it. -/
theorem regions_are_ordered_stretches (cs : List Char) :
    (∀ r ∈ regions cs, r.start < r.stop ∧ r.stop ≤ cs.length) ∧
    (regions cs).Pairwise (fun a b => a.start < b.start ∧ a.stop ≤ b.start) ∧
    (docBlocks cs).map (fun d => (d.start, d.stop)) =
      ((regions cs).filter fun r => opensDoc (slice cs r.start r.stop)).map
        (fun r => (r.start, r.stop)) ∧
    (∀ d ∈ docBlocks cs, d.text = slice cs d.start d.stop ∧ ClosesOnce d.text) ∧
    (∀ offset, covers (regions cs) offset = true ↔
      ∃ r ∈ regions cs, r.start ≤ offset ∧ offset < r.stop) ∧
    ∀ offset, covers (regions cs) offset = false → regionAt? (cs.drop offset) = none := by
  have hbounds (r : Region) (hr : r ∈ regions cs) : r.start < r.stop ∧ r.stop ≤ cs.length :=
    Text.hits_bounds Patch.sized_regionAt? hr
  have hkinds : ((regions cs).filter fun r => r.value = .docComment) =
      (regions cs).filter fun r => opensDoc (slice cs r.start r.stop) := by
    refine List.filter_congr fun r hr => ?_
    obtain ⟨n, hregion, hslice⟩ := slice_region hr
    rw [hslice, Bool.eq_iff_iff, decide_eq_true_eq, docComment_iff_opensDoc hregion]
  refine ⟨hbounds, ?_, ?_, ?_, Patch.covers_iff cs, fun offset => regionAt?_eq_none_of_not_covers⟩
  · refine (Patch.regions_pairwise cs).imp_of_mem fun ha _ hle => ⟨?_, hle⟩
    exact (hbounds _ ha).1.trans_le hle
  · rw [docBlocks, hkinds, List.map_map]
    rfl
  · intro d hd
    obtain ⟨r, hr, rfl⟩ := List.mem_map.1 hd
    obtain ⟨hr, hkind⟩ := List.mem_filter.1 hr
    obtain ⟨n, hregion, hslice⟩ := slice_region hr
    rw [of_decide_eq_true hkind] at hregion
    refine ⟨rfl, ?_⟩
    rw [hslice]
    exact closesOnce_of_docComment hregion

end DocSignature.Source

namespace DocSignature.DocComment

/-- The comments of a source follow one another. -/
theorem readAll_pairwise (file : Option String) (cs : List Char) :
    (readAll file cs).1.Pairwise fun a b => a.stop ≤ b.start :=
  List.pairwise_map.2 (List.pairwise_map.2 (Source.docBlocks_pairwise cs))

end DocSignature.DocComment

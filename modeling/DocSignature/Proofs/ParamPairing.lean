import DocSignature.Header.Pairing
import Mathlib.Data.List.Nodup
import Mathlib.Data.List.ReduceOption

/-!
# Parameters are paired without loss

Every documented parameter is given to one declared parameter or is left over, and none is left over
while a declared parameter has none. Pairing by name goes by first occurrences on both sides, and
what it leaves is handed out in order.
-/

namespace DocSignature.Header

/-! ## Filling gaps -/

section Fill
variable {α β : Type} {gaps : List (Option α)} {rest : List α}

theorem length_fillGaps (gaps : List (Option α)) (rest : List α) :
    (fillGaps gaps rest).1.length = gaps.length := by
  fun_induction fillGaps gaps rest with
  | case1 rest => rfl
  | case2 a gaps rest filled spare hfill ih => simpa [hfill] using ih
  | case3 gaps b rest filled spare hfill ih => simpa [hfill] using ih
  | case4 gaps => rfl

/-- Filling gaps neither drops nor doubles anything. -/
theorem perm_fillGaps (gaps : List (Option α)) (rest : List α) :
    ((fillGaps gaps rest).1.reduceOption ++ (fillGaps gaps rest).2).Perm
      (gaps.reduceOption ++ rest) := by
  fun_induction fillGaps gaps rest with
  | case1 rest => rfl
  | case2 a gaps rest filled spare hfill ih =>
    rw [hfill] at ih
    simpa using ih
  | case3 gaps b rest filled spare hfill ih =>
    rw [hfill] at ih
    simp only [List.reduceOption_cons_of_some, List.reduceOption_cons_of_none, List.cons_append]
    exact (ih.cons b).trans List.perm_middle.symm
  | case4 gaps => simp

/-- What is left over is the end of what there was to hand out. -/
theorem suffix_fillGaps (gaps : List (Option α)) (rest : List α) :
    (fillGaps gaps rest).2 <:+ rest := by
  fun_induction fillGaps gaps rest with
  | case1 rest => exact List.suffix_rfl
  | case2 a gaps rest filled spare hfill ih => simpa [hfill] using ih
  | case3 gaps b rest filled spare hfill ih =>
    rw [hfill] at ih
    exact ih.trans (List.suffix_cons b rest)
  | case4 gaps => exact List.suffix_rfl

/-- Something is left over only when every gap is filled. -/
theorem none_not_mem_fillGaps (h : (fillGaps gaps rest).2 ≠ []) :
    none ∉ (fillGaps gaps rest).1 := by
  fun_induction fillGaps gaps rest with
  | case1 rest => simp
  | case2 a gaps rest filled spare hfill ih =>
    rw [hfill] at ih
    simpa using ih h
  | case3 gaps b rest filled spare hfill ih =>
    rw [hfill] at ih
    simpa using ih h
  | case4 gaps => exact absurd rfl h

/-- What stood in the list stays where it is. -/
theorem getElem?_fillGaps {i : Nat} {a : α} (h : gaps[i]? = some (some a)) :
    (fillGaps gaps rest).1[i]? = some (some a) := by
  fun_induction fillGaps gaps rest generalizing i with
  | case1 rest => simp at h
  | case2 b gaps rest filled spare hfill ih =>
    cases i with
    | zero => exact h
    | succ i => simpa [hfill] using ih h
  | case3 gaps b rest filled spare hfill ih =>
    cases i with
    | zero => cases h
    | succ i => simpa [hfill] using ih h
  | case4 gaps => exact h

/-- What fills a gap was there to be handed out. -/
theorem mem_of_filled {i : Nat} (hi : gaps[i]? = some none) {a : α}
    (ha : (fillGaps gaps rest).1[i]? = some (some a)) : a ∈ rest := by
  fun_induction fillGaps gaps rest generalizing i with
  | case1 rest => simp at hi
  | case2 b gaps rest filled spare hfill ih =>
    cases i with
    | zero => cases hi
    | succ i =>
      rw [hfill] at ih
      exact ih hi ha
  | case3 gaps b rest filled spare hfill ih =>
    cases i with
    | zero =>
      cases ha
      exact List.mem_cons_self
    | succ i =>
      rw [hfill] at ih
      exact List.mem_cons_of_mem b (ih hi ha)
  | case4 gaps =>
    rw [hi] at ha
    cases ha

/-- Gaps are filled from the front. -/
theorem rel_of_filled {R : α → α → Prop} (hrest : rest.Pairwise R) {i j : Nat} (hij : i < j)
    (hi : gaps[i]? = some none) (hj : gaps[j]? = some none) {a b : α}
    (ha : (fillGaps gaps rest).1[i]? = some (some a))
    (hb : (fillGaps gaps rest).1[j]? = some (some b)) : R a b := by
  fun_induction fillGaps gaps rest generalizing i j with
  | case1 rest => simp at hi
  | case2 c gaps rest filled spare hfill ih =>
    cases i with
    | zero => cases hi
    | succ i =>
      obtain ⟨j, rfl⟩ := Nat.exists_eq_succ_of_ne_zero (Nat.ne_of_gt (Nat.zero_lt_of_lt hij))
      rw [hfill] at ih
      exact ih hrest (Nat.lt_of_succ_lt_succ hij) hi hj ha hb
  | case3 gaps c rest filled spare hfill ih =>
    obtain ⟨hc, hrest⟩ := List.pairwise_cons.1 hrest
    obtain ⟨j, rfl⟩ := Nat.exists_eq_succ_of_ne_zero (Nat.ne_of_gt (Nat.zero_lt_of_lt hij))
    cases i with
    | zero =>
      cases ha
      have hfilled : (fillGaps gaps rest).1[j]? = some (some b) := by
        rw [hfill]
        exact hb
      have hgap : gaps[j]? = some none := hj
      exact hc b (mem_of_filled hgap hfilled)
    | succ i =>
      rw [hfill] at ih
      exact ih hrest (Nat.lt_of_succ_lt_succ hij) hi hj ha hb
  | case4 gaps =>
    rw [hi] at ha
    cases ha

theorem fillGaps_map (f : α → β) (gaps : List (Option α)) (rest : List α) :
    fillGaps (gaps.map (Option.map f)) (rest.map f) =
      ((fillGaps gaps rest).1.map (Option.map f), (fillGaps gaps rest).2.map f) := by
  fun_induction fillGaps gaps rest with
  | case1 rest => rfl
  | case2 a gaps rest filled spare hfill ih => simp [fillGaps, ih, hfill]
  | case3 gaps b rest filled spare hfill ih => simp [fillGaps, ih, hfill]
  | case4 gaps => rfl

end Fill

/-! ## Pairing by name -/

section ByName
variable {docs : List (Doc × Nat)}

theorem getElem?_byName (names : List String) (seen : List String) (i : Nat) :
    (byName docs seen names)[i]? = names[i]?.map fun name =>
      if name ∈ seen ∨ name ∈ names.take i then none
      else docs.find? fun d => d.1.2.name = name := by
  induction names generalizing seen i with
  | nil => rfl
  | cons name names ih =>
    cases i with
    | zero => simp [byName]
    | succ i =>
      have hseen (x : String) :
          (x ∈ name :: seen ∨ x ∈ names.take i) ↔ (x ∈ seen ∨ x ∈ name :: names.take i) := by
        simp only [List.mem_cons]
        tauto
      rw [byName, List.getElem?_cons_succ, List.getElem?_cons_succ, List.take_succ_cons, ih]
      congr 1
      funext x
      exact if_congr (hseen x) rfl rfl

theorem length_byName (docs : List (Doc × Nat)) (names : List String) (seen : List String) :
    (byName docs seen names).length = names.length := by
  induction names generalizing seen with
  | nil => rfl
  | cons name names ih => simp [byName, ih]

/-- What is paired by name was documented, and under a name that was not seen before. -/
theorem mem_byName {names seen : List String} {d : Doc × Nat}
    (h : some d ∈ byName docs seen names) : d ∈ docs ∧ d.1.2.name ∉ seen := by
  obtain ⟨i, hi⟩ := List.mem_iff_getElem?.1 h
  rw [getElem?_byName] at hi
  obtain ⟨name, -, hfind⟩ := Option.map_eq_some_iff.1 hi
  split at hfind
  · cases hfind
  · rename_i hseen
    have hname : d.1.2.name = name := by simpa using List.find?_some hfind
    refine ⟨List.mem_of_find?_eq_some hfind, ?_⟩
    rw [hname]
    exact fun hmem => hseen (.inl hmem)

/-- Under each name something is paired once. -/
theorem pairwise_byName (names seen : List String) :
    (byName docs seen names).reduceOption.Pairwise fun d e => d.1.2.name ≠ e.1.2.name := by
  induction names generalizing seen with
  | nil => exact List.Pairwise.nil
  | cons name names ih =>
    rw [byName]
    split
    · exact ih (name :: seen)
    · cases hfind : docs.find? fun d => d.1.2.name = name with
      | none => exact ih (name :: seen)
      | some d =>
        have hname : d.1.2.name = name := by simpa using List.find?_some hfind
        rw [List.reduceOption_cons_of_some]
        refine List.pairwise_cons.2 ⟨fun e he heq => ?_, ih (name :: seen)⟩
        apply (mem_byName (List.reduceOption_mem_iff.1 he)).2
        rw [← heq, hname]
        exact List.mem_cons_self

end ByName

/-! ## Numbered documentation -/

/-- A text stands in a list at position `i` for the first time. -/
def FirstAt (xs : List String) (i : Nat) (x : String) : Prop :=
  xs[i]? = some x ∧ x ∉ xs.take i

/-- The first documentation of a name, found with its number. -/
theorem find?_zipIdx_iff {tags : List Doc} {name : String} {d : Doc × Nat} :
    (tags.zipIdx.find? fun d => d.1.2.name = name) = some d ↔
      tags[d.2]? = some d.1 ∧ FirstAt (tags.map (·.2.name)) d.2 name := by
  rw [List.find?_eq_some_iff_getElem, FirstAt, List.getElem?_map]
  constructor
  · rintro ⟨hname, i, hi, rfl, hbefore⟩
    rw [List.length_zipIdx] at hi
    simp only [List.getElem_zipIdx, Nat.zero_add, decide_eq_true_eq] at hname hbefore ⊢
    refine ⟨List.getElem?_eq_getElem hi, by simp [hi, hname], fun hmem => ?_⟩
    obtain ⟨k, hk, hsame⟩ := List.mem_take_iff_getElem.1 hmem
    rw [List.getElem_map] at hsame
    simpa [hsame] using hbefore k (by omega)
  · rintro ⟨hdoc, hname, hbefore⟩
    obtain ⟨hi, hget⟩ := List.getElem?_eq_some_iff.1 hdoc
    rw [hdoc, Option.map_some, Option.some.injEq] at hname
    refine ⟨decide_eq_true hname, d.2, by simpa using hi, by simp [hget], fun k hk => ?_⟩
    rw [Bool.not_eq_true', decide_eq_false_iff_not]
    intro hsame
    apply hbefore
    refine List.mem_take_iff_getElem.2 ⟨k, by simp; omega, ?_⟩
    simpa using hsame

section Numbered
variable {names : List String} {docs : List Doc}

theorem eq_of_number {d e : Doc × Nat} (hd : d ∈ numbered docs) (he : e ∈ numbered docs)
    (h : d.2 = e.2) : d = e := by
  have hdoc := List.mem_zipIdx_iff_getElem?.1 hd
  rw [h, List.mem_zipIdx_iff_getElem?.1 he] at hdoc
  exact Prod.ext (Option.some.inj hdoc).symm h

/-- The numbers go up. -/
theorem pairwise_numbered (docs : List Doc) :
    (numbered docs).Pairwise fun d e => d.2 < e.2 := by
  have hrange : ((numbered docs).map (·.2)).Pairwise (· < ·) := by
    rw [numbered, List.zipIdx_map_snd]
    exact List.pairwise_lt_range'
  exact List.pairwise_map.1 hrange

/-- The documentation that pairing by name leaves, with its numbers. -/
def unnamed (names : List String) (docs : List Doc) : List (Doc × Nat) :=
  let given := byName (numbered docs) [] names
  (numbered docs).filter fun d => !(given.any fun g => g.any fun e => e.2 == d.2)

theorem mem_unnamed_iff {d : Doc × Nat} (hd : d ∈ numbered docs) :
    d ∈ unnamed names docs ↔ d ∉ (byName (numbered docs) [] names).reduceOption := by
  have hany : ((byName (numbered docs) [] names).any fun g => g.any fun e => e.2 == d.2) = true ↔
      d ∈ (byName (numbered docs) [] names).reduceOption := by
    rw [List.reduceOption_mem_iff, List.any_eq_true]
    constructor
    · rintro ⟨g, hg, hnumber⟩
      cases g with
      | none => cases hnumber
      | some e => rwa [← eq_of_number (mem_byName hg).1 hd (by simpa using hnumber)]
    · intro hmem
      exact ⟨some d, hmem, by simp⟩
  rw [unnamed, List.mem_filter, Bool.not_eq_true', ← Bool.not_eq_true, hany]
  exact and_iff_right hd

theorem unnamed_sublist (names : List String) (docs : List Doc) :
    (unnamed names docs).Sublist (numbered docs) :=
  List.filter_sublist

/-- Pairing by name neither drops nor doubles a documentation. -/
theorem perm_unnamed (names : List String) (docs : List Doc) :
    ((byName (numbered docs) [] names).reduceOption ++ unnamed names docs).Perm
      (numbered docs) := by
  have hall : (numbered docs).Nodup :=
    (pairwise_numbered docs).imp fun hlt heq => Nat.ne_of_lt hlt (congrArg Prod.snd heq)
  have hgiven : (byName (numbered docs) [] names).reduceOption.Nodup :=
    (pairwise_byName names []).imp fun hne heq => hne (congrArg (·.1.2.name) heq)
  have hsub : ∀ d ∈ (byName (numbered docs) [] names).reduceOption, d ∈ numbered docs :=
    fun d hd => (mem_byName (List.reduceOption_mem_iff.1 hd)).1
  have hunnamed := unnamed_sublist names docs
  refine (List.perm_ext_iff_of_nodup ?_ hall).2 fun d => ?_
  · refine List.nodup_append'.2 ⟨hgiven, hall.sublist hunnamed, fun d hd hleft => ?_⟩
    exact (mem_unnamed_iff (hsub d hd)).1 hleft hd
  · rw [List.mem_append]
    constructor
    · rintro (hd | hd)
      · exact hsub d hd
      · exact hunnamed.subset hd
    · intro hd
      by_cases hmem : d ∈ (byName (numbered docs) [] names).reduceOption
      · exact .inl hmem
      · exact .inr ((mem_unnamed_iff hd).2 hmem)

/-- A pairing with the numbers of the documentation kept. -/
def pairNumbered (names : List String) (docs : List Doc) :
    List (Option (Doc × Nat)) × List (Doc × Nat) :=
  fillGaps (byName (numbered docs) [] names) (unnamed names docs)

theorem pair_eq_pairNumbered (names : List String) (docs : List Doc) :
    pair names docs = ((pairNumbered names docs).1.map (Option.map (·.1)),
      (pairNumbered names docs).2.map (·.1)) :=
  fillGaps_map Prod.fst (byName (numbered docs) [] names) (unnamed names docs)

/-- Every documentation is paired once or left over. -/
theorem perm_pairNumbered (names : List String) (docs : List Doc) :
    ((pairNumbered names docs).1.reduceOption ++ (pairNumbered names docs).2).Perm
      (numbered docs) :=
  (perm_fillGaps _ _).trans (perm_unnamed names docs)

/-- What is paired or left over was documented. -/
theorem mem_of_mem_pair {names : List String} {docs : List Doc} {d : Doc}
    (h : some d ∈ (pair names docs).1 ∨ d ∈ (pair names docs).2) : d ∈ docs := by
  have hnumbered {q : Doc × Nat} (hq : q ∈ (pairNumbered names docs).1.reduceOption ++
      (pairNumbered names docs).2) : q.1 ∈ docs :=
    List.mem_of_mem_filter
      (List.fst_mem_of_mem_zipIdx ((perm_pairNumbered names docs).subset hq))
  rw [pair_eq_pairNumbered] at h
  rcases h with hpaired | hspare
  · obtain ⟨g, hg, heq⟩ := List.mem_map.1 hpaired
    obtain ⟨q, rfl, rfl⟩ := Option.map_eq_some_iff.1 heq
    exact hnumbered (List.mem_append_left _ (List.reduceOption_mem_iff.2 hg))
  · obtain ⟨q, hq, rfl⟩ := List.mem_map.1 hspare
    exact hnumbered (List.mem_append_right _ hq)

end Numbered

/-! ## Positions -/

/-- The documentation of parameters, without that of properties. -/
def paramDocs (docs : List Doc) : List Doc :=
  docs.filter fun d => !d.2.isProperty

/-- The first declared and the first documented parameter of one name. -/
def SameName (names tagNames : List String) (i j : Nat) : Prop :=
  ∃ name, FirstAt names i name ∧ FirstAt tagNames j name

/-- Pairing by name gives the first parameter of a name the first documentation of that name, and
nothing else. -/
theorem getElem?_byName_iff {names : List String} {docs : List Doc} {i : Nat} {d : Doc × Nat} :
    (byName (numbered docs) [] names)[i]? = some (some d) ↔
      (paramDocs docs)[d.2]? = some d.1 ∧
        SameName names ((paramDocs docs).map (·.2.name)) i d.2 := by
  rw [getElem?_byName, Option.map_eq_some_iff]
  constructor
  · rintro ⟨name, hname, hfind⟩
    split at hfind
    · cases hfind
    · rename_i hseen
      obtain ⟨hdoc, hfirst⟩ := find?_zipIdx_iff.1 hfind
      exact ⟨hdoc, name, ⟨hname, fun hmem => hseen (.inr hmem)⟩, hfirst⟩
  · rintro ⟨hdoc, name, ⟨hname, hseen⟩, hfirst⟩
    refine ⟨name, hname, ?_⟩
    rw [if_neg (by simpa using hseen)]
    exact find?_zipIdx_iff.2 ⟨hdoc, hfirst⟩

/-- A pairing of declared with documented parameters, by their positions: `given` has for each
declared parameter the documented one that it gets, and `spare` has the documented ones that are
left. -/
structure Paired (names tagNames : List String) (given : List (Option Nat)) (spare : List Nat) :
    Prop where
  length : given.length = names.length
  /-- Each documented parameter is given once or left, never both. -/
  once : (given.reduceOption ++ spare).Perm (List.range tagNames.length)
  given_length : given.reduceOption.length = min names.length tagNames.length
  spare_length : spare.length = tagNames.length - min names.length tagNames.length
  spare_inOrder : spare.Pairwise (· < ·)
  byName : ∀ i j, SameName names tagNames i j → given[i]? = some (some j)
  byPosition : ∀ i j i' j', given[i]? = some (some j) → given[i']? = some (some j') →
    ¬SameName names tagNames i j → ¬SameName names tagNames i' j' → i < i' → j < j'

section Pair
variable {names : List String} {docs : List Doc}

theorem mem_pairNumbered {d : Doc × Nat}
    (h : some d ∈ (pairNumbered names docs).1 ∨ d ∈ (pairNumbered names docs).2) :
    (paramDocs docs)[d.2]? = some d.1 := by
  have hmem : d ∈ numbered docs := by
    apply (perm_pairNumbered names docs).subset
    rw [List.mem_append, List.reduceOption_mem_iff]
    exact h
  exact List.mem_zipIdx_iff_getElem?.1 hmem

/-- As many documented parameters are paired as there are parameters, or all of them. -/
theorem length_pairNumbered (names : List String) (docs : List Doc) :
    (pairNumbered names docs).1.reduceOption.length = min names.length (paramDocs docs).length ∧
      (pairNumbered names docs).2.length =
        (paramDocs docs).length - min names.length (paramDocs docs).length := by
  have hsum := (perm_pairNumbered names docs).length_eq
  rw [List.length_append, numbered, List.length_zipIdx] at hsum
  change _ = (paramDocs docs).length at hsum
  have hlength : (pairNumbered names docs).1.length = names.length := by
    rw [pairNumbered, length_fillGaps, length_byName]
  have hle := List.reduceOption_length_le (pairNumbered names docs).1
  by_cases hspare : (pairNumbered names docs).2 = []
  · rw [hspare] at hsum ⊢
    simp only [List.length_nil] at hsum ⊢
    omega
  · have hfull : (pairNumbered names docs).1.reduceOption.length = names.length := by
      rw [← hlength, List.reduceOption_length_eq_iff]
      intro g hg
      cases g with
      | none => exact absurd hg (none_not_mem_fillGaps hspare)
      | some d => rfl
    omega

theorem exists_of_sameName {i j : Nat}
    (h : SameName names ((paramDocs docs).map (·.2.name)) i j) :
    ∃ doc, (paramDocs docs)[j]? = some doc := by
  obtain ⟨name, -, htag, -⟩ := h
  rw [List.getElem?_map] at htag
  obtain ⟨doc, hdoc, -⟩ := Option.map_eq_some_iff.1 htag
  exact ⟨doc, hdoc⟩

theorem exists_of_getElem?_map {given : List (Option (Doc × Nat))} {i j : Nat}
    (h : (given.map (Option.map (·.2)))[i]? = some (some j)) :
    ∃ d, given[i]? = some (some d) ∧ d.2 = j := by
  rw [List.getElem?_map] at h
  obtain ⟨g, hg, hj⟩ := Option.map_eq_some_iff.1 h
  obtain ⟨d, rfl, hj⟩ := Option.map_eq_some_iff.1 hj
  exact ⟨d, hg, Option.some.inj hj⟩

/-- What is not paired by name is handed out in order. -/
theorem lt_of_not_sameName {i i' : Nat} (hlt : i < i') {d e : Doc × Nat}
    (hd : (pairNumbered names docs).1[i]? = some (some d))
    (he : (pairNumbered names docs).1[i']? = some (some e))
    (hi : ¬SameName names ((paramDocs docs).map (·.2.name)) i d.2)
    (hi' : ¬SameName names ((paramDocs docs).map (·.2.name)) i' e.2) : d.2 < e.2 := by
  have hgap {k : Nat} {f : Doc × Nat} (hf : (pairNumbered names docs).1[k]? = some (some f))
      (hk : ¬SameName names ((paramDocs docs).map (·.2.name)) k f.2) :
      (byName (numbered docs) [] names)[k]? = some none := by
    have hlen : k < (byName (numbered docs) [] names).length := by
      rw [← length_fillGaps _ (unnamed names docs)]
      exact (List.getElem?_eq_some_iff.1 hf).1
    cases hgiven : (byName (numbered docs) [] names)[k] with
    | none => rw [List.getElem?_eq_getElem hlen, hgiven]
    | some g =>
      have hget : (byName (numbered docs) [] names)[k]? = some (some g) := by
        rw [List.getElem?_eq_getElem hlen, hgiven]
      have hsame := (getElem?_byName_iff.1 hget).2
      rw [pairNumbered, getElem?_fillGaps hget] at hf
      cases hf
      exact absurd hsame hk
  have hunnamed := (pairwise_numbered docs).sublist (unnamed_sublist names docs)
  exact rel_of_filled hunnamed hlt (hgap hd hi) (hgap he hi') hd he

end Pair

/-- Pairing parameters with their documentation loses none of it: as many as possible are paired,
the first of each name with the first of that name and the others in order, and the rest is given
back in order. -/
theorem pair_loses_nothing (names : List String) (docs : List Doc) :
    ∃ given spare, Paired names ((paramDocs docs).map (·.2.name)) given spare ∧
      (pair names docs).1 = given.map (fun g => g.bind fun j => (paramDocs docs)[j]?) ∧
      (pair names docs).2.map some = spare.map fun j => (paramDocs docs)[j]? := by
  obtain ⟨hgiven, hspare⟩ := length_pairNumbered names docs
  refine ⟨(pairNumbered names docs).1.map (Option.map (·.2)),
    (pairNumbered names docs).2.map (·.2), ⟨?_, ?_, ?_, ?_, ?_, ?_, ?_⟩, ?_, ?_⟩
  · rw [List.length_map, pairNumbered, length_fillGaps, length_byName]
  · rw [List.reduceOption_map, ← List.map_append, List.length_map, List.range_eq_range']
    have hperm := (perm_pairNumbered names docs).map (·.2)
    rwa [numbered, List.zipIdx_map_snd] at hperm
  · rw [List.reduceOption_map, List.length_map, List.length_map, hgiven]
  · rw [List.length_map, List.length_map, hspare]
  · have hsuffix : (pairNumbered names docs).2 <:+ unnamed names docs := suffix_fillGaps _ _
    exact List.pairwise_map.2 ((pairwise_numbered docs).sublist
      (hsuffix.sublist.trans (unnamed_sublist names docs)))
  · intro i j hsame
    obtain ⟨doc, hdoc⟩ := exists_of_sameName hsame
    have hby : (byName (numbered docs) [] names)[i]? = some (some (doc, j)) :=
      getElem?_byName_iff.2 ⟨hdoc, hsame⟩
    rw [List.getElem?_map, pairNumbered, getElem?_fillGaps hby]
    rfl
  · intro i j i' j' hi hi' hnot hnot' hlt
    obtain ⟨d, hd, rfl⟩ := exists_of_getElem?_map hi
    obtain ⟨e, he, rfl⟩ := exists_of_getElem?_map hi'
    exact lt_of_not_sameName hlt hd he hnot hnot'
  · rw [pair_eq_pairNumbered, List.map_map]
    refine List.map_congr_left fun g hg => ?_
    cases g with
    | none => rfl
    | some d => exact (mem_pairNumbered (.inl hg)).symm
  · rw [pair_eq_pairNumbered, List.map_map, List.map_map]
    exact List.map_congr_left fun d hd => (mem_pairNumbered (.inr hd)).symm

/-- The second `a` and `c` have no documentation of their own, and get what is left in order. -/
example :
    let doc (name : String) : Doc := (⟨1, 1⟩, ⟨none, name, false, none, ""⟩)
    let found := pair ["a", "b", "a", "c"] (["x", "b", "b.p", "b", "a", "y"].map doc)
    (found.1.map (Option.map (·.2.name)), found.2.map (·.2.name)) =
      ([some "a", some "b", some "x", some "b"], ["y"]) := by
  decide

end DocSignature.Header

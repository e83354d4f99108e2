import DocSignature.Proofs.ParamPairing

/-!
# What is placed by position

Pairing by name leaves a name that the other side does not have, and a name that stood in its list
before. What is left is placed by rank, the first at the first and so on. So documentation is placed
at a parameter of another name when no parameter has its name, but also when it repeats an earlier
one.
-/

namespace DocSignature.Header

/-! ## Ranks -/

/-- Holds at a position of `xs` that pairing by name with `ys` leaves. -/
def isSpare (xs ys : List String) (i : Nat) : Bool :=
  xs[i]?.any fun x => !ys.contains x || (xs.take i).contains x

/-- The number of positions before `i` that pairing by name leaves. -/
def rank (xs ys : List String) (i : Nat) : Nat :=
  (List.range i).countP (isSpare xs ys)

theorem isSpare_iff {xs ys : List String} {i : Nat} :
    isSpare xs ys i = true ↔ ∃ x, xs[i]? = some x ∧ (x ∉ ys ∨ x ∈ xs.take i) := by
  simp [isSpare, Option.any_eq_true]

theorem exists_firstAt {xs : List String} {x : String} (h : x ∈ xs) : ∃ i, FirstAt xs i x := by
  refine ⟨xs.idxOf x, List.getElem?_idxOf h, ?_⟩
  rw [List.mem_take_iff_idxOf_lt h]
  exact Nat.lt_irrefl _

/-- A position is left unless its name is paired with the first of the others that has it. -/
theorem isSpare_eq_true_iff {xs ys : List String} {i : Nat} (hi : i < xs.length) :
    isSpare xs ys i = true ↔ ∀ j, ¬SameName xs ys i j := by
  have hget : xs[i]? = some xs[i] := List.getElem?_eq_getElem hi
  rw [isSpare_iff]
  constructor
  · rintro ⟨x, hx, hspare⟩ j ⟨name, ⟨hname, hfirst⟩, htag, -⟩
    rw [hx, Option.some.injEq] at hname
    subst hname
    exact hspare.elim (fun hnot => hnot (List.mem_of_getElem? htag)) hfirst
  · intro hnone
    refine ⟨xs[i], hget, ?_⟩
    by_contra hpaired
    obtain ⟨hmem, hfirst⟩ := not_or.1 hpaired
    obtain ⟨j, hj⟩ := exists_firstAt (not_not.1 hmem)
    exact hnone j ⟨xs[i], ⟨hget, hfirst⟩, hj⟩

theorem countP_take {α : Type} {xs : List α} {p : α → Bool} {q : Nat → Bool}
    (h : ∀ i, xs[i]?.any p = q i) (i : Nat) : (xs.take i).countP p = (List.range i).countP q := by
  induction i with
  | zero => rfl
  | succ i ih =>
    rw [List.take_add_one, List.countP_append, List.range_succ, List.countP_append, ih,
      List.countP_singleton, ← h i]
    cases xs[i]? <;> simp [List.countP_cons]

/-- The place of a selected item is the number of items selected before it. -/
theorem getElem?_filter_iff {α : Type} {p : α → Bool} {xs : List α} {n : Nat} {a : α} :
    (xs.filter p)[n]? = some a ↔
      ∃ i, xs[i]? = some a ∧ p a = true ∧ (xs.take i).countP p = n := by
  induction xs generalizing n with
  | nil => simp
  | cons x xs ih =>
    -- The first item counts for all later ones when it is selected.
    have hlater : (∃ i, (x :: xs)[i]? = some a ∧ p a = true ∧ ((x :: xs).take i).countP p = n) ↔
        (x = a ∧ p a = true ∧ 0 = n) ∨
          ∃ i, xs[i]? = some a ∧ p a = true ∧
            (xs.take i).countP p + (if p x then 1 else 0) = n := by
      constructor
      · rintro ⟨i, hi⟩
        cases i with
        | zero => exact .inl (by simpa using hi)
        | succ i => exact .inr ⟨i, by simpa [List.countP_cons] using hi⟩
      · rintro (hzero | ⟨i, hi⟩)
        · exact ⟨0, by simpa using hzero⟩
        · exact ⟨i + 1, by simpa [List.countP_cons] using hi⟩
    rw [hlater]
    by_cases hx : p x = true
    · rw [List.filter_cons_of_pos hx, if_pos hx]
      cases n with
      | zero => simpa using fun heq : x = a => heq ▸ hx
      | succ n => simp [ih]
    · rw [List.filter_cons_of_neg hx, ih, if_neg hx]
      have hne : ¬(x = a ∧ p a = true ∧ 0 = n) := by
        rintro ⟨rfl, hp, -⟩
        exact hx hp
      simp [hne]

/-- The gaps of a list are filled by rank. -/
theorem getElem?_fillGaps_gap {α : Type} {gaps : List (Option α)} {rest : List α} {i : Nat}
    (h : gaps[i]? = some none) :
    (fillGaps gaps rest).1[i]? = some rest[(gaps.take i).countP Option.isNone]? := by
  fun_induction fillGaps gaps rest generalizing i with
  | case1 rest => simp at h
  | case2 a gaps rest filled spare hfill ih =>
    cases i with
    | zero => cases h
    | succ i => simpa [hfill] using ih h
  | case3 gaps b rest filled spare hfill ih =>
    cases i with
    | zero => rfl
    | succ i => simpa [hfill] using ih h
  | case4 gaps => simp [h]

theorem SameName.symm {xs ys : List String} {i j : Nat} (h : SameName xs ys i j) :
    SameName ys xs j i := by
  obtain ⟨name, hi, hj⟩ := h
  exact ⟨name, hj, hi⟩

section Ranks
variable (names : List String) (docs : List Doc)

/-- The names under which parameters are documented. -/
def docNames : List String := (paramDocs docs).map (·.2.name)

theorem mem_docNames_iff {name : String} :
    name ∈ docNames docs ↔ ∃ d ∈ numbered docs, d.1.2.name = name := by
  have hnames : (numbered docs).map (fun d => d.1.2.name) = docNames docs := by
    conv_rhs => rw [docNames, ← List.zipIdx_map_fst (i := 0) (l := paramDocs docs), List.map_map]
    rfl
  rw [← hnames, List.mem_map]

/-- Pairing by name leaves the gaps at the spare parameters. -/
theorem isNone_byName (i : Nat) :
    (byName (numbered docs) [] names)[i]?.any Option.isNone = isSpare names (docNames docs) i := by
  rw [getElem?_byName, isSpare]
  cases names[i]? with
  | none => rfl
  | some name =>
    have hfind : ((numbered docs).find? fun d => d.1.2.name = name) = none ↔
        name ∉ docNames docs := by
      rw [List.find?_eq_none, mem_docNames_iff]
      simp only [decide_eq_true_eq, not_exists, not_and]
    by_cases hbefore : name ∈ names.take i
    · simp [hbefore]
    · rw [Bool.eq_iff_iff]
      simp only [Option.map_some, List.not_mem_nil, hbefore, or_self, if_false, Option.any_some,
        Option.isNone_iff_eq_none, hfind]
      simp [hbefore]

/-- Pairing by name leaves the documentation at the spare positions. -/
theorem unnamed_eq_filter :
    unnamed names docs = (numbered docs).filter fun d => isSpare (docNames docs) names d.2 := by
  refine List.filter_congr fun d hd => ?_
  have hdoc : (paramDocs docs)[d.2]? = some d.1 := List.mem_zipIdx_iff_getElem?.1 hd
  have hlt : d.2 < (docNames docs).length := by
    rw [docNames, List.length_map]
    exact (List.getElem?_eq_some_iff.1 hdoc).1
  have hmem := @mem_unnamed_iff names docs d hd
  rw [unnamed, List.mem_filter, and_iff_right hd, List.reduceOption_mem_iff] at hmem
  rw [Bool.eq_iff_iff, hmem, isSpare_eq_true_iff hlt]
  constructor
  · intro hnot i hsame
    exact hnot (List.mem_of_getElem? (getElem?_byName_iff.2 ⟨hdoc, hsame.symm⟩))
  · intro hnone hgiven
    obtain ⟨i, hi⟩ := List.mem_iff_getElem?.1 hgiven
    exact hnone i (getElem?_byName_iff.1 hi).2.symm

/-- The documentation that is left stands in the order of its ranks. -/
theorem getElem?_unnamed_iff {n : Nat} {d : Doc × Nat} :
    (unnamed names docs)[n]? = some d ↔ (paramDocs docs)[d.2]? = some d.1 ∧
      isSpare (docNames docs) names d.2 = true ∧ rank (docNames docs) names d.2 = n := by
  have hget (i : Nat) : (numbered docs)[i]? = (paramDocs docs)[i]?.map fun doc => (doc, i) := by
    simp [numbered, paramDocs, List.getElem?_zipIdx]
  have hany (i : Nat) : ((numbered docs)[i]?.any fun d => isSpare (docNames docs) names d.2) =
      isSpare (docNames docs) names i := by
    rw [hget]
    cases hdoc : (paramDocs docs)[i]? with
    | none => simp [isSpare, docNames, hdoc]
    | some doc => rfl
  rw [unnamed_eq_filter, getElem?_filter_iff]
  constructor
  · rintro ⟨i, hi, hspare, hcount⟩
    rw [countP_take hany] at hcount
    rw [hget] at hi
    obtain ⟨doc, hdoc, rfl⟩ := Option.map_eq_some_iff.1 hi
    exact ⟨hdoc, hspare, hcount⟩
  · rintro ⟨hdoc, hspare, hrank⟩
    exact ⟨d.2, by simp [hget, hdoc], hspare, by rw [countP_take hany]; exact hrank⟩

/-- Which documentation a parameter gets: the one of its name, when both are the first of the name,
and else the one of its rank. -/
theorem getElem?_pairNumbered_iff {i : Nat} {d : Doc × Nat} :
    (pairNumbered names docs).1[i]? = some (some d) ↔
      (paramDocs docs)[d.2]? = some d.1 ∧ (SameName names (docNames docs) i d.2 ∨
        (isSpare names (docNames docs) i = true ∧ isSpare (docNames docs) names d.2 = true ∧
          rank names (docNames docs) i = rank (docNames docs) names d.2)) := by
  have hspare := isNone_byName names docs i
  cases hgiven : (byName (numbered docs) [] names)[i]? with
  | none =>
    rw [hgiven] at hspare
    have hnone : (pairNumbered names docs).1[i]? = none := by
      rw [pairNumbered, List.getElem?_eq_none_iff, length_fillGaps]
      exact List.getElem?_eq_none_iff.1 hgiven
    rw [hnone, ← hspare]
    constructor
    · intro h
      cases h
    · rintro ⟨hdoc, hsame | ⟨hfalse, -⟩⟩
      · rw [getElem?_byName_iff.2 ⟨hdoc, hsame⟩] at hgiven
        cases hgiven
      · cases hfalse
  | some g =>
    rw [hgiven] at hspare
    cases g with
    | some e =>
      -- What is given by name stays.
      rw [pairNumbered, getElem?_fillGaps hgiven, ← hgiven, getElem?_byName_iff, ← hspare]
      simp [docNames]
    | none =>
      rw [pairNumbered, getElem?_fillGaps_gap hgiven, countP_take (isNone_byName names docs),
        Option.some.injEq, getElem?_unnamed_iff, ← hspare]
      constructor
      · rintro ⟨hdoc, hspare', hrank⟩
        exact ⟨hdoc, .inr ⟨rfl, hspare', hrank.symm⟩⟩
      · rintro ⟨hdoc, hsame | ⟨-, hspare', hrank⟩⟩
        · rw [getElem?_byName_iff.2 ⟨hdoc, hsame⟩] at hgiven
          cases hgiven
        · exact ⟨hdoc, hspare', hrank.symm⟩

theorem getElem?_pair_iff {i : Nat} {doc : Doc} :
    (pair names docs).1[i]? = some (some doc) ↔
      ∃ j, (pairNumbered names docs).1[i]? = some (some (doc, j)) := by
  rw [pair_eq_pairNumbered, List.getElem?_map, Option.map_eq_some_iff]
  constructor
  · rintro ⟨g, hg, heq⟩
    obtain ⟨⟨doc', j⟩, rfl, rfl⟩ := Option.map_eq_some_iff.1 heq
    exact ⟨j, hg⟩
  · rintro ⟨j, hj⟩
    exact ⟨_, hj, rfl⟩

end Ranks

/-! ## Strays and repeats -/

section Strays
variable {names : List String} {docs : List Doc} {i : Nat} {name : String} {doc : Doc}

/-- Documentation at a parameter of another name got there by its rank. -/
theorem exists_rank_of_placed (hname : names[i]? = some name)
    (hplaced : (pair names docs).1[i]? = some (some doc)) (hne : doc.2.name ≠ name) :
    ∃ j, (paramDocs docs)[j]? = some doc ∧ (docNames docs)[j]? = some doc.2.name ∧
      (doc.2.name ∉ names ∨ doc.2.name ∈ (docNames docs).take j) ∧
      isSpare names (docNames docs) i = true ∧
      rank names (docNames docs) i = rank (docNames docs) names j := by
  obtain ⟨j, hj⟩ := (getElem?_pair_iff names docs).1 hplaced
  obtain ⟨hdoc, hhow⟩ := (getElem?_pairNumbered_iff names docs).1 hj
  have hdocName : (docNames docs)[j]? = some doc.2.name := by
    rw [docNames, List.getElem?_map, hdoc]
    rfl
  rcases hhow with ⟨same, ⟨hsame, -⟩, hsame', -⟩ | ⟨hspare, hspare', hrank⟩
  · rw [hname] at hsame
    rw [hdocName] at hsame'
    cases hsame
    cases hsame'
    exact absurd rfl hne
  · obtain ⟨same, hsame, hleft⟩ := isSpare_iff.1 hspare'
    rw [hdocName] at hsame
    cases hsame
    exact ⟨j, hdoc, hdocName, hleft, hspare, hrank⟩

/-- Documentation that repeats an earlier one is placed at the spare parameter of its rank. -/
theorem exists_placed_of_rank {j : Nat} {repeated : String}
    (hdoc : (docNames docs)[j]? = some repeated) (hbefore : repeated ∈ (docNames docs).take j)
    (hspare : isSpare names (docNames docs) i = true)
    (hrank : rank names (docNames docs) i = rank (docNames docs) names j) :
    ∃ doc, (pair names docs).1[i]? = some (some doc) ∧ doc.2.name = repeated := by
  have hspare' : isSpare (docNames docs) names j = true :=
    isSpare_iff.2 ⟨repeated, hdoc, .inr hbefore⟩
  rw [docNames, List.getElem?_map, Option.map_eq_some_iff] at hdoc
  obtain ⟨doc, hdoc, hname⟩ := hdoc
  have hplaced : (pairNumbered names docs).1[i]? = some (some (doc, j)) :=
    (getElem?_pairNumbered_iff names docs).2 ⟨hdoc, .inr ⟨hspare, hspare', hrank⟩⟩
  exact ⟨doc, (getElem?_pair_iff names docs).2 ⟨j, hplaced⟩, hname⟩

end Strays

/-- Documentation at a parameter of another name has a name that no parameter has. -/
def PlacesOnlyStrays (names : List String) (docs : List Doc) : Prop :=
  ∀ (i : Nat) (name : String) (doc : Doc), names[i]? = some name →
    (pair names docs).1[i]? = some (some doc) → doc.2.name ≠ name → doc.2.name ∉ names

/-- Documentation at a parameter of another name has a name that no parameter has, or repeats an
earlier one. So only strays are placed by position exactly if no documentation that repeats the name
of a parameter has the rank of a spare parameter of another name. -/
theorem pair_places_strays_or_repeats (names : List String) (docs : List Doc) :
    (∀ (i : Nat) (name : String) (doc : Doc), names[i]? = some name →
      (pair names docs).1[i]? = some (some doc) → doc.2.name ≠ name →
      doc.2.name ∉ names ∨
        ∃ j, (paramDocs docs)[j]? = some doc ∧ doc.2.name ∈ (docNames docs).take j) ∧
    (PlacesOnlyStrays names docs ↔
      ∀ (i j : Nat) (name repeated : String), names[i]? = some name →
        (docNames docs)[j]? = some repeated → repeated ∈ (docNames docs).take j →
        repeated ∈ names → isSpare names (docNames docs) i = true →
        rank names (docNames docs) i = rank (docNames docs) names j → repeated = name) := by
  refine ⟨?_, ?_, ?_⟩
  · intro i name doc hname hplaced hne
    obtain ⟨j, hdoc, -, hleft, -⟩ := exists_rank_of_placed hname hplaced hne
    exact hleft.imp id fun hbefore => ⟨j, hdoc, hbefore⟩
  · intro hstrays i j name repeated hname hdoc hbefore hdeclared hspare hrank
    obtain ⟨doc, hplaced, rfl⟩ := exists_placed_of_rank hdoc hbefore hspare hrank
    by_contra hne
    exact hstrays i name doc hname hplaced hne hdeclared
  · intro hranks i name doc hname hplaced hne hdeclared
    obtain ⟨j, -, hdoc, hleft, hspare, hrank⟩ := exists_rank_of_placed hname hplaced hne
    have hbefore := hleft.resolve_left (not_not.2 hdeclared)
    exact hne (hranks i j name _ hname hdoc hbefore hdeclared hspare hrank)

/-- Parameter `a`, documented on two lines. -/
def repeatedDocs : List Doc :=
  [2, 3].map fun line => (⟨line, 4⟩, ⟨none, "a", false, none, ""⟩)

/-- What is said about `a` the second time is placed at `b`. -/
theorem pair_places_repeated_name :
    (pair ["a", "b"] repeatedDocs).1.map (Option.map (·.1)) = [some ⟨2, 4⟩, some ⟨3, 4⟩] ∧
      ¬PlacesOnlyStrays ["a", "b"] repeatedDocs := by
  refine ⟨by decide, fun hstrays => ?_⟩
  exact hstrays 1 "b" _ rfl rfl (by decide) (by decide)

end DocSignature.Header

import DocSignature.Proofs.Patch
import DocSignature.Proofs.Search

/-!
# Comments and literals of patched texts

When no swap starts inside a comment or a literal, the comments and literals of both texts are the
same, each at its own place.
-/

namespace DocSignature

namespace Source

/-! ## Ends of comments -/

theorem two_le_of_commentEnd? {cs : List Char} {n : Nat} (h : commentEnd? cs = some n) : 2 ≤ n := by
  induction cs generalizing n with
  | nil => cases h
  | cons c cs ih =>
    rw [commentEnd?] at h
    split at h
    · cases h
      exact le_rfl
    · obtain ⟨m, hm, rfl⟩ := Option.map_eq_some_iff.1 h
      have := ih hm
      omega

/-- The end of a comment does not depend on what stands behind it. -/
theorem commentEnd?_append {xs ys : List Char} {n : Nat} (h : commentEnd? (xs ++ ys) = some n)
    (hn : n ≤ xs.length) (zs : List Char) : commentEnd? (xs ++ zs) = some n := by
  induction xs generalizing n with
  | nil =>
    have := two_le_of_commentEnd? h
    simp only [List.length_nil] at hn
    omega
  | cons x xs ih =>
    rw [List.cons_append, commentEnd?] at h ⊢
    simp only [List.length_cons] at hn
    split at h
    · rename_i hend
      cases h
      obtain ⟨d, ds, rfl⟩ : ∃ d ds, xs = d :: ds := List.exists_cons_of_length_pos (by omega)
      rw [if_pos (by simpa using hend)]
    · rename_i hend
      obtain ⟨m, hm, rfl⟩ := Option.map_eq_some_iff.1 h
      have htwo := two_le_of_commentEnd? hm
      obtain ⟨d, ds, rfl⟩ : ∃ d ds, xs = d :: ds := List.exists_cons_of_length_pos (by omega)
      rw [if_neg (by simpa using hend), ih hm (by omega)]
      rfl

theorem commentEnd?_of_append {xs ys : List Char} (h : commentEnd? (xs ++ ys) = none) :
    commentEnd? ys = none := by
  induction xs with
  | nil => exact h
  | cons x xs ih =>
    rw [List.cons_append, commentEnd?] at h
    split at h
    · cases h
    · exact ih (Option.map_eq_none_iff.1 h)

theorem commentEnd?_prepend {xs ys : List Char} (hx : '/' ∉ xs) (hy : ys.head? ≠ some '/')
    (h : commentEnd? ys = none) : commentEnd? (xs ++ ys) = none := by
  induction xs with
  | nil => exact h
  | cons x xs ih =>
    have hhead : (xs ++ ys).head? ≠ some '/' := by
      cases xs with
      | nil => exact hy
      | cons d ds =>
        intro hd
        simp only [List.cons_append, List.head?_cons, Option.some.injEq] at hd
        exact hx (by simp [hd])
    have hend : ¬(decide (x = '*') && decide ((xs ++ ys).head? = some '/')) = true := by
      rw [Bool.and_eq_true, decide_eq_true_eq, decide_eq_true_eq]
      exact fun hboth => hhead hboth.2
    rw [List.cons_append, commentEnd?, if_neg hend, ih fun hmem => hx (by simp [hmem])]
    rfl

theorem commentEnd?_le {cs : List Char} {n : Nat} (h : commentEnd? cs = some n) :
    n ≤ cs.length := by
  induction cs generalizing n with
  | nil => cases h
  | cons c cs ih =>
    rw [commentEnd?] at h
    split at h
    · rename_i hend
      cases h
      cases cs with
      | nil => simp at hend
      | cons d cs => simp
    · obtain ⟨m, hm, rfl⟩ := Option.map_eq_some_iff.1 h
      simpa using ih hm

/-! ## Ends of literals -/

theorem literalEnd?_escape (quote d : Char) (cs : List Char) :
    literalEnd? quote ('\\' :: d :: cs) = (literalEnd? quote cs).map (· + 2) := by
  simp [literalEnd?]

theorem literalEnd?_cons (quote : Char) {c : Char} (hc : c ≠ '\\') (cs : List Char) :
    literalEnd? quote (c :: cs) =
      if c = quote then some 1
      else if c = '\n' && quote ≠ '`' then none
      else (literalEnd? quote cs).map (· + 1) := by
  rw [literalEnd?.eq_def]
  simp only [if_neg hc]

theorem pos_of_literalEnd? {quote : Char} {cs : List Char} {n : Nat}
    (h : literalEnd? quote cs = some n) : 0 < n := by
  cases cs with
  | nil => cases h
  | cons c cs =>
    by_cases hc : c = '\\'
    · subst hc
      cases cs with
      | nil => simp [literalEnd?] at h
      | cons d cs =>
        rw [literalEnd?_escape] at h
        obtain ⟨m, -, rfl⟩ := Option.map_eq_some_iff.1 h
        omega
    · rw [literalEnd?_cons quote hc] at h
      split at h
      · cases h
        omega
      · split at h
        · cases h
        · obtain ⟨m, -, rfl⟩ := Option.map_eq_some_iff.1 h
          omega

theorem literalEnd?_le (quote : Char) (cs : List Char) :
    ∀ {n}, literalEnd? quote cs = some n → n ≤ cs.length := by
  fun_induction literalEnd? quote cs with
  | case1 => intro n h; cases h
  | case2 d rest ih =>
    intro n h
    obtain ⟨m, hm, rfl⟩ := Option.map_eq_some_iff.1 h
    simpa using ih hm
  | case3 => intro n h; cases h
  | case4 cs hc =>
    intro n h
    cases h
    simp
  | case5 c cs hc hq hbreak => intro n h; cases h
  | case6 c cs hc hq hbreak ih =>
    intro n h
    obtain ⟨m, hm, rfl⟩ := Option.map_eq_some_iff.1 h
    simpa using ih hm

/-- The end of a literal does not depend on what stands behind it. -/
theorem literalEnd?_append (quote : Char) (xs : List Char) {ys : List Char} :
    ∀ {n}, literalEnd? quote (xs ++ ys) = some n → n ≤ xs.length → ∀ zs,
      literalEnd? quote (xs ++ zs) = some n := by
  fun_induction literalEnd? quote xs with
  | case1 =>
    intro n h hn
    have := pos_of_literalEnd? h
    simp only [List.length_nil] at hn
    omega
  | case2 d rest ih =>
    intro n h hn zs
    simp only [List.cons_append, List.length_cons, literalEnd?_escape] at h hn ⊢
    obtain ⟨m, hm, rfl⟩ := Option.map_eq_some_iff.1 h
    rw [ih hm (by omega) zs]
    rfl
  | case3 =>
    -- An escape at the end takes its character from behind, so the literal ends behind, too.
    intro n h hn zs
    cases ys with
    | nil => simp [literalEnd?] at h
    | cons d ys =>
      simp only [List.cons_append, List.nil_append, literalEnd?_escape] at h
      obtain ⟨m, -, rfl⟩ := Option.map_eq_some_iff.1 h
      simp only [List.length_singleton] at hn
      omega
  | case4 cs hc =>
    intro n h hn zs
    rw [List.cons_append, literalEnd?_cons _ hc, if_pos rfl] at h ⊢
    exact h
  | case5 c cs hc hq hbreak =>
    intro n h hn zs
    rw [List.cons_append, literalEnd?_cons _ hc, if_neg hq, if_pos hbreak] at h
    cases h
  | case6 c cs hc hq hbreak ih =>
    intro n h hn zs
    rw [List.cons_append, literalEnd?_cons _ hc, if_neg hq, if_neg hbreak] at h ⊢
    obtain ⟨m, hm, rfl⟩ := Option.map_eq_some_iff.1 h
    simp only [List.length_cons] at hn
    rw [ih hm (by omega) zs]
    rfl

theorem literalEnd?_cons_none {quote c : Char} (hc : c ≠ '\\') {xs ys : List Char}
    (h : literalEnd? quote xs = none → literalEnd? quote ys = none)
    (hnone : literalEnd? quote (c :: xs) = none) : literalEnd? quote (c :: ys) = none := by
  rw [literalEnd?_cons quote hc] at hnone ⊢
  split at hnone
  · cases hnone
  · rename_i hq
    rw [if_neg hq]
    split at hnone
    · rename_i hbreak
      rw [if_pos hbreak]
    · rename_i hbreak
      rw [if_neg hbreak, h (Option.map_eq_none_iff.1 hnone)]
      rfl

/-- Quiet characters do not end a literal. -/
theorem literalEnd?_quiet {quote : Char} (hquote : isQuote quote = true) {xs : List Char}
    (hx : ∀ c ∈ xs, Patch.isQuiet c = true) (ys : List Char) :
    literalEnd? quote (xs ++ ys) = none ↔ literalEnd? quote ys = none := by
  induction xs with
  | nil => rfl
  | cons x xs ih =>
    have hquiet := hx x (by simp)
    simp only [Patch.isQuiet, Bool.not_eq_true', Bool.or_eq_false_iff,
      beq_eq_false_iff_ne] at hquiet
    obtain ⟨⟨⟨hq, hesc⟩, -⟩, hbreak⟩ := hquiet
    have hne : x ≠ quote := by
      rintro rfl
      rw [hq] at hquote
      cases hquote
    rw [List.cons_append, literalEnd?_cons _ hesc, if_neg hne, if_neg (by simp [hbreak]),
      Option.map_eq_none_iff]
    exact ih fun c hc => hx c (by simp [hc])

end Source

namespace Patch

open Source

/-! ## Comments and literals that are not closed -/

/-- A character that starts no word is one that stays. -/
theorem Sound.cons_of_head {p : List Cell} (h : Sound p) {side : Side} {d : Char}
    (hd : Text.isNameStart d = false) (hhead : (text side p).head? = some d) :
    ∃ q, p = .kept d :: q := by
  cases p with
  | nil => cases hhead
  | cons cell p =>
    cases cell with
    | kept c =>
      cases hhead
      exact ⟨p, rfl⟩
    | swap o n =>
      obtain ⟨⟨⟨c, rest, rfl, hc⟩, -⟩, ⟨c', rest', rfl, hc'⟩, -⟩ := h.quiet o n (by simp)
      cases side with
      | old =>
        cases hhead
        rw [hd] at hc
        cases hc
      | new =>
        cases hhead
        rw [hd] at hc'
        cases hc'

theorem Sound.head_iff {p : List Cell} (h : Sound p) {d : Char} (hd : Text.isNameStart d = false) :
    (text .old p).head? = some d ↔ (text .new p).head? = some d := by
  constructor
  · intro hhead
    obtain ⟨q, rfl⟩ := h.cons_of_head hd hhead
    rfl
  · intro hhead
    obtain ⟨q, rfl⟩ := h.cons_of_head hd hhead
    rfl

theorem Sound.commentEnd?_none {p : List Cell} (h : Sound p)
    (hnone : commentEnd? (text .old p) = none) : commentEnd? (text .new p) = none := by
  induction p with
  | nil => rfl
  | cons cell p ih =>
    cases cell with
    | kept c =>
      simp only [text_cons, Cell.text, List.singleton_append, commentEnd?] at hnone ⊢
      split at hnone
      · cases hnone
      · rename_i hend
        have hslash := h.tail.head_iff (by decide : Text.isNameStart '/' = false)
        simp only [hslash] at hend
        rw [if_neg hend, ih h.tail (Option.map_eq_none_iff.1 hnone)]
        rfl
    | swap o n =>
      obtain ⟨-, hn⟩ := h.quiet o n (by simp)
      obtain ⟨c, rest, rfl, hc⟩ := h.kept_behind
      have hslash : '/' ∉ n := by
        intro hmem
        exact absurd (hn.quiet _ hmem) (by decide)
      have hhead : (text .new (.kept c :: rest)).head? ≠ some '/' := by
        rintro heq
        cases heq
        rcases hc with hc | hc <;> exact absurd hc (by decide)
      exact commentEnd?_prepend hslash hhead (ih h.tail (commentEnd?_of_append hnone))

/-- The induction goes over two cells at a time, as a backslash takes the next character along. -/
theorem Sound.literalEnd?_none {quote : Char} (hquote : isQuote quote = true) :
    ∀ {p : List Cell}, Sound p → literalEnd? quote (text .old p) = none →
      literalEnd? quote (text .new p) = none
  | [], _, _ => rfl
  | .swap o n :: p, h, hnone => by
    obtain ⟨ho, hn⟩ := h.quiet o n (by simp)
    rw [text_cons, Cell.text, literalEnd?_quiet hquote ho.quiet] at hnone
    rw [text_cons, Cell.text, literalEnd?_quiet hquote hn.quiet]
    exact Sound.literalEnd?_none hquote h.tail hnone
  | [.kept c], _, hnone => hnone
  | .kept c :: .kept d :: p, h, hnone => by
    by_cases hc : c = '\\'
    · subst hc
      change literalEnd? quote ('\\' :: d :: text .old p) = none at hnone
      change literalEnd? quote ('\\' :: d :: text .new p) = none
      rw [literalEnd?_escape, Option.map_eq_none_iff] at hnone ⊢
      exact Sound.literalEnd?_none hquote h.tail.tail hnone
    · exact literalEnd?_cons_none hc (Sound.literalEnd?_none hquote h.tail) hnone
  | .kept c :: .swap o n :: p, h, hnone => by
    by_cases hc : c = '\\'
    · subst hc
      obtain ⟨⟨⟨a, o, rfl, -⟩, ho⟩, ⟨b, n, rfl, -⟩, hn⟩ := h.quiet o n (by simp)
      change literalEnd? quote ('\\' :: a :: (o ++ text .old p)) = none at hnone
      change literalEnd? quote ('\\' :: b :: (n ++ text .new p)) = none
      rw [literalEnd?_escape, Option.map_eq_none_iff,
        literalEnd?_quiet hquote fun c hc => ho c (by simp [hc])] at hnone
      rw [literalEnd?_escape, Option.map_eq_none_iff,
        literalEnd?_quiet hquote fun c hc => hn c (by simp [hc])]
      exact Sound.literalEnd?_none hquote h.tail.tail hnone
    · exact literalEnd?_cons_none hc (Sound.literalEnd?_none hquote h.tail) hnone

/-! ## Comments and literals at a place -/

theorem regionAt?_other {c : Char} (hc : c ≠ '/') (cs : List Char) :
    regionAt? (c :: cs) =
      if isQuote c then (literalEnd? c cs).map fun n => (.literal, n + 1) else none :=
  regionAt?.eq_4 c cs (fun _ h => absurd h hc) fun _ h => absurd h hc

theorem regionAt?_slash {cs : List Char} (hstar : cs.head? ≠ some '*')
    (hslash : cs.head? ≠ some '/') : regionAt? ('/' :: cs) = none := by
  rw [regionAt?.eq_4 '/' cs]
  · rfl
  · rintro body - rfl
    exact hstar rfl
  · rintro body - rfl
    exact hslash rfl

theorem regionAt?_block {cs : List Char} (h : cs.head? ≠ some '*') :
    regionAt? ('/' :: '*' :: cs) = (commentEnd? cs).map fun n => (.comment, n + 2) := by
  apply regionAt?.eq_2
  rintro inner rfl
  exact h rfl

/-- Where nothing starts in the old text, nothing starts in the new one. -/
theorem Sound.regionAt?_none {c : Char} {p : List Cell} (h : Sound p)
    (hnone : regionAt? (c :: text .old p) = none) : regionAt? (c :: text .new p) = none := by
  by_cases hc : c = '/'
  · subst hc
    have hline := h.head_iff (by decide : Text.isNameStart '/' = false)
    have hstar := h.head_iff (by decide : Text.isNameStart '*' = false)
    by_cases hblock : (text .new p).head? = some '*'
    · -- An old comment that is not closed stays so.
      obtain ⟨p, rfl⟩ := h.cons_of_head (by decide) hblock
      change regionAt? ('/' :: '*' :: text .old p) = none at hnone
      change regionAt? ('/' :: '*' :: text .new p) = none
      by_cases hdoc : (text .old p).head? = some '*'
      · obtain ⟨p, rfl⟩ := h.tail.cons_of_head (by decide) hdoc
        change regionAt? ('/' :: '*' :: '*' :: text .old p) = none at hnone
        change regionAt? ('/' :: '*' :: '*' :: text .new p) = none
        rw [regionAt?.eq_1] at hnone ⊢
        split at hnone
        · cases hnone
        · rename_i hend
          rw [h.tail.tail.head_iff (by decide)] at hend
          rw [if_neg hend, h.tail.tail.commentEnd?_none (Option.map_eq_none_iff.1 hnone)]
          rfl
      · rw [regionAt?_block hdoc] at hnone
        rw [h.tail.head_iff (by decide)] at hdoc
        rw [regionAt?_block hdoc, h.tail.commentEnd?_none (Option.map_eq_none_iff.1 hnone)]
        rfl
    · apply regionAt?_slash hblock
      rw [Ne, ← hline]
      intro hhead
      obtain ⟨body, hbody⟩ := List.head?_eq_some_iff.1 hhead
      rw [hbody, regionAt?.eq_3] at hnone
      cases hnone
  · rw [regionAt?_other hc] at hnone ⊢
    split at hnone
    · rename_i hquote
      rw [if_pos hquote, h.literalEnd?_none hquote (Option.map_eq_none_iff.1 hnone)]
      rfl
    · rename_i hquote
      rw [if_neg hquote]

theorem two_le_of_regionAt? {cs : List Char} {kind : RegionKind} {n : Nat}
    (h : regionAt? cs = some (kind, n)) : 2 ≤ n := by
  rw [regionAt?.eq_def] at h
  split at h
  · split at h
    · split at h
      · cases h
        omega
      · obtain ⟨m, -, heq⟩ := Option.map_eq_some_iff.1 h
        cases heq
        omega
    · obtain ⟨m, -, heq⟩ := Option.map_eq_some_iff.1 h
      cases heq
      omega
  · cases h
    omega
  · split at h
    · obtain ⟨m, hm, heq⟩ := Option.map_eq_some_iff.1 h
      cases heq
      have := pos_of_literalEnd? hm
      omega
    · cases h
  · cases h

theorem regionAt?_le {cs : List Char} {kind : RegionKind} {n : Nat}
    (h : regionAt? cs = some (kind, n)) : n ≤ cs.length := by
  rw [regionAt?.eq_def] at h
  split at h
  · rename_i body
    split at h
    · rename_i inner
      split at h
      · rename_i hend
        cases h
        obtain ⟨rest, rfl⟩ := List.head?_eq_some_iff.1 hend
        simp
      · obtain ⟨m, hm, heq⟩ := Option.map_eq_some_iff.1 h
        cases heq
        simpa using commentEnd?_le hm
    · obtain ⟨m, hm, heq⟩ := Option.map_eq_some_iff.1 h
      cases heq
      simpa using commentEnd?_le hm
  · rename_i body
    cases h
    have := (List.takeWhile_prefix (l := body) (· != '\n')).length_le
    simp only [List.length_cons]
    omega
  · split at h
    · obtain ⟨m, hm, heq⟩ := Option.map_eq_some_iff.1 h
      cases heq
      simpa using literalEnd?_le _ _ hm
    · cases h
  · cases h

theorem four_le_of_regionAt? {cs : List Char} {kind : RegionKind} {n : Nat}
    (h : regionAt? ('/' :: '*' :: cs) = some (kind, n)) : 4 ≤ n := by
  by_cases hdoc : cs.head? = some '*'
  · obtain ⟨cs, rfl⟩ := List.head?_eq_some_iff.1 hdoc
    rw [regionAt?.eq_1] at h
    split at h
    · cases h
      exact le_rfl
    · obtain ⟨m, hm, heq⟩ := Option.map_eq_some_iff.1 h
      cases heq
      have := two_le_of_commentEnd? hm
      omega
  · rw [regionAt?_block hdoc] at h
    obtain ⟨m, hm, heq⟩ := Option.map_eq_some_iff.1 h
    cases heq
    have := two_le_of_commentEnd? hm
    omega

theorem length_takeWhile_append (p : Char → Bool) (xs ys : List Char) :
    ((xs ++ ys).takeWhile p).length = xs.length ↔
      (∀ c ∈ xs, p c = true) ∧ ∀ c ∈ ys.head?, p c = false := by
  induction xs with
  | nil => cases ys with
    | nil => simp
    | cons y ys => cases hy : p y <;> simp [hy]
  | cons x xs ih => cases hx : p x <;> simp [hx, ih]

/-- A line comment goes on to the same place when the line ends there. -/
theorem Sound.takeWhile_line {q : List Cell} (h : Sound q) (ys : List Char)
    (hlen : ((ys ++ text .old q).takeWhile (· != '\n')).length = ys.length) :
    ((ys ++ text .new q).takeWhile (· != '\n')).length = ys.length := by
  rw [length_takeWhile_append] at hlen ⊢
  refine ⟨hlen.1, ?_⟩
  cases hhead : (text .old q).head? with
  | none =>
    have hnil : q = [] := by
      apply h.eq_nil_of_length .old (fun _ hc => hc)
      rw [List.head?_eq_none_iff] at hhead
      rw [hhead]
      rfl
    simp [hnil]
  | some c =>
    have hc : c = '\n' := by simpa using hlen.2 c hhead
    subst hc
    rw [(h.head_iff (by decide)).1 hhead]
    simp

/-- A block comment that stays is found in the new text as well. -/
theorem Sound.regionAt?_some_block {ys : List Char} {q : List Cell} {kind : RegionKind}
    (hsome : regionAt? ('/' :: '*' :: (ys ++ text .old q)) = some (kind, ys.length + 1 + 1)) :
    regionAt? ('/' :: '*' :: (ys ++ text .new q)) = some (kind, ys.length + 1 + 1) := by
  cases ys with
  | nil =>
    have := four_le_of_regionAt? hsome
    simp at this
  | cons y ys =>
    by_cases hdoc : y = '*'
    · subst hdoc
      simp only [List.cons_append, List.length_cons] at hsome ⊢
      rw [regionAt?.eq_1] at hsome ⊢
      split at hsome
      · rename_i hend
        simp only [Option.some.injEq, Prod.mk.injEq] at hsome
        obtain ⟨z, rfl⟩ := List.length_eq_one_iff.1 (by omega : ys.length = 1)
        rw [if_pos (by simpa using hend)]
        simp [hsome.1]
      · rename_i hend
        obtain ⟨m, hm, heq⟩ := Option.map_eq_some_iff.1 hsome
        simp only [Prod.mk.injEq] at heq
        obtain ⟨rfl, hlen⟩ := heq
        have htwo := two_le_of_commentEnd? hm
        obtain ⟨z, zs, rfl⟩ : ∃ z zs, ys = z :: zs := List.exists_cons_of_length_pos (by omega)
        rw [if_neg (by simpa using hend), commentEnd?_append hm (by omega)]
        simp [hlen]
    · rw [regionAt?_block (by simpa using hdoc)] at hsome ⊢
      obtain ⟨m, hm, heq⟩ := Option.map_eq_some_iff.1 hsome
      simp only [Prod.mk.injEq] at heq
      obtain ⟨rfl, hlen⟩ := heq
      rw [commentEnd?_append hm (by omega)]
      simp [hlen]

/-- A comment or literal that stays is found in the new text as well. -/
theorem Sound.regionAt?_some {xs : List Char} {q : List Cell} (h : Sound q) {kind : RegionKind}
    (hsome : regionAt? (xs ++ text .old q) = some (kind, xs.length)) :
    regionAt? (xs ++ text .new q) = some (kind, xs.length) := by
  have htwo := two_le_of_regionAt? hsome
  obtain ⟨c, d, ys, rfl⟩ : ∃ c d ys, xs = c :: d :: ys := by
    match xs, htwo with
    | c :: d :: ys, _ => exact ⟨c, d, ys, rfl⟩
  simp only [List.cons_append, List.length_cons] at hsome ⊢
  by_cases hc : c = '/'
  · subst hc
    by_cases hstar : d = '*'
    · subst hstar
      exact Sound.regionAt?_some_block hsome
    · by_cases hline : d = '/'
      · subst hline
        rw [regionAt?.eq_3] at hsome ⊢
        simp only [Option.some.injEq, Prod.mk.injEq] at hsome ⊢
        have hlen := h.takeWhile_line ys (by omega)
        exact ⟨hsome.1, by omega⟩
      · rw [regionAt?_slash (by simpa using hstar) (by simpa using hline)] at hsome
        cases hsome
  · rw [regionAt?_other hc] at hsome ⊢
    split at hsome
    · rename_i hquote
      obtain ⟨m, hm, heq⟩ := Option.map_eq_some_iff.1 hsome
      simp only [Prod.mk.injEq] at heq
      obtain ⟨rfl, hlen⟩ := heq
      have hnew := literalEnd?_append c (d :: ys) hm (by simp; omega) (text .new q)
      rw [List.cons_append] at hnew
      rw [if_pos hquote, hnew]
      simp [hlen]
    · cases hsome

/-! ## All comments and literals -/

/-- The comments and literals of a text that starts at offset `pos`. -/
def regionsFrom (pos : Nat) (cs : List Char) : List Region :=
  Text.hitsFrom (fun _ rest => regionAt? rest) none pos 0 cs

theorem hitsFrom_regionAt? (before : Option Char) (pos skip : Nat) (cs : List Char) :
    Text.hitsFrom (fun _ rest => regionAt? rest) before pos skip cs =
      Text.hitsFrom (fun _ rest => regionAt? rest) none pos skip cs := by
  cases cs with
  | nil => cases skip <;> rfl
  | cons c cs => cases skip <;> rfl

theorem regionsFrom_none {c : Char} {cs : List Char} (h : regionAt? (c :: cs) = none) (pos : Nat) :
    regionsFrom pos (c :: cs) = regionsFrom (pos + 1) cs := by
  simp only [regionsFrom, Text.hitsFrom, h]
  exact hitsFrom_regionAt? _ _ _ _

theorem regionsFrom_some {xs cs : List Char} {kind : RegionKind}
    (h : regionAt? (xs ++ cs) = some (kind, xs.length)) (pos : Nat) :
    regionsFrom pos (xs ++ cs) =
      ⟨pos, pos + xs.length, kind⟩ :: regionsFrom (pos + xs.length) cs := by
  have htwo := two_le_of_regionAt? h
  obtain ⟨x, xs, rfl⟩ : ∃ x xs', xs = x :: xs' := List.exists_cons_of_length_pos (by omega)
  obtain ⟨before, hskip⟩ := Text.hitsFrom_append_skip (fun _ rest => regionAt? rest) xs cs (some x)
    (pos + 1)
  rw [List.cons_append] at h ⊢
  simp only [regionsFrom, Text.hitsFrom, h, List.length_cons, Nat.add_sub_cancel]
  rw [hskip, hitsFrom_regionAt?]
  congr 2
  omega

/-- Nothing starts at characters that are no slash and no quote. -/
theorem regionsFrom_noMark {xs : List Char} (hx : ∀ c ∈ xs, c ≠ '/' ∧ isQuote c = false)
    (cs : List Char) :
    ∀ pos, regionsFrom pos (xs ++ cs) = regionsFrom (pos + xs.length) cs := by
  induction xs with
  | nil => intro pos; rfl
  | cons x xs ih =>
    intro pos
    obtain ⟨hslash, hq⟩ := hx x (by simp)
    have hnone : regionAt? (x :: (xs ++ cs)) = none := by
      rw [regionAt?_other hslash, hq]
      rfl
    rw [List.cons_append, regionsFrom_none hnone, ih fun c hc => hx c (by simp [hc])]
    congr 1
    simp only [List.length_cons]
    omega

theorem regionsFrom_quiet {xs : List Char} (hx : ∀ c ∈ xs, isQuiet c = true) (cs : List Char)
    (pos : Nat) : regionsFrom pos (xs ++ cs) = regionsFrom (pos + xs.length) cs := by
  refine regionsFrom_noMark (fun c hc => ?_) cs pos
  have hquiet := hx c hc
  simp only [isQuiet, Bool.not_eq_true', Bool.or_eq_false_iff, beq_eq_false_iff_ne] at hquiet
  exact ⟨hquiet.1.2, hquiet.1.1.1⟩

end Patch

end DocSignature

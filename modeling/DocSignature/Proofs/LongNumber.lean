import DocSignature.Json.Reader
import Mathlib.Data.List.TakeWhile

/-!
# Numbers that are too long

The reader gives up at an integer with more digits than the limit allows. Whatever it reads is part
of the text, so that such an integer is a run of digits in the text, and a text without a long run
of digits is never given up for this reason.
-/

namespace DocSignature.Json

/-- The text has a run of that many digits in it, and they are too many. -/
def HasLongRun (count : Nat) (cs : List Char) : Prop :=
  Text.maxDigits < count ∧
    ∃ run, run <:+: cs ∧ run.length = count ∧ ∀ c ∈ run, c.isDigit = true

theorem HasLongRun.mono {count : Nat} {cs whole : List Char} (h : HasLongRun count cs)
    (hcs : cs <:+ whole) : HasLongRun count whole := by
  obtain ⟨hcount, run, hrun, hlength, hdigits⟩ := h
  exact ⟨hcount, run, hrun.trans hcs.isInfix, hlength, hdigits⟩

/-- An outcome of reading the start of a text: what is left is the end of it, and a number that is
too long stands in it. -/
def Within {α : Type} (cs : List Char) : Except Stop (α × List Char) → Prop
  | .ok r => r.2 <:+ cs
  | .error stop => ∀ count, stop.problem = .tooManyDigits count → HasLongRun count cs

section Within
variable {α β : Type} {cs whole : List Char}

theorem Within.mono {r : Except Stop (α × List Char)} (h : Within cs r) (hcs : cs <:+ whole) :
    Within whole r := by
  cases r with
  | ok r => exact h.trans hcs
  | error stop => exact fun count hcount => (h count hcount).mono hcs

theorem Within.map {r : Except Stop (α × List Char)} (h : Within cs r) (f : α → β) :
    Within cs (r.map fun r => (f r.1, r.2)) := by
  cases r with
  | ok r => exact h
  | error stop => exact h

theorem within_error {stop : Stop} (h : ∀ count, stop.problem ≠ .tooManyDigits count) :
    Within (α := α) cs (.error stop) :=
  fun count hcount => absurd hcount (h count)

end Within

/-! ## Parts of values -/

theorem skipSpace_suffix (cs : List Char) : skipSpace cs <:+ cs :=
  List.dropWhile_suffix _

theorem suffix_behind_space {c : Char} {after rest whole : List Char}
    (h : skipSpace rest = c :: after) (hrest : rest <:+ whole) : after <:+ whole :=
  (List.suffix_cons c after).trans (h ▸ (skipSpace_suffix rest).trans hrest)

theorem digitRun_suffix (cs : List Char) : (digitRun cs).2 <:+ cs :=
  List.dropWhile_suffix _

theorem fractionRun_suffix (cs : List Char) : (fractionRun cs).2 <:+ cs := by
  unfold fractionRun
  split
  · rename_i rest
    by_cases hempty : (digitRun rest).1.isEmpty = true
    · simp [hempty]
    · simp only [hempty]
      exact (digitRun_suffix rest).trans (List.suffix_cons _ _)
  · exact List.suffix_rfl

theorem exponentRun_suffix (cs : List Char) : (exponentRun cs).2 <:+ cs := by
  have hdigits (n : Int) {rest : List Char} (hrest : rest <:+ cs) :
      (if (rest.takeWhile Char.isDigit).isEmpty = true then ((none : Option Int), cs)
        else (some n, rest.dropWhile Char.isDigit)).2 <:+ cs := by
    split
    · exact List.suffix_rfl
    · exact (List.dropWhile_suffix _).trans hrest
  unfold exponentRun
  dsimp only [digitRun]
  cases cs with
  | nil => exact List.suffix_rfl
  | cons c rest =>
    have htail : rest <:+ c :: rest := List.suffix_cons c rest
    dsimp only
    split
    · split
      · exact hdigits _ ((List.suffix_cons _ _).trans htail)
      · exact hdigits _ ((List.suffix_cons _ _).trans htail)
      · exact hdigits _ htail
    · exact List.suffix_rfl

theorem wholeRun?_eq_some {cs whole rest : List Char} (h : wholeRun? cs = some (whole, rest)) :
    cs = whole ++ rest ∧ ∀ c ∈ whole, c.isDigit = true := by
  unfold wholeRun? at h
  split at h
  · cases h
    exact ⟨rfl, List.forall_mem_singleton.2 rfl⟩
  · split at h
    · cases h
      exact ⟨List.takeWhile_append_dropWhile.symm, fun c hc => List.mem_takeWhile_imp hc⟩
    · cases h
  · cases h

theorem within_readNumber (cs : List Char) : Within cs (readNumber cs) := by
  unfold readNumber
  split
  rename_i negative body hsign
  have hbody : body <:+ cs := by
    split at hsign
    · cases hsign
      exact List.suffix_cons _ _
    · cases hsign
      exact List.suffix_rfl
  split
  · exact within_error (by simp)
  · rename_i whole rest hwhole
    obtain ⟨hparts, hdigits⟩ := wholeRun?_eq_some hwhole
    have hrest : rest <:+ cs := (List.suffix_append whole rest).trans (hparts ▸ hbody)
    have hleft : (exponentRun (fractionRun rest).2).2 <:+ cs :=
      ((exponentRun_suffix _).trans (fractionRun_suffix rest)).trans hrest
    dsimp only
    split
    · split
      · rename_i hlong
        -- the only place where the reader gives up for the length of a number
        intro count hcount
        cases hcount
        have hrun : whole <:+: body := hparts ▸ (List.prefix_append whole rest).isInfix
        exact ⟨hlong, whole, hrun.trans hbody.isInfix, rfl, hdigits⟩
      · exact hleft
    · exact hleft

theorem suffix_of_readWord? {cs : List Char} {found : Json × List Char}
    (h : readWord? cs = some found) : found.2 <:+ cs := by
  obtain ⟨entry, -, hentry⟩ := List.exists_of_findSome?_eq_some h
  obtain ⟨rest, hrest, rfl⟩ := Option.map_eq_some_iff.1 hentry
  unfold afterWord? at hrest
  split at hrest
  · cases hrest
    exact List.drop_suffix _ _
  · cases hrest

theorem escape_ne_tooManyDigits {cs : List Char} {problem : Problem}
    (h : escape cs = .error problem) (count : Nat) : problem ≠ .tooManyDigits count := by
  rintro rfl
  unfold escape at h
  repeat' split at h
  all_goals cases h

theorem within_stringFrom (opened skip : Nat) (cs : List Char) :
    Within cs (stringFrom opened skip cs) := by
  fun_induction stringFrom opened skip cs with
  | case1 => exact within_error (by simp)
  | case2 skip c cs ih => exact ih.mono (List.suffix_cons c cs)
  | case3 cs => exact List.suffix_cons _ cs
  | case4 cs problem hescape => exact within_error (escape_ne_tooManyDigits hescape)
  | case5 cs e size hescape hquote ih => exact (ih.map _).mono (List.suffix_cons _ cs)
  | case6 => exact within_error (by simp)
  | case7 c cs hquote hescape hcontrol ih => exact (ih.map _).mono (List.suffix_cons c cs)

/-! ## Values -/

section Step
variable {fuel : Nat} (hvalue : ∀ cs, Within cs (readValue fuel cs))
  (hitems : ∀ cs, Within cs (readItems fuel cs))
  (hfields : ∀ fields cs, Within cs (readFields fuel fields cs))

include hitems hfields in
theorem within_readValue_succ (cs : List Char) : Within cs (readValue (fuel + 1) cs) := by
  rw [readValue.eq_def]
  dsimp only
  split
  · rename_i rest
    exact ((within_stringFrom _ 0 rest).map fun text => str (String.ofList text)).mono
      (List.suffix_cons _ rest)
  · rename_i rest
    have hrest : rest <:+ '[' :: rest := List.suffix_cons _ rest
    split
    · rename_i after hclosed
      exact suffix_behind_space hclosed hrest
    · exact ((hitems _).map _).mono ((skipSpace_suffix rest).trans hrest)
  · rename_i rest
    have hrest : rest <:+ '{' :: rest := List.suffix_cons _ rest
    split
    · rename_i after hclosed
      exact suffix_behind_space hclosed hrest
    · exact ((hfields [] _).map _).mono ((skipSpace_suffix rest).trans hrest)
  · split
    · rename_i found hfound
      exact suffix_of_readWord? hfound
    · exact within_readNumber cs

include hvalue hitems in
theorem within_readItems_succ (cs : List Char) : Within cs (readItems (fuel + 1) cs) := by
  have hitem := hvalue cs
  rw [readItems.eq_def]
  dsimp only
  split
  · rename_i stop hstop
    rwa [hstop] at hitem
  · rename_i item rest hread
    rw [hread] at hitem
    split
    · rename_i after hclosed
      exact suffix_behind_space hclosed hitem
    · rename_i after hcomma
      exact ((hitems _).map _).mono
        ((skipSpace_suffix after).trans (suffix_behind_space hcomma hitem))
    · exact within_error (by simp)

include hvalue hfields in
theorem within_readFields_succ (fields : Dictionary Json) (cs : List Char) :
    Within cs (readFields (fuel + 1) fields cs) := by
  rw [readFields.eq_def]
  dsimp only
  split
  · rename_i rest
    have hkey := (within_stringFrom ('"' :: rest).length 0 rest).mono (List.suffix_cons '"' rest)
    split
    · rename_i stop hstop
      rwa [hstop] at hkey
    rename_i key behind hread
    rw [hread] at hkey
    split
    · rename_i start hcolon
      have hfield := (hvalue (skipSpace start)).mono
        ((skipSpace_suffix start).trans (suffix_behind_space hcolon hkey))
      split
      · rename_i stop hstop
        rwa [hstop] at hfield
      rename_i value left hvalue
      rw [hvalue] at hfield
      split
      · rename_i after hclosed
        exact suffix_behind_space hclosed hfield
      · rename_i after hcomma
        exact (hfields _ _).mono
          ((skipSpace_suffix after).trans (suffix_behind_space hcomma hfield))
      · exact within_error (by simp)
    · exact within_error (by simp)
  · exact within_error (by simp)

end Step

/-- All that is read of values, items and fields comes from the text: the three readers call each
other with less fuel. -/
theorem within_readers (fuel : Nat) :
    (∀ cs, Within cs (readValue fuel cs)) ∧ (∀ cs, Within cs (readItems fuel cs)) ∧
      ∀ fields cs, Within cs (readFields fuel fields cs) := by
  induction fuel with
  | zero =>
    exact ⟨fun _ => within_error (by simp), fun _ => within_error (by simp),
      fun _ _ => within_error (by simp)⟩
  | succ fuel ih =>
    obtain ⟨hvalue, hitems, hfields⟩ := ih
    exact ⟨within_readValue_succ hitems hfields, within_readItems_succ hvalue hitems,
      within_readFields_succ hvalue hfields⟩

/-- A text that is given up for a number has as many digits in a row in it. -/
theorem hasLongRun_of_read {cs : List Char} {count line : Nat}
    (h : read cs = .error ⟨.tooManyDigits count, line⟩) : HasLongRun count cs := by
  unfold read at h
  dsimp only at h
  split at h
  · cases h
  · have hvalue :=
      ((within_readers (2 * cs.length + 1)).1 (skipSpace cs)).mono (skipSpace_suffix cs)
    split at h
    · rename_i stop hstop
      rw [hstop] at hvalue
      exact hvalue count (congrArg ReadError.problem (Except.error.inj h))
    · split at h
      · cases h
      · cases h

end DocSignature.Json

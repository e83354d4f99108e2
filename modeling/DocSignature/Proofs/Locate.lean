import DocSignature.Source.Layout
import Mathlib.Data.List.Induction
import Mathlib.Data.List.TakeWhile

/-!
# Places step by step

The place of an offset is where one gets from the first place, character by character. Behind a line
feed it depends only on the line before.
-/

namespace DocSignature.Source

theorem startsAfter_append (xs ys : List Char) :
    ∀ pos, Text.startsAfter pos (xs ++ ys) =
      Text.startsAfter pos xs ++ Text.startsAfter (pos + xs.length) ys := by
  induction xs with
  | nil => intro pos; rfl
  | cons x xs ih =>
    intro pos
    have hpos : pos + 1 + xs.length = pos + (x :: xs).length := by
      rw [List.length_cons]
      omega
    simp only [List.cons_append, Text.startsAfter, ih, hpos]
    split <;> rfl

theorem startsAfter_bounds (cs : List Char) :
    ∀ pos, ∀ n ∈ Text.startsAfter pos cs, pos < n ∧ n ≤ pos + cs.length := by
  induction cs with
  | nil => intro pos n hn; cases hn
  | cons c cs ih =>
    intro pos n hn
    have hrest (hn : n ∈ Text.startsAfter (pos + 1) cs) :
        pos < n ∧ n ≤ pos + (c :: cs).length := by
      have := ih (pos + 1) n hn
      rw [List.length_cons]
      omega
    simp only [Text.startsAfter] at hn
    split at hn
    · rcases List.mem_cons.1 hn with rfl | hn
      · rw [List.length_cons]
        omega
      · exact hrest hn
    · exact hrest hn

theorem lineStarts_append (xs ys : List Char) :
    Text.lineStarts (xs ++ ys) = Text.lineStarts xs ++ Text.startsAfter xs.length ys := by
  rw [Text.lineStarts, startsAfter_append, Nat.zero_add]
  rfl

theorem lineStarts_le (cs : List Char) : ∀ n ∈ Text.lineStarts cs, n ≤ cs.length := by
  intro n hn
  rcases List.mem_cons.1 hn with rfl | hn
  · exact Nat.zero_le _
  · have := startsAfter_bounds cs 0 n hn
    omega

/-- Up to the end of a text, its lines start where they start in a longer one. -/
theorem takeWhile_lineStarts (xs ys : List Char) :
    (Text.lineStarts (xs ++ ys)).takeWhile (· ≤ xs.length) = Text.lineStarts xs := by
  have hfront : ∀ n ∈ Text.lineStarts xs, decide (n ≤ xs.length) = true := fun n hn =>
    decide_eq_true (lineStarts_le xs n hn)
  have hback : (Text.startsAfter xs.length ys).takeWhile (· ≤ xs.length) = [] := by
    cases hstarts : Text.startsAfter xs.length ys with
    | nil => rfl
    | cons n rest =>
      have := startsAfter_bounds ys xs.length n (by simp [hstarts])
      exact List.takeWhile_cons_of_neg (by simp; omega)
  rw [lineStarts_append, List.takeWhile_append_of_pos hfront, hback, List.append_nil]

/-- The place of an offset, character by character. -/
theorem locate_append (xs ys : List Char) :
    locate (xs ++ ys) xs.length = xs.foldl Loc.next Loc.first := by
  rw [locate, locateIn, takeWhile_lineStarts]
  induction xs using List.reverseRecOn with
  | nil => rfl
  | append_singleton xs c ih =>
    have hlast : (Text.lineStarts xs).getLast?.getD 0 ≤ xs.length := by
      cases hget : (Text.lineStarts xs).getLast? with
      | none => exact Nat.zero_le _
      | some n => exact lineStarts_le xs n (List.mem_of_getLast? hget)
    rw [List.foldl_append, ← ih, lineStarts_append]
    by_cases hc : c = '\n'
    · simp [Text.startsAfter, Loc.next, hc]
    · simp [Text.startsAfter, Loc.next, hc]
      omega

/-! ## Lines -/

theorem foldl_next_line (cs : List Char) :
    ∀ loc : Loc, (cs.foldl Loc.next loc).line = loc.line + cs.count '\n' := by
  induction cs with
  | nil => intro loc; simp
  | cons c cs ih =>
    intro loc
    rw [List.foldl_cons, ih, Loc.next]
    by_cases hc : c = '\n'
    · subst hc
      simp
      omega
    · simp [hc]

/-- Behind a line feed only the line matters. -/
theorem foldl_next_eq {cs : List Char} (hline : '\n' ∈ cs) :
    ∀ {a b : Loc}, a.line = b.line → cs.foldl Loc.next a = cs.foldl Loc.next b := by
  induction cs with
  | nil => cases hline
  | cons c cs ih =>
    intro a b hab
    rw [List.foldl_cons, List.foldl_cons]
    by_cases hc : c = '\n'
    · simp [Loc.next, hc, hab]
    · have hmem : '\n' ∈ cs := by simpa [Ne.symm hc] using hline
      exact ih hmem (by simpa [Loc.next, hc] using hab)

end DocSignature.Source

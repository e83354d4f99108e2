import DocSignature.Proofs.Pieces
import DocSignature.Proofs.RegionOrder

/-!
# Where a literal ends

A literal is read in two ways. Among the regions of a source it needs a closing quote, on its own
line unless it is in backticks; among the pieces of a text it runs up to the end when it has none.
What makes a literal whole is said here on its own, and of a whole literal both readings find the
same end.
-/

namespace DocSignature.Header

open Source

/-! ## Whole literals -/

/-- What follows the opening quote of a whole literal: single characters, and backslashes with the
character behind each, up to the first quote that is none of these. A line end may stand by itself
in a backtick literal only. -/
inductive LiteralTail (quote : Char) : List Char → Prop
  | close (hescape : quote ≠ '\\') : LiteralTail quote [quote]
  | escape (d : Char) {cs : List Char} (hcs : LiteralTail quote cs) :
      LiteralTail quote ('\\' :: d :: cs)
  | char {c : Char} {cs : List Char} (hescape : c ≠ '\\') (hquote : c ≠ quote)
      (hline : c = '\n' → quote = '`') (hcs : LiteralTail quote cs) : LiteralTail quote (c :: cs)

/-- A source literal ends where a whole literal does, whatever follows it. -/
theorem LiteralTail.literalEnd?_append {quote : Char} {tail : List Char}
    (h : LiteralTail quote tail) (rest : List Char) :
    literalEnd? quote (tail ++ rest) = some tail.length := by
  induction h with
  | close hescape =>
    rw [List.cons_append, literalEnd?_cons _ hescape, if_pos rfl]
    rfl
  | escape d _ ih =>
    rw [List.cons_append, List.cons_append, literalEnd?_escape, ih]
    rfl
  | char hescape hquote hline _ ih =>
    rw [List.cons_append, literalEnd?_cons _ hescape, if_neg hquote,
      if_neg (by simpa using hline), ih]
    rfl

/-- A whole literal is closed. -/
theorem LiteralTail.terminated {quote : Char} {tail : List Char} (h : LiteralTail quote tail) :
    Terminated quote tail := by
  induction h with
  | close hescape => exact .close hescape
  | escape d _ ih => exact .escape d ih
  | char hescape hquote _ _ ih => exact .char hescape hquote ih

/-! ## Two ways to read a literal -/

/-- Up to the end of a source literal it is whole. -/
theorem literalTail_of_literalEnd? (quote : Char) (cs : List Char) :
    ∀ {n}, literalEnd? quote cs = some n → LiteralTail quote (cs.take n) := by
  fun_induction literalEnd? quote cs with
  | case1 => intro n h; cases h
  | case2 d rest ih =>
    intro n h
    obtain ⟨m, hm, rfl⟩ := Option.map_eq_some_iff.1 h
    exact .escape d (ih hm)
  | case3 => intro n h; cases h
  | case4 cs hescape =>
    intro n h
    cases h
    exact .close hescape
  | case5 c cs hescape hquote hline => intro n h; cases h
  | case6 c cs hescape hquote hline ih =>
    intro n h
    obtain ⟨m, hm, rfl⟩ := Option.map_eq_some_iff.1 h
    exact .char hescape hquote (by simpa using hline) (ih hm)

/-- A literal of a source has the same length among the pieces of a text. -/
theorem literalLength_of_literalEnd? (quote : Char) (cs : List Char) {n : Nat}
    (h : literalEnd? quote cs = some n) : literalLength quote cs = n := by
  have hlength := (literalTail_of_literalEnd? quote cs h).terminated.literalLength_append
    (cs.drop n)
  rwa [List.take_append_drop, List.length_take, Nat.min_eq_left (literalEnd?_le quote cs h)]
    at hlength

/-- The end of a source literal is the end found among pieces, when the literal up to there is
whole. -/
theorem literalEnd?_eq_some_iff {quote : Char} {cs : List Char} {n : Nat} :
    literalEnd? quote cs = some n ↔ literalLength quote cs = n ∧ LiteralTail quote (cs.take n) := by
  constructor
  · intro h
    exact ⟨literalLength_of_literalEnd? quote cs h, literalTail_of_literalEnd? quote cs h⟩
  · rintro ⟨rfl, htail⟩
    have hend := htail.literalEnd?_append (cs.drop (literalLength quote cs))
    rwa [List.take_append_drop, List.length_take, Nat.min_eq_left (literalLength_le quote cs)]
      at hend

instance (quote : Char) (tail : List Char) : Decidable (LiteralTail quote tail) :=
  decidable_of_iff (literalEnd? quote tail = some tail.length) ⟨fun h => by
    simpa using literalTail_of_literalEnd? quote tail h, fun h => by
    simpa using h.literalEnd?_append []⟩

example : LiteralTail '"' ['\'', '\\', '"', '\\', '\n', '\\', '\\', '"'] := by decide

example : ¬LiteralTail '"' ['a', '\n', '"'] := by decide

/-- At a quote there can only be a literal. -/
theorem regionAt?_quote {quote : Char} (hquote : isQuote quote = true) (cs : List Char) :
    regionAt? (quote :: cs) = (literalEnd? quote cs).map fun n => (.literal, n + 1) := by
  have hslash : quote ≠ '/' := by
    rintro rfl
    cases hquote
  rw [Patch.regionAt?_other hslash, if_pos hquote]

/-- What is recognised as a literal starts with a quote and goes on to the closing one. -/
theorem exists_literalEnd?_of_regionAt? {cs : List Char} {size : Nat}
    (h : regionAt? cs = some (.literal, size)) :
    ∃ quote body n, cs = quote :: body ∧ isQuote quote = true ∧
      literalEnd? quote body = some n ∧ n + 1 = size := by
  rw [regionAt?.eq_def] at h
  split at h
  · -- What opens with a slash is a comment of some kind.
    split at h
    · split at h
      · cases h
      · obtain ⟨n, -, heq⟩ := Option.map_eq_some_iff.1 h
        cases heq
    · obtain ⟨n, -, heq⟩ := Option.map_eq_some_iff.1 h
      cases heq
  · cases h
  · rename_i quote body _ _
    split at h
    · rename_i hquote
      obtain ⟨n, hn, heq⟩ := Option.map_eq_some_iff.1 h
      cases heq
      exact ⟨quote, body, n, rfl, hquote, hn, rfl⟩
    · cases h
  · cases h

theorem regionAt?_eq_literal_iff {cs : List Char} {size : Nat} :
    regionAt? cs = some (.literal, size) ↔ ∃ quote body, cs = quote :: body ∧
      isQuote quote = true ∧ literalLength quote body + 1 = size ∧
        LiteralTail quote (body.take (literalLength quote body)) := by
  constructor
  · intro h
    obtain ⟨quote, body, n, rfl, hquote, hend, rfl⟩ := exists_literalEnd?_of_regionAt? h
    obtain ⟨rfl, htail⟩ := literalEnd?_eq_some_iff.1 hend
    exact ⟨quote, body, rfl, hquote, rfl, htail⟩
  · rintro ⟨quote, body, rfl, hquote, rfl, htail⟩
    rw [regionAt?_quote hquote, literalEnd?_eq_some_iff.2 ⟨rfl, htail⟩]
    rfl

/-! ## The literals of a source -/

theorem literalStopIndex?_of_drop {cs : List Char} {start : Nat} {quote : Char} {body : List Char}
    (h : cs.drop start = quote :: body) :
    literalStopIndex? cs start = some ((start + (literalLength quote body + 1) : Nat) : Int) := by
  have hread : readFrom? cs start = some (quote :: body) := by simp [readFrom?, h]
  rw [literalStopIndex?, hread]
  grind [literalStop?]

/-- The literals of a source are the whole literals at the quotes that no earlier region reaches,
each up to where it ends among the pieces of the text: both readings stop at the same quote. -/
theorem literals_stop_alike (cs : List Char) (start stop : Nat) :
    ⟨start, stop, .literal⟩ ∈ regions cs ↔
      (∀ r ∈ regions cs, r.start < start → r.stop ≤ start) ∧
      literalStopIndex? cs start = some (stop : Int) ∧
      ∃ quote tail, slice cs start stop = quote :: tail ∧ isQuote quote = true ∧
        LiteralTail quote tail := by
  rw [mem_regions_iff]
  refine and_congr_right fun _ => ?_
  simp only [regionAt?_eq_literal_iff]
  constructor
  · rintro ⟨size, ⟨quote, body, hdrop, hquote, rfl, htail⟩, rfl⟩
    refine ⟨literalStopIndex?_of_drop hdrop, quote, _, ?_, hquote, htail⟩
    rw [slice, hdrop, Nat.add_sub_cancel_left, List.take_succ_cons]
  · rintro ⟨hindex, quote, tail, hslice, hquote, htail⟩
    have hprefix := List.take_prefix (stop - start) (cs.drop start)
    rw [← slice, hslice] at hprefix
    obtain ⟨rest, hrest⟩ := hprefix
    have hdrop : cs.drop start = quote :: (tail ++ rest) := hrest.symm
    rw [literalStopIndex?_of_drop hdrop, Option.some.injEq, Int.natCast_inj] at hindex
    refine ⟨_, ⟨quote, tail ++ rest, hdrop, hquote, rfl, ?_⟩, hindex.symm⟩
    rw [slice, hdrop, ← hindex, Nat.add_sub_cancel_left, List.take_succ_cons] at hslice
    rwa [(List.cons.inj hslice).2]

/-- Three literals with escapes, and a quote in front of the last one that is never closed. -/
def mixedLiterals : List Char := "'it\\'s' \"\\\\\" ' `a\n\\``".toList

/-- The last of them goes over a line end. The lone quote stops at the end of the text, too, but it
is no literal. -/
theorem mixedLiterals_stop_alike :
    (regions mixedLiterals).map (fun r => (r.start, r.stop)) = [(0, 7), (8, 12), (15, 21)] ∧
    literalStopIndex? mixedLiterals 13 = some 21 ∧
    literalStopIndex? mixedLiterals 15 = some 21 ∧
    ∃ quote tail, slice mixedLiterals 15 21 = quote :: tail ∧ isQuote quote = true ∧
      LiteralTail quote tail := by
  have hfound : ∃ r ∈ regions mixedLiterals, r.start = 15 ∧ r.stop = 21 ∧ r.value = .literal := by
    decide +kernel
  obtain ⟨⟨start, stop, value⟩, hr, rfl, rfl, rfl⟩ := hfound
  obtain ⟨-, hstop, htail⟩ := (literals_stop_alike mixedLiterals 15 21).1 hr
  exact ⟨by decide +kernel, by decide +kernel, hstop, htail⟩

end DocSignature.Header

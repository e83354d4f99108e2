import DocSignature.Text.Search
import Mathlib.Data.List.Basic

/-!
# What a search finds

A hit lies inside the text, and hits do not overlap. Where a recogniser needs some mark, a text
without the mark has no hits.
-/

namespace DocSignature.Text

variable {α : Type} {find : Recogniser α}

/-- What a recogniser answers is at least one character long and no longer than the text. -/
def Sized (find : Recogniser α) : Prop :=
  ∀ before cs value size, find before cs = some (value, size) → 0 < size ∧ size ≤ cs.length

theorem hitsFrom_bounds (hf : Sized find) (cs : List Char) :
    ∀ (before : Option Char) (pos skip : Nat), ∀ h ∈ hitsFrom find before pos skip cs,
      pos + skip ≤ h.start ∧ h.start < h.stop ∧ h.stop ≤ pos + cs.length := by
  induction cs with
  | nil => intro before pos skip h hh; simp [hitsFrom] at hh
  | cons c cs ih =>
    intro before pos skip h hh
    cases skip with
    | succ skip =>
      have := ih _ _ _ h (by simpa [hitsFrom] using hh)
      simp only [List.length_cons]
      omega
    | zero =>
      simp only [hitsFrom] at hh
      split at hh
      · rename_i value size hfind
        obtain ⟨h0, hle⟩ := hf _ _ _ _ hfind
        simp only [List.length_cons] at hle ⊢
        rcases List.mem_cons.1 hh with rfl | hh
        · simp only; omega
        · have := ih _ _ _ h hh
          omega
      · have := ih _ _ _ h hh
        simp only [List.length_cons]
        omega

/-- A hit is a stretch of the text. -/
theorem hits_bounds (hf : Sized find) {cs : List Char} {h : Hit α} (hh : h ∈ hits find cs) :
    h.start < h.stop ∧ h.stop ≤ cs.length := by
  have := hitsFrom_bounds hf cs none 0 0 h hh
  omega

/-- Hits are in order and apart. -/
theorem hitsFrom_pairwise (hf : Sized find) (cs : List Char) :
    ∀ (before : Option Char) (pos skip : Nat),
      (hitsFrom find before pos skip cs).Pairwise fun a b => a.stop ≤ b.start := by
  induction cs with
  | nil => intro before pos skip; cases skip <;> exact List.Pairwise.nil
  | cons c cs ih =>
    intro before pos skip
    cases skip with
    | succ skip => exact ih _ _ _
    | zero =>
      simp only [hitsFrom]
      split
      · rename_i value size hfind
        refine List.pairwise_cons.2 ⟨?_, ih _ _ _⟩
        intro h hh
        have := hitsFrom_bounds hf cs _ _ _ h hh
        have := (hf _ _ _ _ hfind).1
        simp only
        omega
      · exact ih _ _ _

/-- Of two hits the earlier one stops before the other one starts. -/
theorem hits_apart (hf : Sized find) {cs : List Char} {a b : Hit α} (ha : a ∈ hits find cs)
    (hb : b ∈ hits find cs) (hle : a.start ≤ b.start) : a = b ∨ a.stop ≤ b.start := by
  have hpair := hitsFrom_pairwise hf cs none 0 0
  have hlt := (hits_bounds hf hb).1
  rw [hits] at ha hb
  obtain ⟨front, back, hsplit⟩ := List.append_of_mem hb
  rw [hsplit] at ha hpair
  obtain ⟨-, hback, hfront⟩ := List.pairwise_append.1 hpair
  rcases List.mem_append.1 ha with ha | ha
  · exact .inr (hfront a ha b (by simp))
  · rcases List.mem_cons.1 ha with rfl | ha
    · exact .inl rfl
    · have := (List.pairwise_cons.1 hback).1 a ha
      omega

/-- At a hit the recogniser succeeds, seen from the character in front of it. -/
theorem hitsFrom_spec (cs : List Char) :
    ∀ (before : Option Char) (pos skip : Nat), ∀ h ∈ hitsFrom find before pos skip cs,
      ∃ front rest size, cs = front ++ rest ∧ h.start = pos + front.length ∧
        h.stop = h.start + size ∧
        find (front.getLast?.or before) rest = some (h.value, size) := by
  induction cs with
  | nil => intro before pos skip h hh; simp [hitsFrom] at hh
  | cons c cs ih =>
    intro before pos skip h hh
    -- A hit behind the first character has that character in front of it, or a later one.
    have later (skip : Nat) (hh : h ∈ hitsFrom find (some c) (pos + 1) skip cs) :
        ∃ front rest size, c :: cs = front ++ rest ∧ h.start = pos + front.length ∧
          h.stop = h.start + size ∧
          find (front.getLast?.or before) rest = some (h.value, size) := by
      obtain ⟨front, rest, size, rfl, hstart, hstop, hfind⟩ := ih _ _ _ h hh
      refine ⟨c :: front, rest, size, rfl, by simp only [List.length_cons]; omega, hstop, ?_⟩
      rw [← hfind, List.getLast?_cons]
      cases front.getLast? <;> rfl
    cases skip with
    | succ skip => exact later skip (by simpa [hitsFrom] using hh)
    | zero =>
      simp only [hitsFrom] at hh
      split at hh
      · rename_i value size hfind
        rcases List.mem_cons.1 hh with rfl | hh
        · exact ⟨[], c :: cs, size, rfl, rfl, rfl, by simpa using hfind⟩
        · exact later _ hh
      · exact later _ hh

/-- A success that no earlier one reaches into is a hit. -/
theorem mem_hitsFrom (rest : List Char) (hrest : rest ≠ []) {value : α} {size : Nat}
    (front : List Char) :
    ∀ (before : Option Char) (pos skip : Nat), skip ≤ front.length →
      find (front.getLast?.or before) rest = some (value, size) →
      (∀ xs ys v n, front = xs ++ ys → ys ≠ [] →
        find (xs.getLast?.or before) (ys ++ rest) = some (v, n) → n ≤ ys.length) →
      ⟨pos + front.length, pos + front.length + size, value⟩ ∈
        hitsFrom find before pos skip (front ++ rest) := by
  induction front with
  | nil =>
    intro before pos skip hskip hfind _
    obtain ⟨c, cs, rfl⟩ := List.exists_cons_of_ne_nil hrest
    obtain rfl : skip = 0 := by simpa using hskip
    simp only [List.getLast?_nil, Option.none_or] at hfind
    simp [hitsFrom, hfind]
  | cons c front ih =>
    intro before pos skip hskip hfind hfree
    simp only [List.length_cons] at hskip
    -- Whatever is skipped next, it ends in front of the rest.
    have later (skip : Nat) (hskip : skip ≤ front.length) :
        ⟨pos + (c :: front).length, pos + (c :: front).length + size, value⟩ ∈
          hitsFrom find (some c) (pos + 1) skip (front ++ rest) := by
      have hlast (xs : List Char) :
          (c :: xs).getLast?.or before = xs.getLast?.or (some c) := by
        rw [List.getLast?_cons]
        cases xs.getLast? <;> rfl
      have hmem := ih (some c) (pos + 1) skip hskip (by rw [← hlast]; exact hfind) (by
        intro xs ys v n heq hys hn
        exact hfree (c :: xs) ys v n (by rw [heq, List.cons_append]) hys (by rw [hlast]; exact hn))
      rwa [List.length_cons, ← Nat.add_assoc, Nat.add_right_comm]
    rw [List.cons_append]
    cases skip with
    | succ skip => exact later skip (by omega)
    | zero =>
      simp only [hitsFrom]
      split
      · rename_i v n hn
        have hle := hfree [] (c :: front) v n rfl (by simp) (by simpa using hn)
        simp only [List.length_cons] at hle
        exact List.mem_cons_of_mem _ (later (n - 1) (by omega))
      · exact later 0 (by omega)

/-- A success lies in a hit: its own, or one that reaches into it. -/
theorem exists_hitsFrom_of_find (hf : Sized find) {rest : List Char} (hrest : rest ≠ []) {value : α}
    {size : Nat} (front : List Char) :
    ∀ (before : Option Char) (pos skip : Nat),
      find (front.getLast?.or before) rest = some (value, size) →
      front.length < skip ∨ ∃ h ∈ hitsFrom find before pos skip (front ++ rest),
        h.start ≤ pos + front.length ∧ pos + front.length < h.stop := by
  induction front with
  | nil =>
    intro before pos skip hfind
    obtain ⟨c, cs, rfl⟩ := List.exists_cons_of_ne_nil hrest
    cases skip with
    | succ skip => exact .inl (by simp)
    | zero =>
      simp only [List.getLast?_nil, Option.none_or] at hfind
      have hpos := (hf _ _ _ _ hfind).1
      exact .inr ⟨⟨pos, pos + size, value⟩, by simp [hitsFrom, hfind], by simp, by simp; omega⟩
  | cons c front ih =>
    intro before pos skip hfind
    have hlast : (c :: front).getLast?.or before = front.getLast?.or (some c) := by
      rw [List.getLast?_cons]
      cases front.getLast? <;> rfl
    rw [hlast] at hfind
    -- What is found behind the first character is found from there on.
    have later (skip : Nat) : front.length < skip ∨
        ∃ h ∈ hitsFrom find (some c) (pos + 1) skip (front ++ rest),
          h.start ≤ pos + (c :: front).length ∧ pos + (c :: front).length < h.stop := by
      refine (ih (some c) (pos + 1) skip hfind).imp id ?_
      rintro ⟨h, hh, hstart, hstop⟩
      exact ⟨h, hh, by simp only [List.length_cons]; omega, by simp only [List.length_cons]; omega⟩
    rw [List.cons_append]
    cases skip with
    | succ skip => exact (later skip).imp (by simp only [List.length_cons]; omega) id
    | zero =>
      right
      simp only [hitsFrom]
      split
      · rename_i v n hn
        rcases later (n - 1) with hinside | ⟨h, hh, hbounds⟩
        · exact ⟨⟨pos, pos + n, v⟩, by simp, by simp, by simp only [List.length_cons]; omega⟩
        · exact ⟨h, List.mem_cons_of_mem _ hh, hbounds⟩
      · exact (later 0).resolve_left (Nat.not_lt_zero _)

theorem exists_hit_of_find (hf : Sized find) {front rest : List Char} (hrest : rest ≠ [])
    {value : α} {size : Nat} (hfind : find front.getLast? rest = some (value, size)) :
    ∃ h ∈ hits find (front ++ rest), h.start ≤ front.length ∧ front.length < h.stop := by
  rcases exists_hitsFrom_of_find hf hrest front none 0 0 (by simpa using hfind) with hlt | hhit
  · cases hlt
  · simpa [hits] using hhit

/-- A search starts anew at a place that no hit goes over. -/
theorem hitsFrom_append (rest front : List Char) :
    ∀ (before : Option Char) (pos skip : Nat), skip ≤ front.length →
      (∀ h ∈ hitsFrom find before pos skip (front ++ rest),
        h.start < pos + front.length → h.stop ≤ pos + front.length) →
      ∃ earlier before', (∀ h ∈ earlier, h.stop ≤ pos + front.length) ∧
        hitsFrom find before pos skip (front ++ rest) =
          earlier ++ hitsFrom find before' (pos + front.length) 0 rest := by
  induction front with
  | nil =>
    intro before pos skip hskip _
    obtain rfl : skip = 0 := by simpa using hskip
    exact ⟨[], before, by simp, by simp⟩
  | cons c front ih =>
    intro before pos skip hskip hover
    simp only [List.length_cons, List.cons_append, ← Nat.add_assoc,
      Nat.add_right_comm pos front.length 1] at hskip hover ⊢
    cases skip with
    | succ skip => exact ih (some c) (pos + 1) skip (by omega) hover
    | zero =>
      simp only [hitsFrom] at hover ⊢
      split at hover
      · rename_i value size hfind
        have hstop := hover ⟨pos, pos + size, value⟩ (by simp) (by simp only; omega)
        obtain ⟨earlier, before', hle, heq⟩ := ih (some c) (pos + 1) (size - 1)
          (by simp only at hstop; omega) fun h hh => hover h (List.mem_cons_of_mem _ hh)
        exact ⟨⟨pos, pos + size, value⟩ :: earlier, before', List.forall_mem_cons.2 ⟨hstop, hle⟩,
          by rw [heq, List.cons_append]⟩
      · exact ih (some c) (pos + 1) 0 (by omega) hover

/-- Characters that belong to an earlier hit are passed over. -/
theorem hitsFrom_append_skip (find : Recogniser α) (xs cs : List Char) :
    ∀ (before : Option Char) (pos : Nat),
      ∃ before', hitsFrom find before pos xs.length (xs ++ cs) =
        hitsFrom find before' (pos + xs.length) 0 cs := by
  induction xs with
  | nil => intro before pos; exact ⟨before, by simp⟩
  | cons x xs ih =>
    intro before pos
    obtain ⟨before', h⟩ := ih (some x) (pos + 1)
    refine ⟨before', ?_⟩
    simp only [List.length_cons, List.cons_append, hitsFrom]
    rw [h]
    congr 1
    omega

/-- A recogniser that needs a mark finds nothing in a text without it. -/
theorem hitsFrom_eq_nil {mark : Char}
    (hf : ∀ before cs r, find before cs = some r → mark ∈ cs) (cs : List Char) (hc : mark ∉ cs) :
    ∀ (before : Option Char) (pos : Nat), hitsFrom find before pos 0 cs = [] := by
  induction cs with
  | nil => intro before pos; rfl
  | cons c cs ih =>
    intro before pos
    simp only [hitsFrom]
    split
    · rename_i hfind
      exact absurd (hf _ _ _ hfind) hc
    · exact ih (fun h => hc (by simp [h])) _ _

/-- A hit at the start of a text is the only one when its mark does not occur behind it. -/
theorem hits_eq_singleton {mark : Char} {value : α} {xs cs : List Char}
    (hf : ∀ before cs r, find before cs = some r → mark ∈ cs) (hx : xs ≠ [])
    (hfind : find none (xs ++ cs) = some (value, xs.length)) (hc : mark ∉ cs) :
    hits find (xs ++ cs) = [⟨0, xs.length, value⟩] := by
  obtain ⟨x, xs, rfl⟩ : ∃ x xs', xs = x :: xs' := List.exists_cons_of_ne_nil hx
  obtain ⟨before', h⟩ := hitsFrom_append_skip find xs cs (some x) 1
  simp only [List.cons_append] at hfind
  simp only [hits, List.cons_append, hitsFrom, hfind, List.length_cons, Nat.add_sub_cancel,
    Nat.zero_add]
  rw [h, hitsFrom_eq_nil hf cs hc]

end DocSignature.Text

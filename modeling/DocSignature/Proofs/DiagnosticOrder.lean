import DocSignature.Diagnostic
import Mathlib.Data.List.Basic

/-!
# Diagnostics in order

Sorting puts a diagnostic in front of those that it may stand before, and leaves the others where
they are. So it does not matter whether some diagnostics are left out before the sorting or after
it, and a change that keeps the places keeps the order, too.
-/

namespace DocSignature.Diagnostic

theorem notAfter_trans (a b c : Diagnostic) (hab : notAfter a b = true)
    (hbc : notAfter b c = true) : notAfter a c = true := by
  simp only [notAfter, Bool.or_eq_true, Bool.and_eq_true, decide_eq_true_eq, beq_iff_eq] at *
  omega

theorem notAfter_total (a b : Diagnostic) : (notAfter a b || notAfter b a) = true := by
  simp only [notAfter, Bool.or_eq_true, Bool.and_eq_true, decide_eq_true_eq, beq_iff_eq]
  omega

/-- A diagnostic is put between sorted ones: it may not stand before those in front of it, and it
may stand before those behind it. -/
theorem exists_sort_cons (d : Diagnostic) (ds : List Diagnostic) :
    ∃ front back, sort (d :: ds) = front ++ d :: back ∧ sort ds = front ++ back ∧
      (∀ e ∈ front, notAfter d e = false) ∧ ∀ e ∈ back, notAfter d e = true := by
  obtain ⟨front, back, hcons, hsplit, hfront⟩ :=
    List.mergeSort_cons notAfter_trans notAfter_total d ds
  have hsorted := List.pairwise_mergeSort notAfter_trans notAfter_total (d :: ds)
  rw [hcons] at hsorted
  have hback := (List.pairwise_cons.1 (List.pairwise_append.1 hsorted).2.1).1
  exact ⟨front, back, hcons, hsplit, fun e he => by simpa using hfront e he, hback⟩

theorem sort_cons (d : Diagnostic) (ds : List Diagnostic) :
    sort (d :: ds) =
      (sort ds).filter (fun e => !notAfter d e) ++ d :: (sort ds).filter (notAfter d) := by
  obtain ⟨front, back, hcons, hsplit, hfront, hback⟩ := exists_sort_cons d ds
  have hearly : (front ++ back).filter (fun e => !notAfter d e) = front := by
    rw [List.filter_append, List.filter_eq_self.2 (by simpa using hfront),
      List.filter_eq_nil_iff.2 (by simpa using hback), List.append_nil]
  have hlate : (front ++ back).filter (notAfter d) = back := by
    rw [List.filter_append, List.filter_eq_self.2 hback,
      List.filter_eq_nil_iff.2 (by simpa using hfront), List.nil_append]
  rw [hcons, hsplit, hearly, hlate]

/-- It does not matter whether diagnostics are left out before the sorting or after it. -/
theorem filter_sort (keep : Diagnostic → Bool) (ds : List Diagnostic) :
    (sort ds).filter keep = sort (ds.filter keep) := by
  induction ds with
  | nil => simp [sort]
  | cons d ds ih =>
    by_cases hd : keep d = true
    · have hswap (p : Diagnostic → Bool) :
          ((sort ds).filter p).filter keep = (sort (ds.filter keep)).filter p := by
        rw [← ih, List.filter_filter, List.filter_filter]
        simp only [Bool.and_comm]
      rw [sort_cons, List.filter_append, hswap, List.filter_cons_of_pos hd, hswap,
        List.filter_cons_of_pos hd, sort_cons]
    · obtain ⟨front, back, hcons, hsplit, -, -⟩ := exists_sort_cons d ds
      rw [hcons, List.filter_append, List.filter_cons_of_neg hd, ← List.filter_append, ← hsplit,
        ih, List.filter_cons_of_neg hd]

/-- Diagnostics that may all stand before one another keep their order. -/
theorem filter_sort_of_notAfter {keep : Diagnostic → Bool}
    (h : ∀ a b, keep a = true → keep b = true → notAfter a b = true) (ds : List Diagnostic) :
    (sort ds).filter keep = ds.filter keep := by
  rw [filter_sort]
  apply List.mergeSort_of_pairwise
  apply List.pairwise_of_forall_mem_list
  intro a ha b hb
  exact h a b (List.mem_filter.1 ha).2 (List.mem_filter.1 hb).2

/-- A change that keeps the places keeps the order. -/
theorem map_sort {f : Diagnostic → Diagnostic} (hf : ∀ d, (f d).span = d.span)
    (ds : List Diagnostic) : (sort ds).map f = sort (ds.map f) := by
  have hline (d : Diagnostic) : (f d).sortLine = d.sortLine := by rw [sortLine, sortLine, hf]
  have hcolumn (d : Diagnostic) : (f d).sortColumn = d.sortColumn := by
    rw [sortColumn, sortColumn, hf]
  apply List.map_mergeSort
  intro a _ b _
  rw [notAfter, notAfter, hline, hline, hcolumn, hcolumn]

end DocSignature.Diagnostic

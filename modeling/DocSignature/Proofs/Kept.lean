import DocSignature.Header.Find
import DocSignature.Proofs.HeadShape
import DocSignature.Proofs.Pieces

/-!
# Which headers are kept

Every recognised header is a stretch of the source. Of all of them, in the order of their starts, a
header is kept unless it starts in a comment or literal, or inside a header that was kept before it.
-/

namespace DocSignature

deriving instance DecidableEq for Header.Param

deriving instance DecidableEq for Header

theorem ok_of_toOption {ε α : Type} {x : Except ε α} {a : α} (h : x.toOption = some a) :
    x = .ok a := by
  cases x with
  | error e => cases h
  | ok b => cases h; rfl

namespace Header

/-! ## Recognised headers are stretches of the source -/

theorem untilEnd_le (marks cs : List Char) : untilEnd marks cs ≤ cs.length := by
  induction cs with
  | nil => simp [untilEnd]
  | cons c cs ih =>
    simp only [untilEnd, List.length_cons]
    split <;> omega

theorem endHere?_eq_some {marks cs : List Char} {n : Nat} (h : endHere? marks cs = some n) :
    n = 0 ∧ endsBefore marks cs = true := by
  unfold endHere? at h
  split at h
  · cases h
    exact ⟨rfl, by assumption⟩
  · cases h

theorem length_trimLeft_le (cs : List Char) : (Text.trimLeft cs).length ≤ cs.length :=
  (List.dropWhile_sublist _).length_le

/-- What belongs to a header behind its closing parenthesis is part of the text. -/
theorem tail?_le {language : Language} {cs : List Char} {n : Nat}
    (h : tail? language cs = some n) : n ≤ cs.length := by
  cases language with
  | python =>
    simp only [tail?] at h
    split at h
    · rename_i rest hrest
      cases h
      have h1 := length_trimLeft_le cs
      have h2 := length_trimLeft_le rest
      have h3 := untilEnd_le ['{', ':'] (Text.trimLeft rest)
      rw [hrest] at h1
      simp only [List.length_cons] at h1
      omega
    · have := endHere?_eq_some h
      omega
  | go =>
    simp only [tail?] at h
    split at h
    · rename_i c rest hblanks hdrop
      split at h
      · have := endHere?_eq_some h
        omega
      · cases h
        have h1 := untilEnd_le ['{'] rest
        have h2 := congrArg List.length hdrop
        simp only [List.length_drop, List.length_cons] at h2
        omega
    · have := endHere?_eq_some h
      omega
  | java | csharp => simp [tail?] at h; omega

theorem outline?_bounds {cs : List Char} {find : Text.Recogniser Head}
    {tail : List Char → Option Nat} (hf : Heads find)
    (ht : ∀ xs n, tail xs = some n → n ≤ xs.length) {o : Outline} (ho : o ∈ outlines cs find tail) :
    o.start < o.stop ∧ o.stop ≤ cs.length := by
  obtain ⟨hit, hhit, hoi⟩ := List.mem_filterMap.1 ho
  have hb := Text.hits_bounds hf.sized hhit
  simp only [outline?] at hoi
  split at hoi
  · cases hoi
  · rename_i close hclose
    obtain ⟨size, hsize, rfl⟩ := Option.map_eq_some_iff.1 hoi
    have hc := closingParen?_bounds hclose
    have hs := ht _ _ hsize
    rw [List.length_drop] at hs
    simp only
    omega

theorem outline?_start {cs : List Char} {tail : List Char → Option Nat} {hit : Text.Hit Head}
    {o : Outline} (h : outline? cs tail hit = some o) : o.start = hit.start := by
  simp only [outline?] at h
  split at h
  · cases h
  · obtain ⟨size, -, rfl⟩ := Option.map_eq_some_iff.1 h
    rfl

/-- The headers that are read from outlines, one from each. -/
theorem mem_readTargets_iff {language : Language} (os : List Outline) {headers : List Header}
    (h : readTargets language os = .ok headers) (k : Header) :
    k ∈ headers ↔ ∃ o ∈ os, ∃ params,
      targetParams language (splitParams true o.params) = .ok params ∧ k = ofOutline o params := by
  induction os generalizing headers with
  | nil => cases h; simp
  | cons o os ih =>
    simp only [readTargets] at h
    split at h
    · rename_i params rest hparams hrest
      cases h
      simp only [List.mem_cons, exists_eq_or_imp, ih hrest, hparams, Except.ok.injEq,
        exists_eq_left']
    · cases h
    · cases h

/-- A header that is no empty stretch of a text of the given length. -/
def Within (length : Nat) (k : Header) : Prop :=
  k.start < k.stop ∧ k.stop ≤ length

theorem within_sourceHeaders {cs : List Char} {k : Header} (hk : k ∈ sourceHeaders cs) :
    Within cs.length k := by
  obtain ⟨o, ho, rfl⟩ := List.mem_map.1 hk
  exact outline?_bounds heads_source (by simp) ho

theorem within_targetHeaders {language : Language} {cs : List Char} {targets : List Header}
    (h : targetHeaders language cs = .ok targets) {k : Header} (hk : k ∈ targets) :
    Within cs.length k := by
  obtain ⟨o, ho, params, -, rfl⟩ := (mem_readTargets_iff _ h k).1 hk
  exact outline?_bounds (heads_target language) (fun _ _ => tail?_le) ho

/-- All recognised headers, those of the source language first. -/
def recognised (cs : List Char) (targets : List Header) : List Header :=
  sourceHeaders cs ++ targets

theorem candidates_eq_ok {language : Language} {cs : List Char} {found : List Header}
    (h : candidates language cs = .ok found) :
    ∃ targets, targetHeaders language cs = .ok targets ∧
      found.Perm (recognised cs targets) ∧ found.Pairwise fun a b => a.start ≤ b.start := by
  unfold candidates at h
  cases ht : targetHeaders language cs with
  | error e => rw [ht] at h; cases h
  | ok targets =>
    rw [ht] at h
    cases h
    refine ⟨targets, rfl, List.mergeSort_perm _ _, ?_⟩
    have hs := List.pairwise_mergeSort
      (fun (a b c : Header) (hab : decide (a.start ≤ b.start)) (hbc : decide (b.start ≤ c.start)) =>
        show decide (a.start ≤ c.start) by simp only [decide_eq_true_eq] at *; omega)
      (fun a b => by simp only [Bool.or_eq_true, decide_eq_true_eq]; omega) (recognised cs targets)
    exact hs.imp (by simp)

/-- What is found where the recognised headers are known. As they come in order, they stay so. -/
theorem find_of_recognised {language : Language} {cs : List Char} (sources targets : List Header)
    {kept : List Header} (hsources : sourceHeaders cs = sources)
    (htargets : targetHeaders language cs = .ok targets)
    (hstarts : ((sources ++ targets).map (·.start)).Pairwise (· ≤ ·))
    (hkept : keepFrom (Source.regions cs) 0 (sources ++ targets) = kept) :
    find language cs = .ok kept := by
  have hsorted : (sources ++ targets).mergeSort (fun a b => decide (a.start ≤ b.start)) =
      sources ++ targets :=
    List.mergeSort_of_pairwise ((List.pairwise_map.1 hstarts).imp fun h => decide_eq_true h)
  rw [find, candidates, htargets, hsources, ← hkept]
  exact congrArg (fun found => Except.ok (keepFrom (Source.regions cs) 0 found)) hsorted

/-! ## The greedy choice -/

section Keep
variable (regions : List Source.Region)

theorem keepFrom_sublist (hs : List Header) :
    ∀ cursor, (keepFrom regions cursor hs).Sublist hs := by
  induction hs with
  | nil => intro cursor; exact List.Sublist.refl _
  | cons h hs ih =>
    intro cursor
    simp only [keepFrom]
    split
    · exact (ih cursor).cons h
    · exact (ih h.stop).cons_cons h

theorem keepFrom_start {hs : List Header} (hw : ∀ h ∈ hs, h.start < h.stop) :
    ∀ cursor, ∀ k ∈ keepFrom regions cursor hs,
      cursor ≤ k.start ∧ Source.covers regions k.start = false := by
  induction hs with
  | nil => intro cursor k hk; simp [keepFrom] at hk
  | cons h hs ih =>
    intro cursor k hk
    have ih := ih fun h' hh' => hw h' (by simp [hh'])
    simp only [keepFrom] at hk
    split at hk
    · exact ih cursor k hk
    · rename_i hn
      simp only [Bool.or_eq_true, decide_eq_true_eq, not_or, Bool.not_eq_true] at hn
      rcases List.mem_cons.1 hk with rfl | hk
      · exact ⟨by omega, hn.2⟩
      · have := ih h.stop k hk
        have := hw h (by simp)
        exact ⟨by omega, by tauto⟩

/-- Kept headers follow one another. -/
theorem keepFrom_pairwise {hs : List Header} (hw : ∀ h ∈ hs, h.start < h.stop) :
    ∀ cursor, (keepFrom regions cursor hs).Pairwise fun a b => a.stop ≤ b.start := by
  induction hs with
  | nil => intro cursor; simp [keepFrom]
  | cons h hs ih =>
    intro cursor
    have hw' : ∀ h' ∈ hs, h'.start < h'.stop := fun h' hh' => hw h' (by simp [hh'])
    simp only [keepFrom]
    split
    · exact ih hw' cursor
    · exact List.pairwise_cons.2
        ⟨fun k hk => (keepFrom_start regions hw' h.stop k hk).1, ih hw' h.stop⟩

/-- A header that is not kept starts before the cursor, in a region, or in a kept header that starts
no later. -/
theorem keepFrom_dropped {hs : List Header} (hsort : hs.Pairwise fun a b => a.start ≤ b.start) :
    ∀ cursor, ∀ h ∈ hs, h ∈ keepFrom regions cursor hs ∨ h.start < cursor ∨
      Source.covers regions h.start = true ∨
      ∃ k ∈ keepFrom regions cursor hs, k.start ≤ h.start ∧ h.start < k.stop := by
  induction hs with
  | nil => intro cursor h hh; cases hh
  | cons first hs ih =>
    intro cursor h hh
    obtain ⟨hle, hsort'⟩ := List.pairwise_cons.1 hsort
    simp only [keepFrom]
    split
    · rename_i hn
      simp only [Bool.or_eq_true, decide_eq_true_eq] at hn
      rcases List.mem_cons.1 hh with rfl | hh
      · exact .inr (hn.imp id .inl)
      · exact ih hsort' cursor h hh
    · rcases List.mem_cons.1 hh with rfl | hh
      · exact .inl (by simp)
      · rcases ih hsort' first.stop h hh with hk | hlt | hc | ⟨k, hk, hin⟩
        · exact .inl (by simp [hk])
        · exact .inr (.inr (.inr ⟨first, by simp, hle h hh, hlt⟩))
        · exact .inr (.inr (.inl hc))
        · exact .inr (.inr (.inr ⟨k, by simp [hk], hin⟩))

/-- Where each header is one of some that lie apart, or starts in a region or inside of one of
these, only these are kept. -/
theorem keepFrom_outermost {outermost : Header → Prop}
    (huncovered : ∀ k, outermost k → Source.covers regions k.start = false)
    (hapart : ∀ a b, outermost a → outermost b → a.start ≤ b.start →
      a.stop ≤ b.start ∨ a.stop = b.stop)
    {hs : List Header} (hsort : hs.Pairwise fun a b => a.start ≤ b.start) :
    ∀ cursor, (∀ k ∈ hs, outermost k → cursor ≤ k.start ∨ k.stop ≤ cursor) →
      (∀ h ∈ hs, outermost h ∨ Source.covers regions h.start = true ∨ h.start < cursor ∨
        ∃ k ∈ hs, outermost k ∧ k.start < h.start ∧ h.start < k.stop) →
      ∀ k ∈ keepFrom regions cursor hs, outermost k := by
  induction hs with
  | nil => intro cursor _ _ k hk; simp [keepFrom] at hk
  | cons first hs ih =>
    intro cursor hcursor hall
    obtain ⟨hle, hsort'⟩ := List.pairwise_cons.1 hsort
    simp only [keepFrom]
    split
    · rename_i hdrop
      simp only [Bool.or_eq_true, decide_eq_true_eq] at hdrop
      refine ih hsort' cursor (fun k hk => hcursor k (by simp [hk])) fun h hh => ?_
      rcases hall h (by simp [hh]) with hout | hcov | hlt | ⟨k, hk, hout, hlo, hhi⟩
      · exact .inl hout
      · exact .inr (.inl hcov)
      · exact .inr (.inr (.inl hlt))
      · rcases List.mem_cons.1 hk with rfl | hk
        · -- The header that was passed over starts before the cursor, so it stops there, too.
          have huncov := huncovered k hout
          have hstart : k.start < cursor := hdrop.resolve_right (by simp [huncov])
          have := (hcursor k (by simp) hout).resolve_left (by omega)
          exact .inr (.inr (.inl (by omega)))
        · exact .inr (.inr (.inr ⟨k, hk, hout, hlo, hhi⟩))
    · rename_i hkeep
      simp only [Bool.or_eq_true, decide_eq_true_eq, not_or, Bool.not_eq_true] at hkeep
      have hfirst : outermost first := by
        rcases hall first (by simp) with hout | hcov | hlt | ⟨k, hk, hout, hlo, hhi⟩
        · exact hout
        · rw [hkeep.2] at hcov
          cases hcov
        · omega
        · rcases List.mem_cons.1 hk with rfl | hk
          · omega
          · have := hle k hk
            omega
      refine List.forall_mem_cons.2 ⟨hfirst, ih hsort' first.stop ?_ fun h hh => ?_⟩
      · intro k hk hout
        exact (hapart first k hfirst hout (hle k hk)).imp id fun heq => heq.ge
      · rcases hall h (by simp [hh]) with hout | hcov | hlt | ⟨k, hk, hout, hlo, hhi⟩
        · exact .inl hout
        · exact .inr (.inl hcov)
        · have := hle h hh
          omega
        · rcases List.mem_cons.1 hk with rfl | hk
          · exact .inr (.inr (.inl hhi))
          · exact .inr (.inr (.inr ⟨k, hk, hout, hlo, hhi⟩))

end Keep

end Header

end DocSignature

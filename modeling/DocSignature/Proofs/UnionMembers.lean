import DocSignature.Proofs.TypeShape

/-!
# The members of a union

Only the distinct members of a union count, in the order in which each of them occurs first. Where a
language has no unions, not even the order counts: a single distinct member stands for itself, and
several are spelled as the stand-in.
-/

namespace DocSignature.NamingPolicy

/-! ## Distinct members -/

theorem distinctFrom_eq_eraseDups (xs : List String) :
    ∀ seen, distinctFrom seen xs = (xs.filter (· ∉ seen)).eraseDups := by
  induction xs with
  | nil => intro seen; rfl
  | cons x xs ih =>
    intro seen
    rw [distinctFrom]
    split
    · rename_i hx
      rw [ih, List.filter_cons_of_neg (by simpa using hx)]
    · rename_i hx
      rw [ih, List.filter_cons_of_pos (by simpa using hx), List.eraseDups_cons, List.filter_filter]
      congr 3
      funext y
      simp [beq_eq_decide]

theorem distinct_eq_eraseDups (xs : List String) : distinct xs = xs.eraseDups := by
  rw [distinct, distinctFrom_eq_eraseDups]
  simp

theorem mem_distinctFrom_iff {seen xs : List String} {x : String} :
    x ∈ distinctFrom seen xs ↔ x ∈ xs ∧ x ∉ seen := by
  rw [distinctFrom_eq_eraseDups, List.mem_eraseDups]
  simp

/-- The members that are kept come in the order in which they occur first in the whole list, of
which `done` has been gone through. -/
theorem distinctFrom_pairwise (xs : List String) :
    ∀ seen done, (∀ x, x ∈ seen ↔ x ∈ done) →
      (distinctFrom seen xs).Pairwise fun a b => (done ++ xs).idxOf a < (done ++ xs).idxOf b := by
  induction xs with
  | nil => intro seen done _; exact List.Pairwise.nil
  | cons x xs ih =>
    intro seen done hseen
    have hsplit : done ++ x :: xs = done ++ [x] ++ xs := by simp
    rw [distinctFrom, hsplit]
    split
    · rename_i hx
      have hdone : x ∈ done := (hseen x).1 hx
      refine ih seen (done ++ [x]) fun y => ?_
      rw [hseen, List.mem_append, List.mem_singleton]
      exact ⟨.inl, fun h => h.elim id fun h => h ▸ hdone⟩
    · rename_i hx
      have hdone : x ∉ done := fun h => hx ((hseen x).2 h)
      refine List.pairwise_cons.2 ⟨fun b hb => ?_, ih (x :: seen) (done ++ [x]) fun y => ?_⟩
      · -- A member that is kept later does not occur up to `x`.
        obtain ⟨-, hnot⟩ := mem_distinctFrom_iff.1 hb
        have hb : b ∉ done ++ [x] := by
          rw [List.mem_cons, hseen] at hnot
          simpa [or_comm] using hnot
        rw [List.idxOf_append_of_notMem hb, List.append_assoc, List.idxOf_append_of_notMem hdone]
        simp
        omega
      · rw [List.mem_cons, hseen, List.mem_append, List.mem_singleton, or_comm]

/-- Holds of the members of a list, each once, in the order of their first occurrence. -/
structure FirstOccurrences (members several : List String) : Prop where
  mem_iff : ∀ x, x ∈ several ↔ x ∈ members
  nodup : several.Nodup
  ordered : several.Pairwise fun a b => members.idxOf a < members.idxOf b

theorem firstOccurrences_eraseDups (members : List String) :
    FirstOccurrences members members.eraseDups := by
  have hordered := distinctFrom_pairwise members [] [] fun _ => Iff.rfl
  rw [← distinct, distinct_eq_eraseDups, List.nil_append] at hordered
  refine ⟨fun x => List.mem_eraseDups, hordered.imp fun hlt heq => ?_, hordered⟩
  rw [heq] at hlt
  exact Nat.lt_irrefl _ hlt

theorem eraseDups_of_nodup {members : List String} (h : members.Nodup) :
    members.eraseDups = members := by
  induction members with
  | nil => rfl
  | cons x xs ih =>
    obtain ⟨hx, hxs⟩ := List.nodup_cons.1 h
    have hfilter : xs.filter (fun y => !y == x) = xs := by
      apply List.filter_eq_self.2
      intro y hy
      simpa using fun heq : y = x => hx (heq ▸ hy)
    rw [List.eraseDups_cons, hfilter, ih hxs]

theorem exists_eraseDups_cons {members : List String} (h : members ≠ []) :
    ∃ first rest, members.eraseDups = first :: rest := by
  obtain ⟨x, xs, rfl⟩ := List.exists_cons_of_ne_nil h
  exact ⟨_, _, List.eraseDups_cons⟩

/-- There is a single distinct member exactly when all members are the same. -/
theorem eraseDups_eq_singleton_iff {members : List String} {member : String} :
    members.eraseDups = [member] ↔ members ≠ [] ∧ ∀ x ∈ members, x = member := by
  have hfirst := firstOccurrences_eraseDups members
  constructor
  · intro h
    rw [h] at hfirst
    refine ⟨?_, fun x hx => List.mem_singleton.1 ((hfirst.mem_iff x).2 hx)⟩
    rintro rfl
    cases h
  · rintro ⟨hne, hall⟩
    obtain ⟨first, rest, hcons⟩ := exists_eraseDups_cons hne
    rw [hcons] at hfirst ⊢
    have hmember (x : String) (hx : x ∈ first :: rest) : x = member :=
      hall x ((hfirst.mem_iff x).1 hx)
    have hrest : rest = [] := by
      apply List.eq_nil_iff_forall_not_mem.2
      intro x hx
      apply (List.nodup_cons.1 hfirst.nodup).1
      rw [hmember first (by simp), ← hmember x (by simp [hx])]
      exact hx
    rw [hrest, hmember first (by simp)]

/-! ## The spelling of a union -/

theorem union_of_single (p : NamingPolicy) {members : List String} {member : String}
    (h : members.eraseDups = [member]) : p.union members = member := by
  rw [union, distinct_eq_eraseDups, h]

theorem union_of_several (p : NamingPolicy) {members : List String}
    (h : ∀ member, members.eraseDups ≠ [member]) :
    p.union members =
      match p.unionTemplate with
      | none => p.fallback
      | some template => template.fill (p.unionSeparator.intercalate members.eraseDups) := by
  rw [union, distinct_eq_eraseDups]
  split
  · rename_i member hsingle
    exact absurd hsingle (h member)
  · rfl

/-- Later repetitions do not count. -/
theorem union_eraseDups (p : NamingPolicy) (members : List String) :
    p.union members.eraseDups = p.union members := by
  rw [union, union, distinct_eq_eraseDups, distinct_eq_eraseDups,
    eraseDups_of_nodup (firstOccurrences_eraseDups members).nodup]

/-- Without a shape for unions only the set of the members counts. -/
theorem union_eq_of_mem_iff {p : NamingPolicy} (h : p.unionTemplate = none)
    {members others : List String} (hmem : ∀ x, x ∈ members ↔ x ∈ others) :
    p.union members = p.union others := by
  have hsingle (member : String) :
      members.eraseDups = [member] ↔ others.eraseDups = [member] := by
    rw [eraseDups_eq_singleton_iff, eraseDups_eq_singleton_iff]
    simp only [ne_eq, List.eq_nil_iff_forall_not_mem, hmem]
  by_cases hone : ∃ member, members.eraseDups = [member]
  · obtain ⟨member, hmember⟩ := hone
    rw [p.union_of_single hmember, p.union_of_single ((hsingle member).1 hmember)]
  · have hseveral := not_exists.1 hone
    rw [p.union_of_several hseveral,
      p.union_of_several fun m hm => hseveral m ((hsingle m).2 hm), h]

theorem fill_around (before after argument : String) :
    (Template.around before after).fill argument = before ++ argument ++ after := by
  apply String.toList_inj.1
  rw [TypeText.toList_fill_around, String.toList_append, String.toList_append]

/-- A union in Python. -/
theorem union_python (typeMap : Dictionary (Option String)) {members : List String}
    (h : ∀ member, members.eraseDups ≠ [member]) :
    (Language.python.policyWith typeMap).union members =
      "typing.Union[" ++ ", ".intercalate members.eraseDups ++ "]" := by
  rw [union_of_several _ h]
  exact fill_around ..

/-- A union is spelled from its distinct members alone: later repetitions do not count, and without
a shape for unions the order does not, either. In Python a single distinct member stands for itself,
and several are put together in the order of their first occurrence. -/
theorem union_of_distinct_members (p : NamingPolicy) (typeMap : Dictionary (Option String))
    (members : List String) (hne : members ≠ []) :
    p.union members = p.union members.eraseDups ∧
    (p.unionTemplate = none → ∀ others, members.Perm others → p.union members = p.union others) ∧
    FirstOccurrences members members.eraseDups ∧
    ((∃ member, members.eraseDups = [member] ∧
        (Language.python.policyWith typeMap).union members = member) ∨
      (2 ≤ members.eraseDups.length ∧
        (Language.python.policyWith typeMap).union members =
          "typing.Union[" ++ ", ".intercalate members.eraseDups ++ "]")) := by
  refine ⟨(p.union_eraseDups members).symm,
    fun h others hperm => union_eq_of_mem_iff h fun x => hperm.mem_iff,
    firstOccurrences_eraseDups members, ?_⟩
  obtain ⟨first, rest, hcons⟩ := exists_eraseDups_cons hne
  cases rest with
  | nil => exact .inl ⟨first, hcons, union_of_single _ hcons⟩
  | cons second rest =>
    refine .inr ⟨?_, union_python typeMap fun member => ?_⟩
    · rw [hcons]
      exact Nat.le_add_left _ _
    · rw [hcons]
      simp

/-- Two members, one of them three times, in a language without unions and in one with them. -/
theorem union_of_repeated_members :
    (["str", "int", "str", "str"] ≠ [] ∧ Language.go.policy.unionTemplate = none ∧
      ["str", "int", "str", "str"].Perm ["int", "str", "str", "str"]) ∧
    Language.go.policy.union ["str", "int", "str", "str"] =
      Language.go.policy.union ["int", "str", "str", "str"] ∧
    (Language.python.policyWith []).union ["str", "int", "str", "str"] =
      "typing.Union[str, int]" := by
  have h := union_of_distinct_members Language.go.policy [] ["str", "int", "str", "str"] (by simp)
  have hperm : ["str", "int", "str", "str"].Perm ["int", "str", "str", "str"] := .swap ..
  have hdistinct : ["str", "int", "str", "str"].eraseDups = ["str", "int"] := by decide +kernel
  refine ⟨⟨by simp, rfl, hperm⟩, h.2.1 rfl _ hperm, ?_⟩
  rcases h.2.2.2 with ⟨member, hmember, -⟩ | ⟨-, hunion⟩
  · rw [hdistinct] at hmember
    cases hmember
  · rw [hunion, hdistinct]
    decide +kernel

end DocSignature.NamingPolicy

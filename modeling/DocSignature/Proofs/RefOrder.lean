import DocSignature.Proofs.PlaceOrder
import DocSignature.Proofs.TagPlace

/-!
# The names of a type in order

A type has one name for each name and each star of its text. The reader puts a name behind all those
that it has read, wherever in the type it ends up, so the places of the names come in order. Counted
from the start of the text, each is where the name is written.
-/

namespace DocSignature.Loc

/-- A place in a fragment that starts at `base`, and where it is in the text around the fragment:
moved down by the lines in front of `base`, and to the right by the columns in front of `base` on
the first line of the fragment only. -/
structure Moved (base inside outside : Loc) : Prop where
  line : (inside.line : Int) = outside.line - (base.line - 1)
  column : (inside.column : Int) =
    outside.column - if inside.line = 1 then (base.column : Int) - 1 else 0

theorem moved_within (base : Loc) {loc : Loc} (h : 1 ≤ loc.line ∧ 1 ≤ loc.column) :
    Moved base loc (base.within loc) := by
  obtain ⟨hline, hcolumn⟩ := h
  unfold within
  split
  · have hone : loc.line = 1 := by omega
    constructor
    · simp only [hone]
      omega
    · simp only [hone, if_true]
      omega
  · have hlater : loc.line ≠ 1 := by omega
    constructor
    · dsimp only
      omega
    · rw [if_neg hlater, Int.sub_zero]

end DocSignature.Loc

namespace DocSignature.TypeExpr

/-! ## The names in a state of the reader -/

/-- The names in terms that wait, in the order in which they are written. -/
def waitingRefs (waiting : List Term) : List TypeRef :=
  waiting.reverse.flatMap (·.expr.refs)

/-- The names in the term at hand. -/
def Mode.refs : Mode → List TypeRef
  | .operand => []
  | .operator term | .bracket term => term.expr.refs

/-- The names in a state, in the order in which they are written. -/
def State.refs (s : State) : List TypeRef :=
  (s.groups.reverse.flatMap fun g => waitingRefs g.2) ++ waitingRefs s.waiting ++ s.mode.refs

@[simp]
theorem waitingRefs_nil : waitingRefs [] = [] := rfl

@[simp]
theorem waitingRefs_cons (term : Term) (waiting : List Term) :
    waitingRefs (term :: waiting) = waitingRefs waiting ++ term.expr.refs := by
  simp [waitingRefs]

theorem refsOf_flatMap_spread (ts : List Term) :
    refsOf (ts.flatMap fun t => spread t.expr) = ts.flatMap (·.expr.refs) := by
  induction ts with
  | nil => rfl
  | cons t ts ih => rw [List.flatMap_cons, refsOf_append, refsOf_spread, ih, List.flatMap_cons]

/-- A finished union has the names of all its terms. -/
theorem refs_join (last : Term) (waiting : List Term) :
    (join last waiting).refs = waitingRefs waiting ++ last.expr.refs := by
  cases waiting with
  | nil => rfl
  | cons first waiting =>
    obtain ⟨start, hjoin⟩ := exists_join_eq last first waiting
    rw [hjoin, refs, refsOf_flatMap_spread, ← waitingRefs_cons, waitingRefs]

theorem loc_refOf (loc : Loc) (name : List Char) : (refOf loc name).loc = loc := by
  unfold refOf
  split <;> rfl

/-- A token adds a name behind the others, at its place, or it adds none. -/
theorem refs_shift (base : Loc) (s : State) (token : Grammar.Token) :
    (shift base s token).refs = s.refs ∨
      ∃ r : TypeRef, r.loc = base.within token.loc ∧
        (shift base s token).refs = s.refs ++ [r] := by
  obtain ⟨groups, waiting, mode⟩ := s
  simp only [shift]
  split
  · refine .inr ⟨_, loc_refOf _ token.text, ?_⟩
    simp [State.refs, Mode.refs, refs]
  · refine .inr ⟨⟨base.within token.loc, anyName, []⟩, rfl, ?_⟩
    simp [State.refs, Mode.refs, refs]
  · exact .inl (by simp [State.refs, Mode.refs])
  · exact .inl (by simp [State.refs, Mode.refs])
  · exact .inl rfl
  · -- What waited in front of the parenthesis comes in front of the closed group.
    split
    · exact .inl (by simp [State.refs, Mode.refs, refs_join])
    · exact .inl rfl
  · exact .inl (by simp [State.refs, Mode.refs, refs])
  · exact .inl rfl

theorem refs_of_result {s : State} {e : TypeExpr} (h : result s = some e) : e.refs = s.refs := by
  unfold result at h
  split at h
  · rename_i term hmode hgroups
    cases h
    simp [State.refs, Mode.refs, refs_join, hmode, hgroups]
  · cases h

/-! ## Places in order -/

/-- The names in a state are placed one behind the other, and in front of `stop`. -/
structure State.InOrder (s : State) (stop : Loc) : Prop where
  pairwise : s.refs.Pairwise fun a b => a.loc.Before b.loc
  before : ∀ r ∈ s.refs, r.loc.Before stop

theorem State.InOrder.mono {s : State} {stop stop' : Loc} (h : s.InOrder stop)
    (hle : stop.Before stop') : s.InOrder stop' :=
  ⟨h.pairwise, fun r hr => (h.before r hr).trans hle⟩

/-- A token at the place where the names have to stop keeps them in order. -/
theorem State.InOrder.shift {base : Loc} {s : State} {token : Grammar.Token}
    (h : s.InOrder (base.within token.loc)) {stop : Loc}
    (hstop : (base.within token.loc).Before stop) : (shift base s token).InOrder stop := by
  rcases refs_shift base s token with hsame | ⟨r, hloc, hadded⟩
  · have hmono := h.mono hstop
    exact ⟨hsame ▸ hmono.pairwise, hsame ▸ hmono.before⟩
  · refine ⟨?_, ?_⟩
    · rw [hadded, List.pairwise_append]
      refine ⟨h.pairwise, List.pairwise_singleton _ r, fun a ha b hb => ?_⟩
      rw [List.mem_singleton.1 hb, hloc]
      exact h.before a ha
    · rw [hadded]
      intro a ha
      rcases List.mem_append.1 ha with ha | ha
      · exact (h.before a ha).trans hstop
      · rw [List.mem_singleton.1 ha, hloc]
        exact hstop

/-- The names in a type that was read are placed one behind the other. -/
theorem refs_pairwise_of_read {base : Loc} {cs : List Char} {e : TypeExpr}
    (h : read base cs = .ok e) : e.refs.Pairwise fun a b => a.loc.Before b.loc := by
  have hnext (front : List Char) (c : Char) :
      (front.foldl Loc.next base).Before ((front ++ [c]).foldl Loc.next base) := by
    rw [List.foldl_append]
    exact Loc.before_next _ c
  unfold read at h
  split at h
  · cases h
  · split at h
    · rename_i e' hrun
      cases h
      obtain ⟨s, hs, hresult⟩ := (machine base).run_walk
        (fun front s => s.InOrder (front.foldl Loc.next base))
        (fun front s c hs => hs.mono (hnext front c))
        (fun front s c token hs _ hloc => by
          have hplace : base.within token.loc = front.foldl Loc.next base := by
            rw [hloc, Loc.within_foldl_next]
          exact State.InOrder.shift (hplace ▸ hs) (hplace ▸ hnext front c))
        ⟨List.Pairwise.nil, by simp [State.refs, Mode.refs]⟩ hrun
      rw [refs_of_result hresult]
      exact hs.pairwise
    · cases h

/-! ## One name for each name and star -/

/-- What a lexeme adds to the names of a type: a name itself, and a star the name `any`. -/
def Lexeme.leaf? : Lexeme → Option (List Char)
  | .name n => some n.text
  | .mark m => if m = .star then some anyName.toList else none

theorem leaves_type {s : Category} (d : Derivation s) :
    d.type.refs.map (·.text.toList) = d.lexemes.filterMap Lexeme.leaf? := by
  induction d with
  | name n =>
    have htext := toList_text_refOf .first n
    rw [refOf_text] at htext
    simp [Derivation.type, Derivation.lexemes, refs, Lexeme.leaf?, htext]
  | star => rfl
  | group inner ih =>
    rw [Derivation.type, ih, Derivation.lexemes]
    simp [Lexeme.leaf?]
  | atom a ih => exact ih
  | array t ih =>
    rw [Derivation.type, refs, ih, Derivation.lexemes]
    simp [Lexeme.leaf?]
  | term t ih => exact ih
  | union t rest iht ih =>
    rw [Derivation.type, refs, refsOf_append, refsOf_spread, refsOf_spread, List.map_append, iht,
      ih, Derivation.lexemes, List.filterMap_append]
    simp [Lexeme.leaf?]

mutual

/-- The names of a type do not depend on places. -/
theorem leaves_unplaced :
    ∀ e : TypeExpr, e.unplaced.refs.map (·.text) = e.refs.map (·.text)
  | .ref _ => rfl
  | .array _ element => leaves_unplaced element
  | .union _ members => leaves_unplacedAll members

theorem leaves_unplacedAll :
    ∀ es : List TypeExpr, (refsOf (unplacedAll es)).map (·.text) = (refsOf es).map (·.text)
  | [] => rfl
  | e :: es => by
    rw [unplacedAll, refsOf, refsOf, List.map_append, List.map_append, leaves_unplaced e,
      leaves_unplacedAll es]

end

/-- A type that was read has one name for each name and each star of its text. -/
theorem exists_lexed_of_read {base : Loc} {cs : List Char} {e : TypeExpr}
    (h : read base cs = .ok e) :
    ∃ ls, Lexed cs ls ∧ e.refs.map (·.text.toList) = ls.filterMap Lexeme.leaf? := by
  obtain ⟨d, hd, htype⟩ := exists_derivation_of_read h
  have hleaves := congrArg (List.map String.toList) (leaves_unplaced e)
  rw [htype, List.map_map, List.map_map] at hleaves
  exact ⟨d.lexemes, hd, hleaves.symm.trans (leaves_type d)⟩

/-! ## Names where they are written -/

/-- The names in a type that was read are those of its text, one for each name and each star. Their
places come in order, and at each of them, counted from the start of the text, the text goes on with
the name, or with a star for the name `any`. -/
theorem refs_point_at_tokens (base : Loc) (cs : List Char) (e : TypeExpr)
    (h : read base cs = .ok e) :
    (∃ ls, Lexed cs ls ∧ e.refs.map (·.text.toList) = ls.filterMap Lexeme.leaf?) ∧
    (e.refs.Pairwise fun a b => a.loc.Before b.loc) ∧
    ∀ r ∈ e.refs, ∃ place word, Loc.Moved base place r.loc ∧ Source.StandsAt cs place word ∧
      (word = r.text.toList ∨ r.text = anyName ∧ word = ['*']) := by
  refine ⟨exists_lexed_of_read h, refs_pairwise_of_read h, fun r hr => ?_⟩
  obtain ⟨front, word, hwritten⟩ := written_of_read h r hr
  refine ⟨front.foldl Loc.next .first, word, ?_, ?_, ?_⟩
  · have hloc : r.loc = front.foldl Loc.next base := hwritten.loc
    rw [hloc, ← Loc.within_foldl_next base front]
    exact Loc.moved_within base (Loc.one_le_foldl_next front .first (by decide))
  · obtain ⟨rest, hrest⟩ := hwritten.text
    exact Source.standsAt_iff.2 ⟨front, rest, by rw [← hrest, List.append_assoc], rfl⟩
  · have hspelled := hwritten.spelled
    unfold TypeRef.mention at hspelled
    split at hspelled
    · rename_i hany
      rcases List.mem_pair.1 hspelled with hword | hstar
      · exact .inl hword
      · exact .inr ⟨hany, hstar⟩
    · exact .inl (List.mem_singleton.1 hspelled)

/-- A union over two lines, with a star, in parentheses and in an array. -/
def brokenUnion : List Char := "( a.B |\n any)[]|(*)".toList

/-- Its three names, read at column 5 of line 7: the second one stands on the second line of the
text, where the columns are not moved. -/
theorem brokenUnion_points_at_tokens :
    ∃ e, read ⟨7, 5⟩ brokenUnion = .ok e ∧
      e.refs.map (fun r => (r.text, r.loc)) =
        [("a.B", ⟨7, 7⟩), ("any", ⟨8, 2⟩), ("any", ⟨8, 10⟩)] ∧
      (e.refs.Pairwise fun a b => a.loc.Before b.loc) ∧
      ∀ r ∈ e.refs, ∃ place word, Loc.Moved ⟨7, 5⟩ place r.loc ∧
        Source.StandsAt brokenUnion place word ∧
        (word = r.text.toList ∨ r.text = anyName ∧ word = ['*']) := by
  have hread : ((read ⟨7, 5⟩ brokenUnion).toOption.map fun e =>
      e.refs.map fun r => (r.text, r.loc)) =
        some [("a.B", ⟨7, 7⟩), ("any", ⟨8, 2⟩), ("any", ⟨8, 10⟩)] := by decide +kernel
  cases he : read ⟨7, 5⟩ brokenUnion with
  | error error =>
    rw [he] at hread
    cases hread
  | ok e =>
    rw [he] at hread
    obtain ⟨-, hpairwise, hpoints⟩ := refs_point_at_tokens ⟨7, 5⟩ brokenUnion e he
    exact ⟨e, rfl, Option.some.inj hread, hpairwise, hpoints⟩

end DocSignature.TypeExpr

import DocSignature.Proofs.Derivation

/-!
# Which texts are types

The reader of types reads exactly the texts whose lexemes have a derivation, and what it reads is
the type of that derivation. It goes through a text as lexemes are read into a derivation, with
types in the place of derivations.
-/

namespace DocSignature

/-! ## Tokens of a machine -/

namespace Grammar.Machine

variable {σ ρ : Type} (m : Machine σ ρ)

theorem runFrom_space {c : Char} (hc : isSpace c = true) (state : σ) (last loc : Loc)
    (cs : List Char) :
    m.runFrom state last loc 0 (c :: cs) = m.runFrom state last (loc.next c) 0 cs := by
  rw [runFrom, if_pos hc]

theorem runFrom_skip (state : σ) (last : Loc) (xs cs : List Char) :
    ∀ loc, m.runFrom state last loc xs.length (xs ++ cs) =
      m.runFrom state last (xs.foldl Loc.next loc) 0 cs := by
  induction xs with
  | nil => intro loc; rfl
  | cons x xs ih =>
    intro loc
    rw [List.length_cons, List.cons_append, runFrom, ih, List.foldl_cons]

/-- Behind an accepted token the machine goes on with the rest of the text. -/
theorem runFrom_token {state : σ} {terminal : Terminal} {text rest : List Char}
    (hfirst : firstOf? (m.accepts state) (text ++ rest) = some (terminal, text.length))
    (htext : ∃ c cs, text = c :: cs ∧ isSpace c = false) (last loc : Loc) :
    ∃ last' loc', m.runFrom state last loc 0 (text ++ rest) =
      m.runFrom (m.shift state ⟨terminal, text, loc⟩) last' loc' 0 rest := by
  have htake : (text ++ rest).take text.length = text := List.take_left
  obtain ⟨c, cs, rfl, hspace⟩ := htext
  rw [List.cons_append, List.length_cons] at hfirst htake
  rw [List.cons_append, runFrom, if_neg (by simp [hspace])]
  simp only [hfirst, htake, Nat.add_sub_cancel]
  rw [runFrom_skip]
  exact ⟨_, _, rfl⟩

end Grammar.Machine

namespace TypeExpr

open Grammar (Terminal Token isSpace)

/-! ## States and progress -/

/-- The term at hand is the type of a derivation. -/
def Mode.Agrees : Mode → Stage → Prop
  | .operand, .operand => True
  | .operator term, .operator t | .bracket term, .bracket t => term.expr.unplaced = t.type
  | _, _ => False

theorem Mode.Agrees.cases {mode : Mode} {stage : Stage} (h : mode.Agrees stage) :
    (mode = .operand ∧ stage = .operand) ∨
      (∃ term t, mode = .operator term ∧ stage = .operator t ∧ term.expr.unplaced = t.type) ∨
      ∃ term t, mode = .bracket term ∧ stage = .bracket t ∧ term.expr.unplaced = t.type := by
  cases mode with
  | operand =>
    cases stage with
    | operand => exact .inl ⟨rfl, rfl⟩
    | operator | bracket => exact h.elim
  | operator term =>
    cases stage with
    | operator t => exact .inr (.inl ⟨term, t, rfl, rfl, h⟩)
    | operand | bracket => exact h.elim
  | bracket term =>
    cases stage with
    | bracket t => exact .inr (.inr ⟨term, t, rfl, rfl, h⟩)
    | operand | operator => exact h.elim

/-- A state holds the types of the derivations that were read. -/
structure Agrees (s : State) (p : Progress) : Prop where
  groups : s.groups.map (fun g => g.2.map fun term => term.expr.unplaced) =
    p.groups.map fun waiting => waiting.map Derivation.type
  waiting : s.waiting.map (fun term => term.expr.unplaced) = p.waiting.map Derivation.type
  mode : s.mode.Agrees p.stage

theorem agrees_start : Agrees ⟨[], [], .operand⟩ Progress.start :=
  ⟨rfl, rfl, trivial⟩

/-- Several terms are joined into a union of what each of them adds. -/
theorem exists_join_eq (last first : Term) (waiting : List Term) :
    ∃ start, join last (first :: waiting) =
      .union start ((last :: first :: waiting).reverse.flatMap fun t => spread t.expr) := by
  unfold join
  split
  · rename_i head second rest heq
    exact ⟨head.start, by rw [heq]⟩
  · rename_i hother
    exfalso
    have hlength := congrArg List.length (List.reverse_reverse (last :: first :: waiting))
    cases hrev : (last :: first :: waiting).reverse with
    | nil => simp at hrev
    | cons head rest =>
      cases rest with
      | nil => simp [hrev] at hlength
      | cons second rest => exact hother head second rest hrev

theorem unplaced_join {last : Term} {t : Derivation .term} (hlast : last.expr.unplaced = t.type)
    {waiting : List Term} {derived : List (Derivation .term)}
    (hwaiting : waiting.map (fun term => term.expr.unplaced) = derived.map Derivation.type) :
    (join last waiting).unplaced = (Derivation.chain derived (.term t)).type := by
  cases waiting with
  | nil =>
    obtain rfl : derived = [] := List.map_eq_nil_iff.1 hwaiting.symm
    exact hlast
  | cons first waiting =>
    have hne : derived ≠ [] := by
      rintro rfl
      cases hwaiting
    obtain ⟨start, hjoin⟩ := exists_join_eq last first waiting
    -- What the terms add to the union is given by their types.
    have hspread : ((first :: waiting).reverse.flatMap fun t => spread t.expr).map unplaced =
        derived.reverse.flatMap fun t => spread t.type := by
      calc ((first :: waiting).reverse.flatMap fun t => spread t.expr).map unplaced
          = ((first :: waiting).map fun term => term.expr.unplaced).reverse.flatMap spread := by
            rw [← List.map_reverse, List.flatMap_map, List.map_flatMap]
            simp only [spread_unplaced]
        _ = (derived.map Derivation.type).reverse.flatMap spread := by rw [hwaiting]
        _ = derived.reverse.flatMap fun t => spread t.type := by
            rw [← List.map_reverse, List.flatMap_map]
    rw [hjoin, Derivation.type_chain hne, unplaced, unplacedAll_eq_map, List.reverse_cons,
      List.flatMap_append, List.map_append, hspread, Derivation.type, ← hlast, spread_unplaced]
    simp

/-! ## What a state accepts -/

section Accepts
variable {groups : List (Loc × List Term)} {waiting : List Term} {term : Term} {t : Terminal}

@[simp]
theorem mem_accepts_operand :
    t ∈ accepts ⟨groups, waiting, .operand⟩ ↔ t = .dottedName ∨ t = .star ∨ t = .leftParen := by
  simp [accepts]

@[simp]
theorem mem_accepts_operator :
    t ∈ accepts ⟨groups, waiting, .operator term⟩ ↔
      t = .bar ∨ t = .leftBracket ∨ (t = .rightParen ∧ groups ≠ []) := by
  cases groups <;> simp [accepts]

@[simp]
theorem mem_accepts_bracket :
    t ∈ accepts ⟨groups, waiting, .bracket term⟩ ↔ t = .rightBracket := by
  simp [accepts]

end Accepts

theorem isTerminal_of_mem_accepts {s : State} {t : Terminal} (h : t ∈ accepts s) :
    Lexeme.IsTerminal t := by
  have hmark (m : Mark) : Lexeme.IsTerminal m.terminal := .inr ⟨m, rfl⟩
  obtain ⟨groups, waiting, mode⟩ := s
  cases mode with
  | operand =>
    rcases mem_accepts_operand.1 h with rfl | rfl | rfl
    · exact .inl rfl
    · exact hmark .star
    · exact hmark .leftParen
  | operator term =>
    rcases mem_accepts_operator.1 h with rfl | rfl | ⟨rfl, -⟩
    · exact hmark .bar
    · exact hmark .leftBracket
    · exact hmark .rightParen
  | bracket term =>
    rw [mem_accepts_bracket.1 h]
    exact hmark .rightBracket

/-- A name is split at its dots. -/
theorem refOf_text (loc : Loc) (n : DottedName) :
    refOf loc n.text = ⟨loc, String.ofList n.base, n.members.map String.ofList⟩ := by
  simp [refOf, n.cut_text]

/-! ## One lexeme -/

/-- A state and a progress both refuse a lexeme, or both take it and agree behind it. -/
def InStep (base : Loc) (s : State) (p : Progress) (l : Lexeme) : Prop :=
  (l.terminal ∉ accepts s ∧ p.take l = none) ∨
    ∃ p', l.terminal ∈ accepts s ∧ p.take l = some p' ∧
      ∀ token : Token, token.terminal = l.terminal → token.text = l.text →
        Agrees (shift base s token) p'

section Step
variable (base : Loc) {groups : List (Loc × List Term)} {waiting : List Term}
  {derivedGroups : List (List (Derivation .term))} {derived : List (Derivation .term)}

theorem inStep_operand
    (h : Agrees ⟨groups, waiting, .operand⟩ ⟨derivedGroups, derived, .operand⟩) (l : Lexeme) :
    InStep base ⟨groups, waiting, .operand⟩ ⟨derivedGroups, derived, .operand⟩ l := by
  obtain ⟨hgroups, hwaiting, -⟩ := h
  cases l with
  | name n =>
    refine .inr ⟨_, by simp [Lexeme.terminal], rfl, ?_⟩
    intro token hterm htext
    simp only [shift, hterm, htext, Lexeme.terminal, Lexeme.text_name, refOf_text]
    exact ⟨hgroups, hwaiting, rfl⟩
  | mark m =>
    cases m with
    | star =>
      refine .inr ⟨_, by simp [Lexeme.terminal, Mark.terminal], rfl, ?_⟩
      intro token hterm _
      simp only [shift, hterm, Lexeme.terminal, Mark.terminal]
      exact ⟨hgroups, hwaiting, rfl⟩
    | leftParen =>
      refine .inr ⟨_, by simp [Lexeme.terminal, Mark.terminal], rfl, ?_⟩
      intro token hterm _
      simp only [shift, hterm, Lexeme.terminal, Mark.terminal]
      refine ⟨?_, rfl, trivial⟩
      simp only [List.map_cons, hgroups, hwaiting]
    | rightParen | leftBracket | rightBracket | bar =>
      exact .inl ⟨by simp [Lexeme.terminal, Mark.terminal], rfl⟩

variable {term : Term} {t : Derivation .term}

theorem inStep_operator
    (h : Agrees ⟨groups, waiting, .operator term⟩ ⟨derivedGroups, derived, .operator t⟩)
    (l : Lexeme) :
    InStep base ⟨groups, waiting, .operator term⟩ ⟨derivedGroups, derived, .operator t⟩ l := by
  obtain ⟨hgroups, hwaiting, hterm⟩ := h
  cases l with
  | name n => exact .inl ⟨by simp [Lexeme.terminal], rfl⟩
  | mark m =>
    cases m with
    | bar =>
      refine .inr ⟨_, by simp [Lexeme.terminal, Mark.terminal], rfl, ?_⟩
      intro token htoken _
      simp only [shift, htoken, Lexeme.terminal, Mark.terminal]
      exact ⟨hgroups, congrArg₂ List.cons hterm hwaiting, trivial⟩
    | leftBracket =>
      refine .inr ⟨_, by simp [Lexeme.terminal, Mark.terminal], rfl, ?_⟩
      intro token htoken _
      simp only [shift, htoken, Lexeme.terminal, Mark.terminal]
      exact ⟨hgroups, hwaiting, hterm⟩
    | rightParen =>
      -- Only an open parenthesis can be closed.
      cases groups with
      | nil =>
        obtain rfl : derivedGroups = [] := List.map_eq_nil_iff.1 hgroups.symm
        exact .inl ⟨by simp [Lexeme.terminal, Mark.terminal], rfl⟩
      | cons group groups =>
        obtain ⟨before, derivedGroups, rfl, hbefore, hrest⟩ :=
          List.map_eq_cons_iff.1 hgroups.symm
        refine .inr ⟨_, by simp [Lexeme.terminal, Mark.terminal], rfl, ?_⟩
        intro token htoken _
        simp only [shift, htoken, Lexeme.terminal, Mark.terminal]
        exact ⟨hrest.symm, hbefore.symm, unplaced_join hterm hwaiting⟩
    | star | leftParen | rightBracket =>
      exact .inl ⟨by simp [Lexeme.terminal, Mark.terminal], rfl⟩

theorem inStep_bracket
    (h : Agrees ⟨groups, waiting, .bracket term⟩ ⟨derivedGroups, derived, .bracket t⟩)
    (l : Lexeme) :
    InStep base ⟨groups, waiting, .bracket term⟩ ⟨derivedGroups, derived, .bracket t⟩ l := by
  obtain ⟨hgroups, hwaiting, hterm⟩ := h
  cases l with
  | name n => exact .inl ⟨by simp [Lexeme.terminal], rfl⟩
  | mark m =>
    cases m with
    | rightBracket =>
      refine .inr ⟨_, by simp [Lexeme.terminal, Mark.terminal], rfl, ?_⟩
      intro token htoken _
      simp only [shift, htoken, Lexeme.terminal, Mark.terminal]
      exact ⟨hgroups, hwaiting, congrArg (TypeExpr.array .first) hterm⟩
    | star | leftParen | rightParen | leftBracket | bar =>
      exact .inl ⟨by simp [Lexeme.terminal, Mark.terminal], rfl⟩

end Step

/-- A state and a progress that agree take the same lexemes, and agree behind them. -/
theorem Agrees.step (base : Loc) {s : State} {p : Progress} (h : Agrees s p) (l : Lexeme) :
    InStep base s p l := by
  obtain ⟨groups, waiting, mode⟩ := s
  obtain ⟨derivedGroups, derived, stage⟩ := p
  rcases h.mode.cases with ⟨rfl, rfl⟩ | ⟨term, t, rfl, rfl, -⟩ | ⟨term, t, rfl, rfl, -⟩
  · exact inStep_operand base h l
  · exact inStep_operator base h l
  · exact inStep_bracket base h l

/-- A state and a progress that agree end together, in a type and its derivation. -/
theorem Agrees.result_eq {s : State} {p : Progress} (h : Agrees s p) :
    (result s).map unplaced = p.finish.map Derivation.type := by
  obtain ⟨groups, waiting, mode⟩ := s
  obtain ⟨derivedGroups, derived, stage⟩ := p
  obtain ⟨hgroups, hwaiting, hmode⟩ := h
  rcases hmode.cases with ⟨rfl, rfl⟩ | ⟨term, t, rfl, rfl, hterm⟩ | ⟨term, t, rfl, rfl, -⟩
  · rfl
  · cases groups with
    | nil =>
      obtain rfl : derivedGroups = [] := List.map_eq_nil_iff.1 hgroups.symm
      exact congrArg some (unplaced_join hterm hwaiting)
    | cons group groups =>
      obtain ⟨before, derivedGroups, rfl, -, -⟩ := List.map_eq_cons_iff.1 hgroups.symm
      rfl
  · rfl

/-! ## Reading a text -/

/-- Behind a longest lexeme that is accepted, the machine goes on with the rest of the text. -/
theorem runFrom_lexeme (base : Loc) {s : State} {l : Lexeme} (hmem : l.terminal ∈ accepts s)
    {rest : List Char} (hl : l.Longest rest) (last loc : Loc) :
    ∃ last' loc', (machine base).runFrom s last loc 0 (l.text ++ rest) =
      (machine base).runFrom (shift base s ⟨l.terminal, l.text, loc⟩) last' loc' 0 rest := by
  have hfirst := Lexeme.firstOf?_text (fun t ht => isTerminal_of_mem_accepts (s := s) ht) hl
  rw [if_pos hmem] at hfirst
  obtain ⟨c, cs, htext, -⟩ := l.exists_text_eq
  have hspace : isSpace c = false := Lexeme.isSpace_eq_false (congrArg (· ++ rest) htext).symm
  exact (machine base).runFrom_token hfirst ⟨c, cs, htext, hspace⟩ last loc

/-- What the machine reads has lexemes with a derivation. -/
theorem exists_read_of_runFrom (base : Loc) (cs : List Char) :
    ∀ (s : State) (last loc : Loc) (skip : Nat) (p : Progress) (e : TypeExpr), Agrees s p →
      (machine base).runFrom s last loc skip cs = .ok e →
      ∃ ls d, Lexed (cs.drop skip) ls ∧ p.read ls = some d ∧ e.unplaced = d.type := by
  induction cs with
  | nil =>
    intro s last loc skip p e hagrees hrun
    rw [Grammar.Machine.runFrom] at hrun
    have hresult := hagrees.result_eq
    split at hrun
    · rename_i r hr
      cases hrun
      simp only [machine] at hr
      rw [hr, Option.map_some, eq_comm, Option.map_eq_some_iff] at hresult
      obtain ⟨d, hd, htype⟩ := hresult
      exact ⟨[], d, by rw [List.drop_nil]; exact .nil, hd, htype.symm⟩
    · cases hrun
  | cons c cs ih =>
    intro s last loc skip p e hagrees hrun
    cases skip with
    | succ skip => exact ih _ _ _ _ _ _ hagrees hrun
    | zero =>
      rw [Grammar.Machine.runFrom] at hrun
      split at hrun
      · rename_i hspace
        obtain ⟨ls, d, hls, hd⟩ := ih _ _ _ _ _ _ hagrees hrun
        exact ⟨ls, d, .space hspace hls, hd⟩
      · split at hrun
        · rename_i terminal size hfirst
          obtain ⟨hmem, hsize⟩ := Grammar.firstOf?_eq_some hfirst
          obtain ⟨l, rest, hcs, rfl, rfl, hl⟩ :=
            Lexeme.exists_of_size? (isTerminal_of_mem_accepts hmem) hsize
          rcases hagrees.step base l with ⟨hnot, -⟩ | ⟨p', -, htake, hshift⟩
          · exact absurd hmem hnot
          · have hagrees' := hshift ⟨l.terminal, (c :: cs).take l.text.length, loc⟩ rfl
              (by rw [hcs, List.take_left])
            obtain ⟨ls, d, hls, hd, htype⟩ := ih _ _ _ _ _ _ hagrees' hrun
            -- The machine goes on where the lexeme ends.
            have hrest : cs.drop (l.text.length - 1) = rest := by
              obtain ⟨x, xs, htext, -⟩ := l.exists_text_eq
              rw [htext, List.cons_append] at hcs
              obtain ⟨-, rfl⟩ := List.cons.inj hcs
              rw [htext, List.length_cons, Nat.add_sub_cancel, List.drop_left]
            rw [hrest] at hls
            refine ⟨l :: ls, d, ?_, by rw [Progress.read_cons htake, hd], htype⟩
            rw [List.drop_zero, hcs]
            exact .lexeme hl hls
        · cases hrun

/-- A text whose lexemes have a derivation is read by the machine. -/
theorem exists_runFrom_of_read (base : Loc) {cs : List Char} {ls : List Lexeme}
    (hls : Lexed cs ls) :
    ∀ (s : State) (last loc : Loc) (p : Progress) (d : Derivation .expr), Agrees s p →
      p.read ls = some d →
      ∃ e, (machine base).runFrom s last loc 0 cs = .ok e ∧ e.unplaced = d.type := by
  induction hls with
  | nil =>
    intro s last loc p d hagrees hd
    have hresult := hagrees.result_eq
    rw [show p.finish = some d from hd, Option.map_some, Option.map_eq_some_iff] at hresult
    obtain ⟨e, he, htype⟩ := hresult
    exact ⟨e, by simp [Grammar.Machine.runFrom, machine, he], htype⟩
  | space hc _ ih =>
    intro s last loc p d hagrees hd
    rw [Grammar.Machine.runFrom_space _ hc]
    exact ih _ _ _ _ _ hagrees hd
  | @lexeme l rest ls hl _ ih =>
    intro s last loc p d hagrees hd
    rcases hagrees.step base l with ⟨-, hnone⟩ | ⟨p', hmem, htake, hshift⟩
    · rw [Progress.read, Progress.takeAll, hnone] at hd
      cases hd
    · obtain ⟨last', loc', hrun⟩ := runFrom_lexeme base hmem hl last loc
      rw [hrun]
      rw [Progress.read_cons htake] at hd
      exact ih _ _ _ _ _ (hshift _ rfl rfl) hd

theorem Derivation.lexemes_ne_nil {s : Category} (d : Derivation s) : d.lexemes ≠ [] := by
  induction d <;> simp_all [Derivation.lexemes]

/-- A text that is read has a derivation, and it is read as the type of the derivation. -/
theorem exists_derivation_of_read {base : Loc} {cs : List Char} {e : TypeExpr}
    (h : read base cs = .ok e) :
    ∃ d : Derivation .expr, Lexed cs d.lexemes ∧ e.unplaced = d.type := by
  unfold read at h
  split at h
  · cases h
  · split at h
    · rename_i e' hrun
      cases h
      obtain ⟨ls, d, hls, hd, htype⟩ := exists_read_of_runFrom base cs _ _ _ _ _ _ agrees_start hrun
      rw [Progress.read_eq_some_iff] at hd
      exact ⟨d, by rw [hd]; exact hls, htype⟩
    · cases h

/-- A text with a derivation is read. -/
theorem exists_read_of_derivation (base : Loc) {cs : List Char} {d : Derivation .expr}
    (h : Lexed cs d.lexemes) : ∃ e, read base cs = .ok e ∧ e.unplaced = d.type := by
  obtain ⟨e, hrun, htype⟩ := exists_runFrom_of_read base h _ .first .first _ d agrees_start
    (Progress.read_eq_some_iff.2 rfl)
  refine ⟨e, ?_, htype⟩
  have hblank : ¬Text.allBlank cs = true := fun hblank =>
    d.lexemes_ne_nil (h.eq_nil_of_allBlank hblank)
  rw [read, if_neg hblank, Grammar.Machine.run, hrun]

/-- A text has at most one derivation. It is read if it has one, and what is read is the type of
that derivation; otherwise it is refused. -/
theorem read_accepts_exactly_derivable (base : Loc) (cs : List Char) :
    (∀ d d' : Derivation .expr, Lexed cs d.lexemes → Lexed cs d'.lexemes → d = d') ∧
    ((∃ e, read base cs = .ok e) ↔ ∃ d : Derivation .expr, Lexed cs d.lexemes) ∧
    (∀ (e : TypeExpr) (d : Derivation .expr), read base cs = .ok e → Lexed cs d.lexemes →
      e.unplaced = d.type) ∧
    ((¬∃ d : Derivation .expr, Lexed cs d.lexemes) → ∃ error, read base cs = .error error) := by
  have hunique (d d' : Derivation .expr) (hd : Lexed cs d.lexemes) (hd' : Lexed cs d'.lexemes) :
      d = d' := Derivation.lexemes_injective (hd.unique hd')
  refine ⟨hunique, ⟨?_, ?_⟩, ?_, ?_⟩
  · rintro ⟨e, he⟩
    obtain ⟨d, hd, -⟩ := exists_derivation_of_read he
    exact ⟨d, hd⟩
  · rintro ⟨d, hd⟩
    obtain ⟨e, he, -⟩ := exists_read_of_derivation base hd
    exact ⟨e, he⟩
  · intro e d he hd
    obtain ⟨d', hd', htype⟩ := exists_derivation_of_read he
    rw [htype, hunique d d' hd hd']
  · intro hnone
    cases hread : read base cs with
    | error error => exact ⟨error, rfl⟩
    | ok e =>
      obtain ⟨d, hd, -⟩ := exists_derivation_of_read hread
      exact absurd ⟨d, hd⟩ hnone

/-- An array of a union with blanks in it is derived and read, and a union without its last member
is neither. -/
theorem read_accepts_derivable_array :
    (∃ (e : TypeExpr) (d : Derivation .expr), read .first "( a.B|*)[ ]".toList = .ok e ∧
      Lexed "( a.B|*)[ ]".toList d.lexemes ∧ e.unplaced = d.type ∧ e.text = "(a.B|any)[]") ∧
    (¬∃ d : Derivation .expr, Lexed "a.B|".toList d.lexemes) ∧
    ∃ error, read .first "a.B|".toList = .error error := by
  have hread : (read .first "( a.B|*)[ ]".toList).toOption.map text = some "(a.B|any)[]" := by
    decide +kernel
  have hrefused : (read .first "a.B|".toList).toOption.isNone = true := by decide +kernel
  obtain ⟨-, hiff, htype, -⟩ := read_accepts_exactly_derivable .first "( a.B|*)[ ]".toList
  obtain ⟨-, hiff', -, herror⟩ := read_accepts_exactly_derivable .first "a.B|".toList
  have hnone : ¬∃ d : Derivation .expr, Lexed "a.B|".toList d.lexemes := by
    rw [← hiff']
    rintro ⟨e, he⟩
    rw [he] at hrefused
    cases hrefused
  refine ⟨?_, hnone, herror hnone⟩
  cases he : read .first "( a.B|*)[ ]".toList with
  | error error =>
    rw [he] at hread
    cases hread
  | ok e =>
    obtain ⟨d, hd⟩ := hiff.1 ⟨e, he⟩
    rw [he] at hread
    exact ⟨e, d, rfl, hd, htype e d he hd, Option.some.inj hread⟩

end TypeExpr

end DocSignature

import DocSignature.Proofs.Lexeme

/-!
# Derivations of types

The grammar of types. A type is one term or more with bars between them, a term is an atom with any
number of `[]` behind it, and an atom is a dotted name, a star or a type in parentheses.

Lexemes can be read from left to right into a derivation, with a stack for open parentheses. This
gives back every derivation from its lexemes and refuses every other list of lexemes, so no list has
two derivations.
-/

namespace DocSignature.TypeExpr

/-! ## Types without places -/

mutual

/-- A type with every place forgotten. -/
def unplaced : TypeExpr → TypeExpr
  | .ref name => .ref { name with loc := .first }
  | .array _ element => .array .first element.unplaced
  | .union _ members => .union .first (unplacedAll members)

def unplacedAll : List TypeExpr → List TypeExpr
  | [] => []
  | member :: rest => member.unplaced :: unplacedAll rest

end

theorem unplacedAll_eq_map (es : List TypeExpr) : unplacedAll es = es.map unplaced := by
  induction es with
  | nil => rfl
  | cons e es ih => rw [unplacedAll, ih, List.map_cons]

theorem spread_unplaced (e : TypeExpr) : spread e.unplaced = (spread e).map unplaced := by
  cases e <;> simp [unplaced, spread, unplacedAll_eq_map]

/-! ## The grammar -/

/-- A symbol of the grammar. -/
inductive Category where
  | atom
  | term
  | expr

/-- A derivation from a symbol of the grammar. The terms of a type are taken one by one from the
front, the brackets of a term from the back. -/
inductive Derivation : Category → Type
  | name (n : DottedName) : Derivation .atom
  | star : Derivation .atom
  | group (inner : Derivation .expr) : Derivation .atom
  | atom (a : Derivation .atom) : Derivation .term
  | array (t : Derivation .term) : Derivation .term
  | term (t : Derivation .term) : Derivation .expr
  | union (t : Derivation .term) (rest : Derivation .expr) : Derivation .expr

namespace Derivation

/-- The lexemes that a derivation ends in. -/
def lexemes {s : Category} : Derivation s → List Lexeme
  | .name n => [.name n]
  | .star => [.mark .star]
  | .group inner => .mark .leftParen :: (inner.lexemes ++ [.mark .rightParen])
  | .atom a => a.lexemes
  | .array t => t.lexemes ++ [.mark .leftBracket, .mark .rightBracket]
  | .term t => t.lexemes
  | .union t rest => t.lexemes ++ .mark .bar :: rest.lexemes

/-- The type that a derivation stands for, without places. The star is the type `any`, parentheses
leave no trace, one term stands for itself, and a union among the terms gives its members. -/
def type {s : Category} : Derivation s → TypeExpr
  | .name n => .ref ⟨.first, String.ofList n.base, n.members.map String.ofList⟩
  | .star => .ref ⟨.first, "any", []⟩
  | .group inner => inner.type
  | .atom a => a.type
  | .array t => .array .first t.type
  | .term t => t.type
  | .union t rest => .union .first (spread t.type ++ spread rest.type)

/-- The terms of a type but its last one, latest first. -/
def front : Derivation .expr → List (Derivation .term)
  | .term _ => []
  | .union t rest => rest.front ++ [t]

/-- The last term of a type. -/
def last : Derivation .expr → Derivation .term
  | .term t => t
  | .union _ rest => rest.last

/-- Terms put in front of a type, the latest first. -/
def chain (waiting : List (Derivation .term)) (e : Derivation .expr) : Derivation .expr :=
  waiting.foldl (fun rest t => .union t rest) e

theorem chain_front (e : Derivation .expr) : chain e.front (.term e.last) = e := by
  match e with
  | .term t => rw [front, last, chain, List.foldl_nil]
  | .union t rest =>
    have ih := chain_front rest
    rw [chain] at ih
    rw [front, last, chain, List.foldl_append, ih, List.foldl_cons, List.foldl_nil]

/-- Terms with a bar behind each, the latest given first. -/
def barred (waiting : List (Derivation .term)) : List Lexeme :=
  waiting.reverse.flatMap fun t => t.lexemes ++ [.mark .bar]

theorem barred_cons (t : Derivation .term) (waiting : List (Derivation .term)) :
    barred (t :: waiting) = barred waiting ++ (t.lexemes ++ [.mark .bar]) := by
  simp [barred]

theorem lexemes_chain (waiting : List (Derivation .term)) :
    ∀ e, (chain waiting e).lexemes = barred waiting ++ e.lexemes := by
  induction waiting with
  | nil => intro e; rfl
  | cons t waiting ih =>
    intro e
    have hstep : (chain waiting (.union t e)).lexemes = _ := ih (.union t e)
    rw [chain, List.foldl_cons, ← chain, hstep, lexemes, barred_cons]
    simp

theorem spread_chain (waiting : List (Derivation .term)) :
    ∀ e, spread (chain waiting e).type =
      (waiting.reverse.flatMap fun t => spread t.type) ++ spread e.type := by
  induction waiting with
  | nil => intro e; rfl
  | cons t waiting ih =>
    intro e
    rw [chain, List.foldl_cons, ← chain, ih]
    simp [type, spread]

/-- Several terms make a union of what each of them adds. -/
theorem type_chain {waiting : List (Derivation .term)} (hne : waiting ≠ [])
    (e : Derivation .expr) :
    (chain waiting e).type =
      .union .first ((waiting.reverse.flatMap fun t => spread t.type) ++ spread e.type) := by
  rw [← spread_chain]
  obtain ⟨first, more, hrev⟩ := List.exists_cons_of_ne_nil (List.reverse_ne_nil_iff.2 hne)
  have hlast : waiting = more.reverse ++ [first] := by
    rw [← List.reverse_reverse waiting, hrev, List.reverse_cons]
  rw [hlast, chain, List.foldl_append]
  rfl

end Derivation

/-! ## Reading lexemes -/

/-- What was read last, and what may come next. -/
inductive Stage where
  | operand
  | operator (t : Derivation .term)
  | bracket (t : Derivation .term)

/-- How far lexemes were read: the terms before each open parenthesis, the terms since the last one,
each latest first, and the term at hand. -/
structure Progress where
  groups : List (List (Derivation .term))
  waiting : List (Derivation .term)
  stage : Stage

namespace Progress

open TypeExpr.Derivation (chain barred)

/-- The progress after one more lexeme, if it may come next. -/
def take (p : Progress) (l : Lexeme) : Option Progress :=
  match p.stage, l with
  | .operand, .name n => some { p with stage := .operator (.atom (.name n)) }
  | .operand, .mark .star => some { p with stage := .operator (.atom .star) }
  | .operand, .mark .leftParen => some ⟨p.waiting :: p.groups, [], .operand⟩
  | .operator t, .mark .bar => some { p with waiting := t :: p.waiting, stage := .operand }
  | .operator t, .mark .leftBracket => some { p with stage := .bracket t }
  | .operator t, .mark .rightParen =>
    match p.groups with
    | waiting :: groups =>
      some ⟨groups, waiting, .operator (.atom (.group (chain p.waiting (.term t))))⟩
    | [] => none
  | .bracket t, .mark .rightBracket => some { p with stage := .operator (.array t) }
  | _, _ => none

/-- The progress after some lexemes. -/
def takeAll : Progress → List Lexeme → Option Progress
  | p, [] => some p
  | p, l :: ls => (p.take l).bind fun p' => p'.takeAll ls

/-- The derivation that was read, once no parenthesis is open and a term is complete. -/
def finish (p : Progress) : Option (Derivation .expr) :=
  match p.stage, p.groups with
  | .operator t, [] => some (chain p.waiting (.term t))
  | _, _ => none

/-- The derivation of the lexemes that were read together with those still to come. -/
def read (p : Progress) (ls : List Lexeme) : Option (Derivation .expr) :=
  (p.takeAll ls).bind finish

/-- Nothing was read yet. -/
def start : Progress := ⟨[], [], .operand⟩

theorem takeAll_append (ls ls' : List Lexeme) :
    ∀ p : Progress, p.takeAll (ls ++ ls') = (p.takeAll ls).bind fun p' => p'.takeAll ls' := by
  induction ls with
  | nil => intro p; rfl
  | cons l ls ih =>
    intro p
    rw [List.cons_append, takeAll, takeAll]
    cases p.take l with
    | none => rfl
    | some p' => exact ih p'

theorem read_cons {p p' : Progress} {l : Lexeme} (h : p.take l = some p') (ls : List Lexeme) :
    p.read (l :: ls) = p'.read ls := by
  rw [read, takeAll, h]
  rfl

/-! ### A derivation is read from its lexemes -/

/-- The progress after the lexemes of a derivation. -/
def behind {s : Category} (d : Derivation s) (groups : List (List (Derivation .term)))
    (waiting : List (Derivation .term)) : Progress :=
  match s, d with
  | .atom, a => ⟨groups, waiting, .operator (.atom a)⟩
  | .term, t => ⟨groups, waiting, .operator t⟩
  | .expr, e => ⟨groups, e.front ++ waiting, .operator e.last⟩

theorem takeAll_lexemes {s : Category} (d : Derivation s) :
    ∀ groups waiting, takeAll ⟨groups, waiting, .operand⟩ d.lexemes =
      some (behind d groups waiting) := by
  induction d with
  | name n => intro groups waiting; rfl
  | star => intro groups waiting; rfl
  | group inner ih =>
    intro groups waiting
    -- The parenthesis hides what waits until it is closed.
    have hopen : takeAll ⟨groups, waiting, .operand⟩ (.mark .leftParen :: inner.lexemes) =
        some (behind inner (waiting :: groups) []) := ih (waiting :: groups) []
    rw [Derivation.lexemes, ← List.cons_append, takeAll_append, hopen]
    simp [behind, takeAll, take, Derivation.chain_front]
  | atom a ih => exact ih
  | array t ih =>
    intro groups waiting
    rw [Derivation.lexemes, takeAll_append, ih]
    rfl
  | term t ih =>
    intro groups waiting
    rw [Derivation.lexemes, ih, behind, behind, Derivation.front, Derivation.last, List.nil_append]
  | union t rest iht ih =>
    intro groups waiting
    have hrest : takeAll (behind t groups waiting) (.mark .bar :: rest.lexemes) =
        some (behind rest groups (t :: waiting)) := ih groups (t :: waiting)
    rw [Derivation.lexemes, takeAll_append, iht, Option.bind_some, hrest]
    simp [behind, Derivation.front, Derivation.last]

/-! ### What was read is derived -/

/-- The lexemes of the term at hand. -/
def stageLexemes : Stage → List Lexeme
  | .operand => []
  | .operator t => t.lexemes
  | .bracket t => t.lexemes ++ [.mark .leftBracket]

/-- The lexemes up to the last open parenthesis. -/
def groupLexemes : List (List (Derivation .term)) → List Lexeme
  | [] => []
  | waiting :: groups => groupLexemes groups ++ barred waiting ++ [.mark .leftParen]

/-- The lexemes that were read. -/
def lexemes (p : Progress) : List Lexeme :=
  groupLexemes p.groups ++ barred p.waiting ++ stageLexemes p.stage

theorem lexemes_take {p p' : Progress} {l : Lexeme} (h : p.take l = some p') :
    p'.lexemes = p.lexemes ++ [l] := by
  unfold take at h
  split at h
  · rename_i n hstage
    cases h
    simp [lexemes, hstage, stageLexemes, Derivation.lexemes]
  · rename_i hstage
    cases h
    simp [lexemes, hstage, stageLexemes, Derivation.lexemes]
  · rename_i hstage
    cases h
    simp [lexemes, hstage, stageLexemes, groupLexemes, barred]
  · rename_i t hstage
    cases h
    simp [lexemes, hstage, stageLexemes, Derivation.barred_cons]
  · rename_i t hstage
    cases h
    simp [lexemes, hstage, stageLexemes]
  · rename_i t hstage
    split at h
    · rename_i waiting groups hgroups
      cases h
      simp [lexemes, hstage, hgroups, stageLexemes, groupLexemes, Derivation.lexemes,
        Derivation.lexemes_chain]
    · cases h
  · rename_i t hstage
    cases h
    simp [lexemes, hstage, stageLexemes, Derivation.lexemes]
  · cases h

theorem lexemes_takeAll (ls : List Lexeme) :
    ∀ {p p' : Progress}, p.takeAll ls = some p' → p'.lexemes = p.lexemes ++ ls := by
  induction ls with
  | nil =>
    intro p p' h
    cases h
    simp
  | cons l ls ih =>
    intro p p' h
    obtain ⟨mid, hmid, hrest⟩ := Option.bind_eq_some_iff.1 h
    rw [ih hrest, lexemes_take hmid]
    simp

theorem lexemes_finish {p : Progress} {d : Derivation .expr} (h : p.finish = some d) :
    d.lexemes = p.lexemes := by
  unfold finish at h
  split at h
  · rename_i t hstage hgroups
    cases h
    simp [lexemes, hstage, hgroups, groupLexemes, stageLexemes, Derivation.lexemes_chain,
      Derivation.lexemes]
  · cases h

/-- Reading lexemes finds exactly the derivation that they come from. -/
theorem read_eq_some_iff {ls : List Lexeme} {d : Derivation .expr} :
    start.read ls = some d ↔ d.lexemes = ls := by
  constructor
  · intro h
    obtain ⟨p, hp, hfinish⟩ := Option.bind_eq_some_iff.1 h
    rw [lexemes_finish hfinish, lexemes_takeAll ls hp]
    rfl
  · rintro rfl
    rw [read, start, takeAll_lexemes]
    simp [behind, finish, Derivation.chain_front]

end Progress

/-- No two derivations have the same lexemes. -/
theorem Derivation.lexemes_injective {d d' : Derivation .expr} (h : d.lexemes = d'.lexemes) :
    d = d' := by
  have hd := Progress.read_eq_some_iff.2 h
  rw [Progress.read_eq_some_iff.2 rfl, Option.some.injEq] at hd
  exact hd.symm

end DocSignature.TypeExpr

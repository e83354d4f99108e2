import DocSignature.ImportTable
import DocSignature.Proofs.CharClass
import DocSignature.Tag.Reader

/-!
# Names that are read

Every name in a type that was read, and every name that an import brings in, comes from one token of
the text. What holds of the names of single tokens therefore holds of all names that are read; above
all they are identifiers of ASCII.
-/

namespace DocSignature

/-- An identifier of ASCII. -/
def IsIdentifier (name : List Char) : Prop :=
  ∃ first rest, name = first :: rest ∧ Text.isNameStart first = true ∧
    ∀ c ∈ rest, Text.isPlainNameChar c = true

theorem isIdentifier_cons {first : Char} {rest : List Char} :
    IsIdentifier (first :: rest) ↔
      Text.isNameStart first = true ∧ ∀ c ∈ rest, Text.isPlainNameChar c = true := by
  constructor
  · rintro ⟨_, _, heq, hfirst, hrest⟩
    cases heq
    exact ⟨hfirst, hrest⟩
  · rintro ⟨hfirst, hrest⟩
    exact ⟨first, rest, rfl, hfirst, hrest⟩

instance : DecidablePred IsIdentifier
  | [] => .isFalse (by rintro ⟨_, _, heq, -⟩; cases heq)
  | first :: rest => decidable_of_iff
      (Text.isNameStart first = true ∧ rest.all Text.isPlainNameChar = true)
      (by rw [isIdentifier_cons, List.all_eq_true])

theorem IsIdentifier.plain {name : List Char} (h : IsIdentifier name) :
    ∀ c ∈ name, Text.isPlainNameChar c = true := by
  obtain ⟨first, rest, rfl, hf, hr⟩ := h
  intro c hc
  rcases List.mem_cons.1 hc with rfl | hc
  · exact Text.isPlainNameChar_of_isNameStart hf
  · exact hr c hc

theorem IsIdentifier.not_mem {name : List Char} (h : IsIdentifier name) {c : Char}
    (hc : Text.isPlainNameChar c = false) : c ∉ name := by
  intro hmem
  rw [h.plain c hmem] at hc
  cases hc

theorem IsIdentifier.ne_nil {name : List Char} (h : IsIdentifier name) : name ≠ [] := by
  obtain ⟨first, rest, rfl, -, -⟩ := h
  simp

namespace Grammar

/-! ## What a machine reads -/

/-- The text of a token is what its terminal takes off some text. -/
def Token.Reads (token : Token) : Prop :=
  ∃ cs size, token.terminal.size? cs = some size ∧ token.text = cs.take size

/-- A token of a text: its place is where one gets through what stands in front of it, and there its
terminal takes off the token's text. -/
def Token.StandsIn (token : Token) (text : List Char) : Prop :=
  ∃ front rest size, text = front ++ rest ∧ token.loc = front.foldl Loc.next .first ∧
    token.terminal.size? rest = some size ∧ token.text = rest.take size

theorem Token.StandsIn.reads {token : Token} {text : List Char} (h : token.StandsIn text) :
    token.Reads := by
  obtain ⟨-, rest, size, -, -, hsize, htext⟩ := h
  exact ⟨rest, size, hsize, htext⟩

theorem firstOf?_eq_some {terminals : List Terminal} {cs : List Char} {terminal : Terminal}
    {size : Nat} (h : firstOf? terminals cs = some (terminal, size)) :
    terminal ∈ terminals ∧ terminal.size? cs = some size := by
  obtain ⟨t, ht, hsome⟩ := List.exists_of_findSome?_eq_some h
  obtain ⟨n, hn, heq⟩ := Option.map_eq_some_iff.1 hsome
  cases heq
  exact ⟨ht, hn⟩

/-- What holds at the start of a text, and is kept by every character that is passed and by every
accepted token, holds at the end of the text, of the state from which the result is taken. -/
theorem Machine.runFrom_walk {σ ρ : Type} (m : Machine σ ρ) (Inv : List Char → σ → Prop)
    {text : List Char} (hpass : ∀ front s c, Inv front s → Inv (front ++ [c]) s)
    (hshift : ∀ front s c token, Inv front s → token.StandsIn text →
      token.loc = front.foldl Loc.next .first → Inv (front ++ [c]) (m.shift s token))
    (cs : List Char) :
    ∀ (front : List Char) (state : σ) (last loc : Loc) (skip : Nat) (r : ρ), text = front ++ cs →
      loc = front.foldl Loc.next .first → Inv front state →
      m.runFrom state last loc skip cs = .ok r → ∃ s, Inv text s ∧ m.result s = some r := by
  induction cs with
  | nil =>
    intro front state last loc skip r htext hloc hinv h
    simp only [runFrom] at h
    split at h
    · rename_i result hresult
      cases h
      exact ⟨state, by rwa [htext, List.append_nil], hresult⟩
    · cases h
  | cons c cs ih =>
    intro front state last loc skip r htext hloc hinv h
    have hnext : loc.next c = (front ++ [c]).foldl Loc.next .first := by
      rw [List.foldl_append, ← hloc]
      rfl
    have hfront : text = (front ++ [c]) ++ cs := by
      rw [htext, List.append_assoc]
      rfl
    cases skip with
    | succ skip => exact ih _ _ _ _ _ _ hfront hnext (hpass _ _ c hinv) h
    | zero =>
      simp only [runFrom] at h
      split at h
      · exact ih _ _ _ _ _ _ hfront hnext (hpass _ _ c hinv) h
      · split at h
        · rename_i terminal size hfirst
          obtain ⟨-, hsize⟩ := firstOf?_eq_some hfirst
          have htoken := hshift front _ c ⟨terminal, _, loc⟩ hinv
            ⟨front, _, _, htext, hloc, hsize, rfl⟩ hloc
          exact ih _ _ _ _ _ _ hfront hnext htoken h
        · cases h

theorem Machine.run_walk {σ ρ : Type} (m : Machine σ ρ) (Inv : List Char → σ → Prop)
    {cs : List Char} (hpass : ∀ front s c, Inv front s → Inv (front ++ [c]) s)
    (hshift : ∀ front s c token, Inv front s → token.StandsIn cs →
      token.loc = front.foldl Loc.next .first → Inv (front ++ [c]) (m.shift s token)) {start : σ}
    (hstart : Inv [] start) {r : ρ} (h : m.run start cs = .ok r) :
    ∃ s, Inv cs s ∧ m.result s = some r :=
  m.runFrom_walk Inv hpass hshift cs [] _ _ _ _ _ rfl rfl hstart h

/-- What holds at the start and is kept by every accepted token of a text holds in the state from
which the result is taken. -/
theorem Machine.run_invariant {σ ρ : Type} (m : Machine σ ρ) (Inv : σ → Prop) {cs : List Char}
    (hshift : ∀ s token, Inv s → token.StandsIn cs → Inv (m.shift s token)) {start : σ}
    (hstart : Inv start) {r : ρ} (h : m.run start cs = .ok r) :
    ∃ s, Inv s ∧ m.result s = some r :=
  m.run_walk (fun _ s => Inv s) (fun _ _ _ hs => hs)
    (fun _ s _ token hs hstands _ => hshift s token hs hstands) hstart h

/-! ## Names among the tokens -/

theorem isIdentifier_of_name {token : Token} (hr : token.Reads) (ht : token.terminal = .name) :
    IsIdentifier token.text := by
  obtain ⟨cs, size, hsize, htext⟩ := hr
  rw [ht] at hsize
  cases cs with
  | nil => simp [Terminal.size?, nameSize?] at hsize
  | cons c cs =>
    simp only [Terminal.size?, nameSize?] at hsize
    split at hsize
    · rename_i hc
      cases hsize
      refine ⟨c, cs.takeWhile Text.isPlainNameChar, ?_, hc, fun d hd => List.mem_takeWhile_imp hd⟩
      have hp : cs.takeWhile Text.isPlainNameChar <+: cs := List.takeWhile_prefix _
      rw [htext, Nat.add_comm, List.take_succ_cons, ← List.prefix_iff_eq_take.1 hp]
    · cases hsize

/-- The parts of what a dotted name goes on with: the first of plain characters, the others
identifiers. When the text starts like a name, the first is an identifier, too. -/
theorem cut_dottedTail (cs : List Char) :
    ∃ part rest, Text.cut '.' (cs.take (dottedTail cs)) = part :: rest ∧
      (∀ c ∈ part, Text.isPlainNameChar c = true) ∧ (∀ p ∈ rest, IsIdentifier p) ∧
      ∀ c, cs.head? = some c → Text.isNameStart c = true → IsIdentifier part := by
  induction cs with
  | nil => exact ⟨[], [], rfl, by simp, by simp, by simp⟩
  | cons c cs ih =>
    obtain ⟨part, rest, hcut, hpart, hrest, hstart⟩ := ih
    simp only [dottedTail]
    split
    · rename_i hc
      have hdot : c ≠ '.' := by
        rintro rfl
        revert hc
        decide
      refine ⟨c :: part, rest, ?_, ?_, hrest, ?_⟩
      · rw [Nat.add_comm, List.take_succ_cons, Text.cut, if_neg hdot, hcut]
      · simpa [hc] using hpart
      · intro d hd hname
        cases hd
        exact ⟨c, part, rfl, hname, hpart⟩
    · rename_i hc
      -- Here the first part is empty, and the text does not start like a name.
      have hname : ∀ d, (c :: cs).head? = some d → Text.isNameStart d = true → False := by
        intro d hd hd'
        cases hd
        exact hc (Text.isPlainNameChar_of_isNameStart hd')
      split
      · rename_i hdot
        split
        · rename_i d more
          split
          · rename_i hd
            refine ⟨[], part :: rest, ?_, by simp, ?_, fun e he he' => (hname e he he').elim⟩
            · rw [Nat.add_comm, List.take_succ_cons, Text.cut, if_pos hdot, hcut]
            · intro p hp
              rcases List.mem_cons.1 hp with rfl | hp
              · exact hstart d (by simp) hd
              · exact hrest p hp
          · exact ⟨[], [], rfl, by simp, by simp, fun e he he' => (hname e he he').elim⟩
        · exact ⟨[], [], rfl, by simp, by simp, fun e he he' => (hname e he he').elim⟩
      · exact ⟨[], [], rfl, by simp, by simp, fun e he he' => (hname e he he').elim⟩

theorem cut_of_dottedName {token : Token} (hr : token.Reads) (ht : token.terminal = .dottedName) :
    ∃ part rest, Text.cut '.' token.text = part :: rest ∧ IsIdentifier part ∧
      ∀ p ∈ rest, IsIdentifier p := by
  obtain ⟨cs, size, hsize, htext⟩ := hr
  rw [ht] at hsize
  cases cs with
  | nil => simp [Terminal.size?, dottedNameSize?] at hsize
  | cons c cs =>
    simp only [Terminal.size?, dottedNameSize?] at hsize
    split at hsize
    · rename_i hc
      cases hsize
      -- The first character only continues the name, so the whole text is one dotted tail.
      have htail : dottedTail (c :: cs) = 1 + dottedTail cs := by
        simp [dottedTail, Text.isPlainNameChar_of_isNameStart hc]
      obtain ⟨part, rest, hcut, -, hrest, hstart⟩ := cut_dottedTail (c :: cs)
      rw [htail, ← htext] at hcut
      exact ⟨part, rest, hcut, hstart c rfl hc, hrest⟩
    · cases hsize

end Grammar

/-! ## Types -/

/-- A name whose parts are identifiers. -/
def TypeRef.Named (r : TypeRef) : Prop :=
  IsIdentifier r.base.toList ∧ ∀ m ∈ r.rest, IsIdentifier m.toList

namespace TypeExpr

/-- A type all of whose names are made of identifiers. -/
def Named (e : TypeExpr) : Prop := ∀ r ∈ e.refs, r.Named

theorem refsOf_append (xs ys : List TypeExpr) : refsOf (xs ++ ys) = refsOf xs ++ refsOf ys := by
  induction xs with
  | nil => rfl
  | cons x xs ih => simp [refsOf, ih]

/-- A type adds its own names to a union. -/
theorem refsOf_spread (e : TypeExpr) : refsOf (spread e) = e.refs := by
  cases e <;> simp [spread, refs, refsOf]

/-- A type all of whose names have a property. -/
def AllRefs (P : TypeRef → Prop) (e : TypeExpr) : Prop := ∀ r ∈ e.refs, P r

section AllRefs
variable {P : TypeRef → Prop}

theorem forall_mem_refsOf {ts : List Term} (h : ∀ t ∈ ts, t.expr.AllRefs P) :
    ∀ r ∈ refsOf (ts.flatMap fun t => spread t.expr), P r := by
  induction ts with
  | nil => simp [refsOf]
  | cons t ts ih =>
    intro r hr
    rw [List.flatMap_cons, refsOf_append, refsOf_spread, List.mem_append] at hr
    rcases hr with hr | hr
    · exact h t (by simp) r hr
    · exact ih (fun t' ht' => h t' (by simp [ht'])) r hr

theorem allRefs_join {last : Term} {waiting : List Term} (hl : last.expr.AllRefs P)
    (hw : ∀ t ∈ waiting, t.expr.AllRefs P) : (join last waiting).AllRefs P := by
  have hall : ∀ t ∈ (last :: waiting).reverse, t.expr.AllRefs P := by
    intro t ht
    rcases List.mem_cons.1 (List.mem_reverse.1 ht) with rfl | ht
    · exact hl
    · exact hw t ht
  unfold join
  split
  · rename_i head second rest heq
    rw [heq] at hall
    exact forall_mem_refsOf hall
  · exact hl

theorem allRefs_ref {r : TypeRef} (h : P r) : (TypeExpr.ref r).AllRefs P := by
  intro r' hr'
  rw [refs, List.mem_singleton] at hr'
  rw [hr']
  exact h

/-- The terms that a mode holds. -/
def Mode.AllRefs (P : TypeRef → Prop) : Mode → Prop
  | .operand => True
  | .operator term | .bracket term => term.expr.AllRefs P

/-- A state in which all names have a property. -/
structure State.AllRefs (P : TypeRef → Prop) (s : State) : Prop where
  groups : ∀ g ∈ s.groups, ∀ t ∈ g.2, t.expr.AllRefs P
  waiting : ∀ t ∈ s.waiting, t.expr.AllRefs P
  mode : s.mode.AllRefs P

/-- A token adds its own name to a state, and nothing else. -/
theorem allRefs_shift {base : Loc} {s : State} {token : Grammar.Token} (hs : s.AllRefs P)
    (hname : token.terminal = .dottedName → P (refOf (base.within token.loc) token.text))
    (hstar : token.terminal = .star → P ⟨base.within token.loc, anyName, []⟩) :
    (shift base s token).AllRefs P := by
  obtain ⟨hg, hw, hm⟩ := hs
  simp only [shift]
  split
  · rename_i ht
    exact ⟨hg, hw, allRefs_ref (hname ht)⟩
  · rename_i ht
    exact ⟨hg, hw, allRefs_ref (hstar ht)⟩
  · refine ⟨?_, by simp, trivial⟩
    intro g hmem
    rcases List.mem_cons.1 hmem with rfl | hmem
    · exact hw
    · exact hg g hmem
  · rename_i term hmode _
    rw [hmode] at hm
    refine ⟨hg, ?_, trivial⟩
    intro t ht
    rcases List.mem_cons.1 ht with rfl | ht
    · exact hm
    · exact hw t ht
  · rename_i term hmode _
    rw [hmode] at hm
    exact ⟨hg, hw, hm⟩
  · rename_i term hmode _
    rw [hmode] at hm
    split
    · -- A closed group becomes a term of the group around it.
      rename_i start waiting groups hgroups
      rw [hgroups] at hg
      exact ⟨fun g hmem => hg g (by simp [hmem]), hg (start, waiting) (by simp),
        allRefs_join hm hw⟩
    · exact ⟨hg, hw, by rw [hmode]; exact hm⟩
  · rename_i term hmode _
    rw [hmode] at hm
    exact ⟨hg, hw, by simpa [Mode.AllRefs, AllRefs, refs] using hm⟩
  · exact ⟨hg, hw, hm⟩

/-- What holds of the name of every single token holds of all names in a type that was read. -/
theorem allRefs_of_read {base : Loc} {cs : List Char} {e : TypeExpr} (h : read base cs = .ok e)
    (hname : ∀ token : Grammar.Token, token.StandsIn cs → token.terminal = .dottedName →
      P (refOf (base.within token.loc) token.text))
    (hstar : ∀ token : Grammar.Token, token.StandsIn cs → token.terminal = .star →
      P ⟨base.within token.loc, anyName, []⟩) : e.AllRefs P := by
  unfold read at h
  split at h
  · cases h
  · split at h
    · rename_i e' hrun
      cases h
      have hstart : (⟨[], [], .operand⟩ : State).AllRefs P := ⟨by simp, by simp, trivial⟩
      obtain ⟨s, hs, hresult⟩ := (machine base).run_invariant (State.AllRefs P)
        (fun s token hs ht => allRefs_shift hs (hname token ht) (hstar token ht)) hstart hrun
      simp only [machine, result] at hresult
      split at hresult
      · rename_i term hmode hgroups
        cases hresult
        have hm := hs.mode
        rw [hmode] at hm
        exact allRefs_join hm hs.waiting
      · cases hresult
    · cases h

end AllRefs

theorem named_refOf {token : Grammar.Token} (loc : Loc) (hr : token.Reads)
    (ht : token.terminal = .dottedName) : (refOf loc token.text).Named := by
  obtain ⟨part, rest, hcut, hpart, hrest⟩ := Grammar.cut_of_dottedName hr ht
  simp only [refOf, hcut, List.map_cons]
  refine ⟨by simpa using hpart, ?_⟩
  intro m hm
  obtain ⟨p, hp, rfl⟩ := List.mem_map.1 hm
  simpa using hrest p hp

theorem isIdentifier_anyName : IsIdentifier anyName.toList :=
  ⟨'a', ['n', 'y'], by decide, by decide, Text.forall_mem_of_all (by decide)⟩

/-- The names in a type that was read are made of identifiers. -/
theorem named_of_read {base : Loc} {cs : List Char} {e : TypeExpr} (h : read base cs = .ok e) :
    e.Named := by
  apply allRefs_of_read (P := TypeRef.Named) h
  · intro token hstands ht
    exact named_refOf _ hstands.reads ht
  · intro token _ _
    exact ⟨isIdentifier_anyName, by simp⟩

end TypeExpr

/-! ## Imports -/

/-- Names of an import that are identifiers. -/
def Specifier.Named (s : Specifier) : Prop :=
  IsIdentifier s.imported.toList ∧ IsIdentifier s.localName.toList

/-- An import whose names have a property, and so has the name of a whole module. -/
def ImportClause.AllNames (P : Specifier → Prop) (Q : String → Prop) : ImportClause → Prop
  | .named specifiers => ∀ s ∈ specifiers, P s
  | .whole localName => Q localName

/-- An import all of whose names are identifiers. -/
def ImportClause.Named : ImportClause → Prop :=
  AllNames Specifier.Named (IsIdentifier ·.toList)

/-- What a tag says, with names made of identifiers. -/
def TagBody.Named : TagBody → Prop
  | .imports clause _ => clause.Named
  | .param p => ∀ e ∈ p.type, e.Named
  | .returns r => ∀ e ∈ r.type, e.Named
  | .other _ => True

namespace Tag

/-- An import that is read was read to its end. -/
theorem exists_run_of_readImport {loc : Loc} {body : List Char} {b : TagBody}
    (h : readImport loc body = .ok b) :
    ∃ clause moduleName, b = .imports clause moduleName ∧
      (importMachine (loc.forward "@import".length)).run .start body = .ok (clause, moduleName) := by
  unfold readImport at h
  split at h
  · cases h
  · split at h
    · cases h
    · split at h
      · cases h
      · rename_i clause moduleName hrun
        split at h
        · cases h
        · cases h
          exact ⟨clause, moduleName, rfl, hrun⟩

theorem eq_complete_of_result {s : ImportState} {clause : ImportClause} {moduleName : String}
    (h : s.result = some (clause, moduleName)) : s = .complete clause moduleName := by
  cases s with
  | complete clause moduleName =>
    cases h
    rfl
  | _ => cases h

section AllNames
variable {P : Specifier → Prop} {Q : String → Prop}

/-- A state of the reader in which all names have a property. -/
def ImportState.AllNames (P : Specifier → Prop) (Q : String → Prop) : ImportState → Prop
  | .start | .star | .starRenaming => True
  | .item items | .itemRenamed items => ∀ s ∈ items, P s
  | .itemRead items last | .itemRenaming items last => (∀ s ∈ items, P s) ∧ P last
  | .clauseRead clause | .source clause | .complete clause _ => clause.AllNames P Q

theorem forall_mem_concat {items : List Specifier} {last : Specifier} (hi : ∀ s ∈ items, P s)
    (hl : P last) : ∀ s ∈ items ++ [last], P s := by
  intro s hs
  rcases List.mem_append.1 hs with hs | hs
  · exact hi s hs
  · rw [List.mem_singleton.1 hs]
    exact hl

/-- A token adds its own name to a state, or gives it to the last one. -/
theorem allNames_importShift {base : Loc} {s : ImportState} {token : Grammar.Token}
    (hs : s.AllNames P Q)
    (hname : token.terminal = .name →
      P ⟨String.ofList token.text, String.ofList token.text, base.within token.loc⟩)
    (hrename : token.terminal = .name →
      ∀ s, P s → P { s with localName := String.ofList token.text })
    (hwhole : token.terminal = .name → Q (String.ofList token.text)) :
    (s.shift base token).AllNames P Q := by
  unfold ImportState.shift
  split
  · exact fun s hs => by cases hs
  · trivial
  · rename_i ht
    exact ⟨hs, hname ht⟩
  · exact hs
  · exact hs
  · exact forall_mem_concat hs.1 hs.2
  · exact forall_mem_concat hs.1 hs.2
  · rename_i ht
    exact forall_mem_concat hs.1 (hrename ht _ hs.2)
  · exact hs
  · exact hs
  · trivial
  · rename_i ht
    exact hwhole ht
  · exact hs
  · exact hs
  · exact hs

/-- What holds of the name of every single token holds of all names that an import brings in. -/
theorem allNames_of_readImport {loc : Loc} {body : List Char} {b : TagBody}
    (h : readImport loc body = .ok b)
    (hname : ∀ token : Grammar.Token, token.StandsIn body → token.terminal = .name →
      P ⟨String.ofList token.text, String.ofList token.text,
        (loc.forward "@import".length).within token.loc⟩)
    (hrename : ∀ token : Grammar.Token, token.StandsIn body → token.terminal = .name →
      ∀ s, P s → P { s with localName := String.ofList token.text })
    (hwhole : ∀ token : Grammar.Token, token.StandsIn body → token.terminal = .name →
      Q (String.ofList token.text)) :
    ∃ clause moduleName, b = .imports clause moduleName ∧ clause.AllNames P Q := by
  obtain ⟨clause, moduleName, rfl, hrun⟩ := exists_run_of_readImport h
  have hstart : ImportState.start.AllNames P Q := trivial
  obtain ⟨s, hs, hresult⟩ := (importMachine _).run_invariant (ImportState.AllNames P Q)
    (fun s token hs ht => allNames_importShift hs (hname token ht) (hrename token ht)
      (hwhole token ht)) hstart hrun
  obtain rfl := eq_complete_of_result hresult
  exact ⟨clause, moduleName, rfl, hs⟩

end AllNames

/-- The names that an import brings in are identifiers. -/
theorem named_of_readImport {loc : Loc} {body : List Char} {b : TagBody}
    (h : readImport loc body = .ok b) :
    ∃ clause moduleName, b = .imports clause moduleName ∧ clause.Named := by
  have hident (token : Grammar.Token) (hstands : token.StandsIn body)
      (ht : token.terminal = .name) : IsIdentifier (String.ofList token.text).toList := by
    simpa using Grammar.isIdentifier_of_name hstands.reads ht
  apply allNames_of_readImport h
  · intro token hstands ht
    exact ⟨hident token hstands ht, hident token hstands ht⟩
  · intro token hstands ht s hs
    exact ⟨hs.1, hident token hstands ht⟩
  · exact hident

theorem named_of_splitType {name : List Char} {loc : Loc} {body rest : List Char}
    {type : Option TypeExpr} (h : splitType name loc body = .ok (type, rest)) :
    ∀ e ∈ type, e.Named := by
  simp only [splitType] at h
  split at h
  · split at h
    · cases h
    · split at h
      · rename_i e hread
        cases h
        rintro _ ⟨⟩
        exact TypeExpr.named_of_read hread
      · cases h
  · cases h
    rintro _ ⟨⟩

/-- A tag that was read. -/
def WasRead (tag : Tag) : Prop := ∃ file raw, tag = (read file raw).1

theorem wasRead_of_mem_readAll {file : Option String} {loc : Loc} {text : List Char} {tag : Tag}
    (h : tag ∈ (readAll file loc text).1) : tag.WasRead := by
  obtain ⟨found, hfound, rfl⟩ := List.mem_map.1 h
  obtain ⟨raw, -, rfl⟩ := List.mem_map.1 hfound
  exact ⟨file, raw, rfl⟩

/-- What a tag can say: an import, a parameter or a return value with the type in its braces, or
nothing that has a meaning. -/
theorem readBody_cases {raw : Raw} {body : TagBody} (h : readBody raw = .ok body) :
    (raw.name = "import".toList ∧
      readImport raw.loc (raw.text.drop (raw.name.length + 1)) = .ok body) ∨
    (∃ p rest, body = .param p ∧
      splitType raw.name raw.loc (raw.text.drop (raw.name.length + 1)) = .ok (p.type, rest)) ∨
    (∃ r rest, body = .returns r ∧
      splitType raw.name raw.loc (raw.text.drop (raw.name.length + 1)) = .ok (r.type, rest)) ∨
    body = .other (String.ofList raw.name) := by
  unfold readBody at h
  split at h
  · rename_i hname
    exact .inl ⟨hname, h⟩
  · split at h
    · unfold readParam at h
      split at h
      · cases h
      · rename_i type rest hsplit
        split at h
        · cases h
        · cases h
          exact .inr (.inl ⟨_, rest, rfl, hsplit⟩)
    · split at h
      · unfold readReturns at h
        split at h
        · cases h
        · rename_i type rest hsplit
          cases h
          exact .inr (.inr (.inl ⟨_, rest, rfl, hsplit⟩))
      · cases h
        exact .inr (.inr (.inr rfl))

theorem named_of_readBody {raw : Raw} {body : TagBody} (h : readBody raw = .ok body) :
    body.Named := by
  rcases readBody_cases h with ⟨-, hread⟩ | ⟨p, rest, rfl, hsplit⟩ | ⟨r, rest, rfl, hsplit⟩ | rfl
  · obtain ⟨clause, moduleName, rfl, hnamed⟩ := named_of_readImport hread
    exact hnamed
  · exact named_of_splitType hsplit
  · exact named_of_splitType hsplit
  · trivial

theorem named_of_wasRead {tag : Tag} (h : tag.WasRead) : tag.body.Named := by
  obtain ⟨file, raw, rfl⟩ := h
  unfold read
  split
  · rename_i body hbody
    exact named_of_readBody hbody
  · trivial

end Tag

namespace ImportTable

theorem mem_addAll (bs : List Binding) (t : ImportTable) :
    ∀ b ∈ (t.addAll bs).1.bindings, b ∈ t.bindings ∨ b ∈ bs := by
  induction bs generalizing t with
  | nil => intro b hb; exact .inl hb
  | cons first bs ih =>
    intro b hb
    simp only [addAll] at hb
    split at hb
    · rcases ih t b hb with h | h
      · exact .inl h
      · exact .inr (by simp [h])
    · rcases ih _ b hb with h | h
      · rw [insert, List.mem_append, List.mem_singleton] at h
        rcases h with h | rfl
        · exact .inl h
        · exact .inr (by simp)
      · exact .inr (by simp [h])

/-- A table all of whose imported symbols are identifiers. -/
def Named (t : ImportTable) : Prop :=
  ∀ b ∈ t.bindings, ∀ symbol, b.target = .symbol symbol → IsIdentifier symbol.toList

/-- The table of imports that were read has identifiers only. -/
theorem named_ofTags (file : Option String) {tags : List Tag} (h : ∀ tag ∈ tags, tag.WasRead) :
    (ofTags file tags).1.Named := by
  intro b hb symbol hsymbol
  rcases mem_addAll _ _ b hb with hb | hb
  · simp [empty] at hb
  · obtain ⟨tag, htag, hb⟩ := List.mem_flatMap.1 hb
    unfold bindingsOf at hb
    split at hb
    · rw [List.mem_singleton.1 hb] at hsymbol
      cases hsymbol
    · rename_i specifiers moduleName hbody
      obtain ⟨s, hs, rfl⟩ := List.mem_map.1 hb
      cases hsymbol
      have hnamed := Tag.named_of_wasRead (h tag htag)
      rw [hbody] at hnamed
      exact (hnamed s hs).1
    · cases hb

theorem mem_of_lookup {t : ImportTable} {name : String} {b : Binding} (h : t.lookup name = some b) :
    b ∈ t.bindings :=
  List.mem_of_find?_eq_some h

end ImportTable

end DocSignature

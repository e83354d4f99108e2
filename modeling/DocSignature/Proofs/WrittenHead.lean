import DocSignature.Header.Find
import DocSignature.Header.Writer
import DocSignature.Proofs.HeadShape
import DocSignature.Proofs.Whole

/-!
# Heads and tails of written headers

A written header is a lead up to the opening parenthesis, the joined parameters, and a trail behind
the closing one. The recognisers of its language take the lead for a head, and the trail for all
that belongs to the header in front of a brace.
-/

namespace DocSignature.Header

/-- A text that may stand as a type in a header of a language. -/
structure TypeLike (language : Language) (cs : List Char) : Prop where
  spelled : TypeText.Spelled cs
  chars : ∀ c ∈ cs, language.isTypeChar c = true

/-- A return type that can be written: an empty one is left out. -/
def ReturnLike (language : Language) (returns : Option String) : Prop :=
  ∀ text ∈ returns, text = "" ∨ TypeLike language text.toList

/-! ## Names -/

theorem nameOpen?_identifier {name : List Char} (h : IsIdentifier name) (rest : List Char) :
    nameOpen? (name ++ '(' :: rest) = some (name, rest) := by
  obtain ⟨c, cs, rfl, hc, hcs⟩ := h
  have hname : ∀ d ∈ cs, Text.isNameChar d = true := fun d hd =>
    Text.isNameChar_of_isPlainNameChar (hcs d hd)
  have htake : (cs ++ '(' :: rest).takeWhile Text.isNameChar = cs := by
    rw [List.takeWhile_append_of_pos hname, List.takeWhile_cons_of_neg (by simp),
      List.append_nil]
  have hdrop : (cs ++ '(' :: rest).dropWhile Text.isNameChar = '(' :: rest := by
    rw [List.dropWhile_append_of_pos hname, List.dropWhile_cons_of_neg (by simp)]
  have htrim : Text.trimLeft ('(' :: rest) = '(' :: rest :=
    Text.trimLeft_eq_self (by simp)
  simp only [List.cons_append, nameOpen?, hc, if_true, htake, hdrop, htrim]

/-- No name opens a parenthesis where a bracket closes first. -/
theorem nameOpen?_eq_none {xs : List Char} (hclose : ∃ c ∈ xs, c = ']' ∨ c = '>')
    (hparen : '(' ∉ xs) (rest : List Char) : nameOpen? (Text.trimLeft (xs ++ rest)) = none := by
  rw [Option.eq_none_iff_forall_ne_some]
  rintro ⟨name, more⟩ h
  obtain ⟨blanks, hcs, hb⟩ := Text.eq_blanks_append_trimLeft (xs ++ rest)
  obtain ⟨between, htrim, -, hname, hbetween⟩ := eq_append_of_nameOpen? h
  rw [htrim, ← List.append_assoc] at hcs
  -- All of the text in front of the first parenthesis is names and blanks.
  have hfront : ∀ c ∈ blanks ++ (name ++ between), c ≠ ']' ∧ c ≠ '>' := by
    intro c hc
    have hclass : Text.isNameChar c = true ∨ Text.isBlank c = true := by
      rcases List.mem_append.1 hc with hc | hc
      · exact .inr (hb c hc)
      · rcases List.mem_append.1 hc with hc | hc
        · exact .inl ((hname c hc).elim id Text.isNameChar_of_isNameStart)
        · exact .inr (hbetween c hc)
    constructor <;> (rintro rfl; revert hclass; decide)
  obtain ⟨c, hc, hcc⟩ := hclose
  have hmem : c ∈ blanks ++ (name ++ between) := by
    rcases List.append_eq_append_iff.1 hcs with ⟨t, ht, -⟩ | ⟨t, ht, hrest⟩
    · rw [ht]
      exact List.mem_append_left t hc
    · cases t with
      | nil => simpa [ht] using hc
      | cons d t =>
        cases hrest
        exact absurd (by simp [ht]) hparen
  have := hfront c hmem
  rcases hcc with rfl | rfl
  · exact this.1 rfl
  · exact this.2 rfl

/-- A return type is passed over up to the name behind it. -/
theorem nameBehind?_nest {name : List Char} (hname : IsIdentifier name) (rest : List Char)
    (cs : List Char) :
    ∀ {due}, TypeText.nest due cs = some [] → (∀ c ∈ cs, isReturnChar c = true) →
      nameBehind? (cs ++ ' ' :: (name ++ '(' :: rest)) = some (name, rest) := by
  have hopen : nameOpen? (Text.trimLeft (name ++ '(' :: rest)) = some (name, rest) := by
    obtain ⟨c, more, rfl, hc, -⟩ := id hname
    have hblank : Text.isBlank c = false :=
      Text.isBlank_eq_false_of_isPlainNameChar (Text.isPlainNameChar_of_isNameStart hc)
    rw [Text.trimLeft_eq_self (by simpa using hblank)]
    exact nameOpen?_identifier hname rest
  induction cs with
  | nil =>
    intro due _ _
    rw [List.nil_append, nameBehind?, if_pos Text.isBlank_space, hopen]
    rfl
  | cons c cs ih =>
    intro due h hchars
    obtain ⟨mid, hstep, hrest⟩ := Option.bind_eq_some_iff.1 h
    -- A blank in the type stands in brackets, and no name opens before these are closed.
    have hnone : (if Text.isBlank c then
        nameOpen? (Text.trimLeft (cs ++ ' ' :: (name ++ '(' :: rest))) else none) = none := by
      split
      · rename_i hb
        obtain ⟨-, hdue, rfl⟩ := TypeText.due_of_isBlank hstep hb
        apply nameOpen?_eq_none
        · exact TypeText.close_mem_of_nest cs hrest (List.length_pos_iff.2 hdue)
        · intro hparen
          exact absurd (hchars '(' (by simp [hparen])) (by decide)
      · rfl
    rw [List.cons_append, nameBehind?, hnone, if_pos (hchars c (by simp))]
    exact ih hrest fun d hd => hchars d (by simp [hd])

theorem staticName?_typeLike {type name : List Char} (htype : TypeText.Spelled type)
    (hchars : ∀ c ∈ type, isReturnChar c = true) (hname : IsIdentifier name) (rest : List Char) :
    staticName? (' ' :: (type ++ ' ' :: (name ++ '(' :: rest))) = some (name, rest) := by
  have hhead := htype.trimmed.head
  obtain ⟨c, cs, rfl⟩ := List.exists_cons_of_ne_nil htype.1
  obtain ⟨mid, -, hnest⟩ := Option.bind_eq_some_iff.1 htype.2
  have hblanks : (' ' :: ((c :: cs) ++ ' ' :: (name ++ '(' :: rest))).takeWhile Text.isBlank =
      [' '] := by
    simp [List.takeWhile_cons, hhead c (by simp)]
  have hreturn : returnThenName? ((c :: cs) ++ ' ' :: (name ++ '(' :: rest)) =
      some (name, rest) := by
    rw [List.cons_append, returnThenName?, if_pos (hchars c (by simp))]
    exact nameBehind?_nest hname rest cs hnest fun d hd => hchars d (by simp [hd])
  simp only [staticName?, hblanks, List.length_singleton, List.drop_succ_cons, List.drop_zero,
    List.isEmpty_cons, Bool.false_eq_true, if_false, hreturn]

/-! ## Keywords -/

theorem after?_append (word cs : List Char) : Text.after? word (word ++ cs) = some cs := by
  induction word with
  | nil => rfl
  | cons w word ih => simpa [Text.after?] using ih

theorem keyword?_append (word : String) {cs : List Char}
    (h : ∀ c ∈ cs.head?, Text.isBlank c = false) :
    keyword? word (word.toList ++ ' ' :: cs) = some cs := by
  rw [keyword?, after?_append, Option.bind_some, Text.blanks?, if_pos Text.isBlank_space,
    Text.trimLeft_eq_self h]

theorem identifier_head {name : List Char} (h : IsIdentifier name) (rest : List Char) :
    ∀ c ∈ (name ++ rest).head?, Text.isBlank c = false := by
  obtain ⟨c, cs, rfl, hc, -⟩ := h
  simpa using Text.isBlank_eq_false_of_isPlainNameChar (Text.isPlainNameChar_of_isNameStart hc)

/-! ## Leads -/

/-- What stands in front of the parameters of a header. -/
def lead (language : Language) (name : String) (returns : Option String) (isAsync : Bool) :
    List Char :=
  match language with
  | .python => (if isAsync then "async def " else "def ").toList ++ name.toList
  | .go => "func ".toList ++ name.toList
  | .java | .csharp =>
    "public static ".toList ++ ((typeOr "void" returns).toList ++ ' ' :: name.toList)

/-- What stands behind the parameters of a header. -/
def trail (language : Language) (returns : Option String) : List Char :=
  match language with
  | .python => (returnPart " -> " returns).toList
  | .go => (returnPart " " returns).toList
  | .java | .csharp => []

theorem toList_renderHeader (language : Language) (name : String) (params : List String)
    (returns : Option String) (isAsync : Bool) :
    (renderHeader language name params returns isAsync).toList =
      lead language name returns isAsync ++
        '(' :: (joined (params.map String.toList) ++ ')' :: trail language returns) := by
  have hlist : ("(" ++ ", ".intercalate params ++ ")").toList =
      '(' :: (joined (params.map String.toList) ++ [')']) := by
    rw [String.toList_append, String.toList_append, String.toList_intercalate]
    rfl
  cases language with
  | python =>
    change ((if isAsync then "async def " else "def ") ++ name ++
      ("(" ++ ", ".intercalate params ++ ")") ++ returnPart " -> " returns).toList =
      ((if isAsync then "async def " else "def ").toList ++
        name.toList) ++ '(' :: (joined (params.map String.toList) ++ ')' ::
          (returnPart " -> " returns).toList)
    simp only [String.toList_append, hlist, List.append_assoc, List.cons_append, List.nil_append]
  | go =>
    change ("func " ++ name ++ ("(" ++ ", ".intercalate params ++ ")") ++
      returnPart " " returns).toList = ("func ".toList ++ name.toList) ++
        '(' :: (joined (params.map String.toList) ++ ')' :: (returnPart " " returns).toList)
    simp only [String.toList_append, hlist, List.append_assoc, List.cons_append, List.nil_append]
  | java | csharp =>
    change ("public static " ++ typeOr "void" returns ++ " " ++ name ++
      ("(" ++ ", ".intercalate params ++ ")")).toList =
        ("public static ".toList ++ ((typeOr "void" returns).toList ++ ' ' :: name.toList)) ++
          '(' :: (joined (params.map String.toList) ++ [')'])
    have hspace : " ".toList = [' '] := rfl
    simp only [String.toList_append, hlist, hspace, List.append_assoc, List.cons_append,
      List.nil_append]

theorem spelled_void : TypeText.Spelled "void".toList := by decide

/-- A written return type in front of a name is never empty. -/
theorem typeLike_typeOr_void {language : Language} {returns : Option String}
    (h : ReturnLike language returns) : TypeLike language (typeOr "void" returns).toList := by
  have hvoid : TypeLike language "void".toList :=
    ⟨spelled_void, Text.forall_mem_of_all (by cases language <;> decide)⟩
  cases returns with
  | none => exact hvoid
  | some text =>
    rw [typeOr]
    split
    · exact hvoid
    · rename_i hne
      exact (h text rfl).resolve_left hne

/-- The keywords of a static method, its return type and its name are found. -/
theorem static_found {type name : List Char} (htype : TypeText.Spelled type)
    (hchars : ∀ c ∈ type, isReturnChar c = true) (hname : IsIdentifier name) (rest : List Char) :
    ((keyword? "public" ("public static ".toList ++ (type ++ ' ' :: name) ++ '(' :: rest)).bind
      (Text.after? "static".toList)).bind staticName? = some (name, rest) := by
  have hwords : "public static ".toList ++ (type ++ ' ' :: name) ++ '(' :: rest =
      "public".toList ++ ' ' ::
        ("static".toList ++ ' ' :: (type ++ ' ' :: (name ++ '(' :: rest))) := by
    rw [List.append_assoc, List.append_assoc]
    rfl
  rw [hwords, keyword?_append "public" (by simp; decide), Option.bind_some, after?_append,
    Option.bind_some]
  exact staticName?_typeLike htype hchars hname rest

/-- Only Python marks a function as asynchronous. -/
def marksAsync (language : Language) (isAsync : Bool) : Bool :=
  match language with
  | .python => isAsync
  | .go | .java | .csharp => false

/-- The lead of a written header is recognised as a head. -/
theorem targetHead?_lead (language : Language) {before : Option Char} {name : String}
    {returns : Option String} (isAsync : Bool) (hbefore : mayStart before = true)
    (hname : IsIdentifier name.toList) (hreturns : ReturnLike language returns)
    (rest : List Char) :
    targetHead? language before (lead language name returns isAsync ++ '(' :: rest) =
      some (⟨name, marksAsync language isAsync⟩,
        (lead language name returns isAsync).length + 1) := by
  have hopen := nameOpen?_identifier hname rest
  have hhead := identifier_head hname ('(' :: rest)
  have hresult (isAsync' : Bool) :=
    headOf_append (lead language name returns isAsync) name.toList rest isAsync'
  rw [String.ofList_toList] at hresult
  simp only [targetHead?, hbefore, Bool.not_true, Bool.false_eq_true, if_false]
  cases language with
  | python =>
    have hdef : keyword? "def" ("def".toList ++ ' ' :: (name.toList ++ '(' :: rest)) =
        some (name.toList ++ '(' :: rest) := keyword?_append "def" hhead
    cases isAsync with
    | true =>
      have hlead : lead .python name returns true ++ '(' :: rest =
          "async".toList ++ ' ' :: ("def".toList ++ ' ' :: (name.toList ++ '(' :: rest)) := rfl
      have hasync : optionalKeyword "async" (lead .python name returns true ++ '(' :: rest) =
          (true, "def".toList ++ ' ' :: (name.toList ++ '(' :: rest)) := by
        rw [optionalKeyword, hlead, keyword?_append "async" (by simp; decide)]
      simp only [hasync, hdef, Option.bind_some, hopen]
      exact hresult true
    | false =>
      have hlead : lead .python name returns false ++ '(' :: rest =
          "def".toList ++ ' ' :: (name.toList ++ '(' :: rest) := rfl
      have hasync : optionalKeyword "async" (lead .python name returns false ++ '(' :: rest) =
          (false, "def".toList ++ ' ' :: (name.toList ++ '(' :: rest)) := by
        rw [hlead]
        rfl
      simp only [hasync, hdef, Option.bind_some, hopen]
      exact hresult false
  | go =>
    have hfunc : keyword? "func" (lead .go name returns isAsync ++ '(' :: rest) =
        some (name.toList ++ '(' :: rest) := keyword?_append "func" hhead
    simp only [hfunc, Option.bind_some, hopen]
    exact hresult false
  | java | csharp =>
    have htype := typeLike_typeOr_void hreturns
    have hfound := static_found htype.spelled htype.chars hname rest
    exact (congrArg (headOf _ false) hfound).trans (hresult false)

/-! ## Trails -/

/-- A text that starts with a brace, with blanks in front of it. -/
def BraceAhead (cs : List Char) : Prop := (Text.trimLeft cs).head? = some '{'

instance (cs : List Char) : Decidable (BraceAhead cs) :=
  inferInstanceAs (Decidable (_ = _))

theorem endsBefore_of_braceAhead {marks cs : List Char} (hmark : '{' ∈ marks)
    (h : BraceAhead cs) : endsBefore marks cs = true := by
  obtain ⟨rest, hrest⟩ := List.head?_eq_some_iff.1 h
  simp [endsBefore, hrest, hmark]

theorem untilEnd_of_braceAhead {marks cs : List Char} (hmark : '{' ∈ marks)
    (h : BraceAhead cs) : untilEnd marks cs = 0 := by
  cases cs with
  | nil => rfl
  | cons c cs => simp [untilEnd, endsBefore_of_braceAhead hmark h]

/-- A header does not end inside of its return type. -/
theorem endsBefore_nest {marks : List Char} (hmarks : ∀ c ∈ marks, c = '{' ∨ c = ':')
    (rest : List Char) (cs : List Char) :
    ∀ {due}, TypeText.nest due cs = some [] → cs ≠ [] → endsBefore marks (cs ++ rest) = false := by
  induction cs with
  | nil => intro due _ hne; exact absurd rfl hne
  | cons c cs ih =>
    intro due h _
    obtain ⟨mid, hstep, hrest⟩ := Option.bind_eq_some_iff.1 h
    by_cases hb : Text.isBlank c = true
    · -- A blank inside of brackets is a space, and does not end the line.
      obtain ⟨rfl, hdue, rfl⟩ := TypeText.due_of_isBlank hstep hb
      obtain ⟨d, hd, -⟩ := TypeText.close_mem_of_nest cs hrest (List.length_pos_iff.2 hdue)
      have hspace : endsBefore marks (' ' :: (cs ++ rest)) = endsBefore marks (cs ++ rest) := by
        simp [endsBefore, Text.trimLeft, hb]
      rw [List.cons_append, hspace]
      exact ih hrest (List.ne_nil_of_mem hd)
    · have hc : c ∉ marks := by
        intro hc
        rcases TypeText.mem_of_nest _ h c (by simp) with hmem | hmem
        · rcases hmarks c hc with rfl | rfl <;> exact absurd hmem (by decide)
        · rcases hmarks c hc with rfl | rfl <;> exact absurd hmem (by decide)
      simp [endsBefore, Text.trimLeft, hb, hc]

theorem untilEnd_nest {marks : List Char} (hmarks : ∀ c ∈ marks, c = '{' ∨ c = ':')
    (hmark : '{' ∈ marks) {rest : List Char} (hrest : BraceAhead rest) (cs : List Char) :
    ∀ {due}, TypeText.nest due cs = some [] → untilEnd marks (cs ++ rest) = cs.length := by
  induction cs with
  | nil => intro due _; exact untilEnd_of_braceAhead hmark hrest
  | cons c cs ih =>
    intro due h
    have hends := endsBefore_nest hmarks rest (c :: cs) h (by simp)
    obtain ⟨mid, -, hnest⟩ := Option.bind_eq_some_iff.1 h
    rw [List.cons_append] at hends ⊢
    rw [untilEnd, hends, ih hnest]
    simp [Nat.add_comm]

theorem returnPart_cases {language : Language} {returns : Option String}
    (h : ReturnLike language returns) (sign : String) :
    returnPart sign returns = "" ∨
      ∃ text, returnPart sign returns = sign ++ text ∧ TypeLike language text.toList := by
  cases returns with
  | none => exact .inl rfl
  | some text =>
    rw [returnPart]
    split
    · exact .inl rfl
    · rename_i hne
      exact .inr ⟨text, rfl, (h text rfl).resolve_left hne⟩

/-- A header without a return type ends in front of a brace. -/
theorem tail?_brace (language : Language) {rest : List Char} (hrest : BraceAhead rest) :
    tail? language rest = some 0 := by
  have hends (marks : List Char) (hmark : '{' ∈ marks) : endHere? marks rest = some 0 := by
    rw [endHere?, if_pos (endsBefore_of_braceAhead hmark hrest)]
  obtain ⟨more, hmore⟩ := List.head?_eq_some_iff.1 hrest
  cases language with
  | python => simpa [tail?, hmore] using hends _ (by simp)
  | go =>
    simp only [tail?]
    split
    · rename_i c tail _ hdrop
      split
      · exact hends _ (by simp)
      · rename_i hc
        -- Behind the spaces and tabs there are other blanks or the brace.
        exfalso
        apply hc
        have happend := append_drop_takeWhile (fun c => c == ' ' || c == '\t') rest
        rw [hdrop] at happend
        have hblank : ∀ d ∈ rest.takeWhile (fun c => c == ' ' || c == '\t'),
            Text.isBlank d = true := by
          intro d hd
          have := List.mem_takeWhile_imp hd
          simp only [Bool.or_eq_true, beq_iff_eq] at this
          rcases this with rfl | rfl <;> decide
        rw [← happend, Text.trimLeft_append hblank] at hmore
        by_cases hb : Text.isBlank c = true
        · simp [hb]
        · rw [Text.trimLeft_eq_self (by simpa using hb)] at hmore
          cases hmore
          rfl
    · exact hends _ (by simp)
  | java | csharp => rfl

theorem tail?_arrow {type rest : List Char} (htype : TypeText.Spelled type)
    (hrest : BraceAhead rest) :
    tail? .python (" -> ".toList ++ type ++ rest) = some (" -> ".toList ++ type).length := by
  have harrow : Text.trimLeft (" -> ".toList ++ type ++ rest) =
      '-' :: '>' :: ' ' :: (type ++ rest) := by
    rw [List.append_assoc]
    rfl
  have htrim : Text.trimLeft (' ' :: (type ++ rest)) = type ++ rest := by
    have hhead : ∀ c ∈ (type ++ rest).head?, Text.isBlank c = false := by
      rw [List.head?_append_of_ne_nil _ htype.1]
      exact htype.trimmed.head
    exact (Text.trimLeft_append (by simp : ∀ c ∈ [' '], Text.isBlank c = true) _).trans
      (Text.trimLeft_eq_self hhead)
  have huntil : untilEnd ['{', ':'] (type ++ rest) = type.length :=
    untilEnd_nest (by simp) (by simp) hrest type htype.2
  simp only [tail?, harrow, htrim, huntil]
  have hlength : " -> ".toList.length = 4 := rfl
  simp only [List.length_append, hlength]
  congr 1
  omega

theorem tail?_space {type rest : List Char} (htype : TypeText.Spelled type)
    (hrest : BraceAhead rest) :
    tail? .go (" ".toList ++ type ++ rest) = some (" ".toList ++ type).length := by
  obtain ⟨c, cs, rfl⟩ := List.exists_cons_of_ne_nil htype.1
  obtain ⟨mid, -, hnest⟩ := Option.bind_eq_some_iff.1 htype.2
  have hblank : Text.isBlank c = false := htype.trimmed.head c (by simp)
  have hspaces : (' ' :: c :: (cs ++ rest)).takeWhile (fun c => c == ' ' || c == '\t') = [' '] := by
    have hc : (c == ' ' || c == '\t') = false := by
      rw [Bool.eq_false_iff]
      intro h
      simp only [Bool.or_eq_true, beq_iff_eq] at h
      rcases h with rfl | rfl <;> exact absurd hblank (by decide)
    simp [hc]
  have hstart : (Text.isBlank c || c == '{' || c == '(') = false := by
    have hne : c ≠ '{' ∧ c ≠ '(' := by
      have hmem := TypeText.mem_of_nest _ htype.2 c (by simp)
      constructor <;> (rintro rfl; revert hmem; decide)
    simp [hblank, hne]
  have huntil : untilEnd ['{'] (cs ++ rest) = cs.length :=
    untilEnd_nest (by simp) (by simp) hrest cs hnest
  change tail? .go (' ' :: c :: (cs ++ rest)) = some (' ' :: c :: cs).length
  simp only [tail?, hspaces, List.length_cons, List.length_nil, Nat.zero_add,
    List.drop_succ_cons, List.drop_zero, hstart, huntil, Bool.false_eq_true, if_false]
  congr 1
  omega

/-- The trail of a written header is all that belongs to it. -/
theorem tail?_trail (language : Language) {returns : Option String}
    (hreturns : ReturnLike language returns) {rest : List Char} (hrest : BraceAhead rest) :
    tail? language (trail language returns ++ rest) = some (trail language returns).length := by
  cases language with
  | python =>
    rcases returnPart_cases hreturns " -> " with hnone | ⟨text, hsome, htype⟩
    · simpa [trail, hnone] using tail?_brace .python hrest
    · simpa only [trail, hsome, String.toList_append] using tail?_arrow htype.spelled hrest
  | go =>
    rcases returnPart_cases hreturns " " with hnone | ⟨text, hsome, htype⟩
    · simpa [trail, hnone] using tail?_brace .go hrest
    · simpa only [trail, hsome, String.toList_append] using tail?_space htype.spelled hrest
  | java | csharp => rfl

/-! ## Outlines -/

/-- The parenthesis behind a lead is closed behind the joined parameters. -/
theorem closingParen?_joined (front rest : List Char) {texts : List (List Char)}
    (h : ∀ text ∈ texts, Whole text) :
    closingParen? (front ++ '(' :: (joined texts ++ ')' :: rest)) front.length =
      some (front.length + 1 + (joined texts).length) := by
  have hlevel : Level (joined texts) := level_joined fun text ht => (h text ht).toLevel
  have hparen : Source.isQuote '(' = false ∧ Source.isQuote ')' = false := by decide
  have hpieces : pieces ('(' :: (joined texts ++ ')' :: rest)) =
      .char '(' :: ((joined texts).map .char ++ .char ')' :: pieces rest) := by
    have hopen : pieces ('(' :: (joined texts ++ ')' :: rest)) =
        .char '(' :: pieces (joined texts ++ ')' :: rest) := by
      simp [pieces, piecesFrom, hparen.1]
    have hclose : pieces (')' :: rest) = .char ')' :: pieces rest := by
      simp [pieces, piecesFrom, hparen.2]
    rw [hopen, pieces_append hlevel.quote, hclose]
  have hclosing := hlevel.closing 0 (front.length + 1) (.char ')' :: pieces rest)
  rw [closingParen?, List.drop_left, hpieces]
  simpa [closingAt?, opens, closes] using hclosing

/-- A written header with a brace behind it, as it is outlined from its lead. -/
theorem outline?_renderHeader (language : Language) (front : List Char) (name : String)
    {params : List String} {returns : Option String} (isAsync : Bool) (head : Head)
    (hparams : ∀ text ∈ params, Whole text.toList) (hreturns : ReturnLike language returns)
    {rest : List Char} (hrest : BraceAhead rest) :
    outline?
        (front ++ ((renderHeader language name params returns isAsync).toList ++ rest))
        (tail? language)
        ⟨front.length, front.length + ((lead language name returns isAsync).length + 1), head⟩ =
      some ⟨front.length,
        front.length + (renderHeader language name params returns isAsync).toList.length, head,
        joined (params.map String.toList)⟩ := by
  have hwhole : ∀ text ∈ params.map String.toList, Whole text := by
    intro text ht
    obtain ⟨p, hp, rfl⟩ := List.mem_map.1 ht
    exact hparams p hp
  rw [toList_renderHeader]
  generalize hopening : lead language name returns isAsync = opening
  generalize hlist : joined (params.map String.toList) = list
  have htext : front ++ (opening ++ '(' :: (list ++ ')' :: trail language returns) ++ rest) =
      (front ++ opening) ++ '(' :: (list ++ ')' :: (trail language returns ++ rest)) := by
    simp
  have hclose := closingParen?_joined (front ++ opening) (trail language returns ++ rest) hwhole
  rw [hlist] at hclose
  -- The text behind the parenthesis is the list, its end and the trail.
  have hopen : ((front ++ opening) ++ '(' :: (list ++ ')' :: (trail language returns ++ rest))).drop
      ((front ++ opening).length + 1) = list ++ ')' :: (trail language returns ++ rest) := by
    rw [← List.drop_drop, List.drop_left, List.drop_succ_cons, List.drop_zero]
  have htail : ((front ++ opening) ++ '(' :: (list ++ ')' :: (trail language returns ++ rest))).drop
      ((front ++ opening).length + 1 + list.length + 1) = trail language returns ++ rest := by
    rw [Nat.add_assoc, ← List.drop_drop, hopen, ← List.drop_drop, List.drop_left,
      List.drop_succ_cons, List.drop_zero]
  have hslice : Source.slice
      ((front ++ opening) ++ '(' :: (list ++ ')' :: (trail language returns ++ rest)))
      ((front ++ opening).length + 1) ((front ++ opening).length + 1 + list.length) = list := by
    rw [Source.slice, hopen, Nat.add_sub_cancel_left, List.take_left]
  have hstop : front.length + (opening.length + 1) = (front ++ opening).length + 1 := by
    rw [List.length_append, Nat.add_assoc]
  rw [htext, outline?, hstop, Nat.add_sub_cancel, hclose]
  simp only [htail, tail?_trail language hreturns hrest, Option.map_some, hslice]
  simp only [List.length_append, List.length_cons, Option.some.injEq, Outline.mk.injEq, and_true,
    true_and]
  omega

end DocSignature.Header

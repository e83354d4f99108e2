import DocSignature.Header.Form
import DocSignature.Proofs.Blank
import DocSignature.Proofs.CharClass
import DocSignature.Proofs.Search

/-!
# The shape of heads

A recognised head is a run of words, blanks and type characters that ends with the first parenthesis
of the text. Each reader of a part of a head is described by the text it takes off.
-/

namespace DocSignature.Header

/-! ## Parts of a head -/

theorem eq_append_of_after? {word cs rest : List Char} (h : Text.after? word cs = some rest) :
    cs = word ++ rest := by
  induction word generalizing cs with
  | nil => simpa [Text.after?] using h
  | cons w word ih =>
    cases cs with
    | nil => simp [Text.after?] at h
    | cons c cs =>
      simp only [Text.after?] at h
      split at h
      · rename_i hw
        rw [hw, ih h]
        rfl
      · cases h

theorem append_drop_takeWhile (p : Char → Bool) (cs : List Char) :
    cs.takeWhile p ++ cs.drop (cs.takeWhile p).length = cs := by
  conv_lhs => arg 2; arg 2; rw [← List.takeWhile_append_dropWhile (p := p) (l := cs)]
  rw [List.drop_left, List.takeWhile_append_dropWhile]

theorem eq_append_of_blanks? {cs rest : List Char} (h : Text.blanks? cs = some rest) :
    ∃ blanks, cs = blanks ++ rest ∧ blanks ≠ [] ∧ ∀ c ∈ blanks, Text.isBlank c = true := by
  cases cs with
  | nil => simp [Text.blanks?] at h
  | cons c cs =>
    simp only [Text.blanks?] at h
    split at h
    · rename_i hc
      cases h
      obtain ⟨blanks, hcs, hb⟩ := Text.eq_blanks_append_trimLeft cs
      exact ⟨c :: blanks, by rw [List.cons_append, ← hcs], by simp, by simpa [hc] using hb⟩
    · cases h

theorem eq_append_of_keyword? {word : String} {cs rest : List Char}
    (h : keyword? word cs = some rest) :
    ∃ blanks, cs = word.toList ++ blanks ++ rest ∧ blanks ≠ [] ∧
      ∀ c ∈ blanks, Text.isBlank c = true := by
  obtain ⟨mid, hmid, hrest⟩ := Option.bind_eq_some_iff.1 h
  obtain ⟨blanks, rfl, hne, hb⟩ := eq_append_of_blanks? hrest
  exact ⟨blanks, by rw [eq_append_of_after? hmid, List.append_assoc], hne, hb⟩

/-- A name, and the opening parenthesis behind it. -/
theorem eq_append_of_nameOpen? {cs name rest : List Char} (h : nameOpen? cs = some (name, rest)) :
    ∃ blanks, cs = name ++ blanks ++ '(' :: rest ∧ name ≠ [] ∧
      (∀ c ∈ name, Text.isNameChar c = true ∨ Text.isNameStart c = true) ∧
      ∀ c ∈ blanks, Text.isBlank c = true := by
  cases cs with
  | nil => simp [nameOpen?] at h
  | cons c cs =>
    simp only [nameOpen?] at h
    split at h
    · rename_i hc
      split at h
      · rename_i more hmore
        cases h
        obtain ⟨blanks, hcs, hb⟩ := Text.eq_blanks_append_trimLeft (cs.dropWhile Text.isNameChar)
        rw [hmore] at hcs
        refine ⟨blanks, ?_, by simp, ?_, hb⟩
        · rw [List.cons_append, List.cons_append, List.append_assoc, ← hcs,
            List.takeWhile_append_dropWhile]
        · intro d hd
          rcases List.mem_cons.1 hd with rfl | hd
          · exact .inr hc
          · exact .inl (List.mem_takeWhile_imp hd)
      · cases h
    · cases h

/-! ## Whole heads -/

/-- Holds of a character that may stand in a head before its parenthesis. -/
def isHeadChar (c : Char) : Bool :=
  isReturnChar c || Text.isBlank c || c == '*'

/-- A head at the start of a text: head characters up to the first parenthesis, and `rest` behind
it. -/
def Opens (cs rest : List Char) : Prop :=
  ∃ before, cs = before ++ '(' :: rest ∧ ∀ c ∈ before, isHeadChar c = true

theorem isHeadChar_of_isBlank {c : Char} (h : Text.isBlank c = true) : isHeadChar c = true := by
  simp [isHeadChar, h]

theorem isHeadChar_of_isReturnChar {c : Char} (h : isReturnChar c = true) :
    isHeadChar c = true := by
  simp [isHeadChar, h]

theorem isHeadChar_of_isNameChar {c : Char} (h : Text.isNameChar c = true) :
    isHeadChar c = true := by
  simp [isHeadChar, isReturnChar, h]

/-- A head goes on to the left over head characters. -/
theorem Opens.append {cs rest : List Char} (h : Opens cs rest) {xs : List Char}
    (hx : ∀ c ∈ xs, isHeadChar c = true) : Opens (xs ++ cs) rest := by
  obtain ⟨before, rfl, hb⟩ := h
  refine ⟨xs ++ before, by rw [List.append_assoc], ?_⟩
  intro c hc
  rcases List.mem_append.1 hc with hc | hc
  · exact hx c hc
  · exact hb c hc

theorem Opens.cons {cs rest : List Char} (h : Opens cs rest) {c : Char} (hc : isHeadChar c = true) :
    Opens (c :: cs) rest :=
  h.append (by simpa using hc : ∀ d ∈ [c], isHeadChar d = true)

theorem opens_of_nameOpen? {cs name rest : List Char} (h : nameOpen? cs = some (name, rest)) :
    Opens cs rest := by
  obtain ⟨blanks, rfl, -, hn, hb⟩ := eq_append_of_nameOpen? h
  refine ⟨name ++ blanks, rfl, ?_⟩
  intro c hc
  rcases List.mem_append.1 hc with hc | hc
  · exact isHeadChar_of_isNameChar ((hn c hc).elim id Text.isNameChar_of_isNameStart)
  · exact isHeadChar_of_isBlank (hb c hc)

theorem opens_of_keyword? {word : String} {cs rest more : List Char}
    (hw : ∀ c ∈ word.toList, isHeadChar c = true) (h : keyword? word cs = some rest)
    (ho : Opens rest more) : Opens cs more := by
  obtain ⟨blanks, rfl, -, hb⟩ := eq_append_of_keyword? h
  rw [List.append_assoc]
  exact (ho.append fun c hc => isHeadChar_of_isBlank (hb c hc)).append hw

theorem opens_of_optionalKeyword (word : String) {cs more : List Char}
    (hw : ∀ c ∈ word.toList, isHeadChar c = true) (ho : Opens (optionalKeyword word cs).2 more) :
    Opens cs more := by
  unfold optionalKeyword at ho
  split at ho
  · rename_i rest h
    exact opens_of_keyword? hw h ho
  · exact ho

theorem opens_of_trimLeft {cs more : List Char} (ho : Opens (Text.trimLeft cs) more) :
    Opens cs more := by
  obtain ⟨blanks, hcs, hb⟩ := Text.eq_blanks_append_trimLeft cs
  rw [hcs]
  exact ho.append fun c hc => isHeadChar_of_isBlank (hb c hc)

theorem opens_of_functionWord? {cs rest more : List Char} (h : functionWord? cs = some rest)
    (ho : Opens rest more) : Opens cs more := by
  unfold functionWord? at h
  split at h
  · cases h
  · rename_i behind hbehind
    rw [eq_append_of_after? hbehind]
    refine Opens.append ?_ (Text.forall_mem_of_all (by decide))
    split at h
    · cases h
    · apply opens_of_trimLeft
      split at h
      · rename_i starred hstar
        cases h
        rw [hstar]
        exact (opens_of_trimLeft ho).cons (by decide)
      · cases h
        exact ho

theorem opens_of_nameBehind? {cs name more : List Char}
    (h : nameBehind? cs = some (name, more)) : Opens cs more := by
  induction cs with
  | nil => simp [nameBehind?] at h
  | cons c cs ih =>
    rw [nameBehind?, Option.orElse_eq_or, Option.or_eq_some_iff] at h
    rcases h with h | ⟨-, h⟩
    · split at h
      · rename_i hc
        exact (opens_of_trimLeft (opens_of_nameOpen? h)).cons (isHeadChar_of_isBlank hc)
      · cases h
    · split at h
      · rename_i hc
        exact (ih h).cons (isHeadChar_of_isReturnChar hc)
      · cases h

theorem opens_of_returnThenName? {cs name more : List Char}
    (h : returnThenName? cs = some (name, more)) : Opens cs more := by
  cases cs with
  | nil => simp [returnThenName?] at h
  | cons c cs =>
    simp only [returnThenName?] at h
    split at h
    · rename_i hc
      exact (opens_of_nameBehind? h).cons (isHeadChar_of_isReturnChar hc)
    · cases h

theorem opens_of_staticName? {cs name more : List Char}
    (h : staticName? cs = some (name, more)) : Opens cs more := by
  rw [← append_drop_takeWhile Text.isBlank cs]
  refine Opens.append ?_ fun c hc => isHeadChar_of_isBlank (List.mem_takeWhile_imp hc)
  simp only [staticName?] at h
  split at h
  · cases h
  · split at h
    · rename_i found hfound
      cases h
      exact opens_of_returnThenName? hfound
    · split at h
      · exact opens_of_nameOpen? h
      · cases h

/-! ## Whole heads -/

theorem headOf_eq_some {cs : List Char} {isAsync : Bool} {found : Option (List Char × List Char)}
    {head : Head} {size : Nat} (h : headOf cs isAsync found = some (head, size)) :
    ∃ name rest, found = some (name, rest) ∧ head = ⟨String.ofList name, isAsync⟩ ∧
      size = cs.length - rest.length := by
  obtain ⟨⟨name, rest⟩, hfound, heq⟩ := Option.map_eq_some_iff.1 h
  cases heq
  exact ⟨name, rest, hfound, rfl, rfl⟩

theorem headOf_append (front name rest : List Char) (isAsync : Bool) :
    headOf (front ++ '(' :: rest) isAsync (some (name, rest)) =
      some (⟨String.ofList name, isAsync⟩, front.length + 1) := by
  simp only [headOf, Option.map_some, List.length_append, List.length_cons]
  congr 2
  omega

/-- What a recogniser of heads answers: the head goes up to and includes the first parenthesis. -/
def Heads (find : Text.Recogniser Head) : Prop :=
  ∀ before cs head size, find before cs = some (head, size) →
    ∃ rest, Opens cs rest ∧ size = cs.length - rest.length

theorem heads_source : Heads sourceHead? := by
  intro before cs head size h
  simp only [sourceHead?] at h
  split at h
  · cases h
  · obtain ⟨name, rest, hfound, -, hsize⟩ := headOf_eq_some h
    refine ⟨rest, ?_, hsize⟩
    obtain ⟨behind, hfun, hname⟩ := Option.bind_eq_some_iff.1 hfound
    have ho := opens_of_optionalKeyword "async" (Text.forall_mem_of_all (by decide))
      (opens_of_functionWord? hfun (opens_of_nameOpen? hname))
    refine opens_of_optionalKeyword "export" (Text.forall_mem_of_all (by decide)) ?_
    split at ho
    · exact opens_of_optionalKeyword "default" (Text.forall_mem_of_all (by decide)) ho
    · exact ho

theorem heads_target (language : Language) : Heads (targetHead? language) := by
  intro before cs head size h
  simp only [targetHead?] at h
  split at h
  · cases h
  · cases language with
    | python =>
      obtain ⟨name, rest, hfound, -, hsize⟩ := headOf_eq_some h
      obtain ⟨behind, hdef, hname⟩ := Option.bind_eq_some_iff.1 hfound
      exact ⟨rest, opens_of_optionalKeyword "async" (Text.forall_mem_of_all (by decide))
        (opens_of_keyword? (Text.forall_mem_of_all (by decide)) hdef (opens_of_nameOpen? hname)),
        hsize⟩
    | go =>
      obtain ⟨name, rest, hfound, -, hsize⟩ := headOf_eq_some h
      obtain ⟨behind, hfunc, hname⟩ := Option.bind_eq_some_iff.1 hfound
      exact ⟨rest, opens_of_keyword? (Text.forall_mem_of_all (by decide)) hfunc
        (opens_of_nameOpen? hname), hsize⟩
    | java | csharp =>
      obtain ⟨name, rest, hfound, -, hsize⟩ := headOf_eq_some h
      obtain ⟨behind, hstatic, hname⟩ := Option.bind_eq_some_iff.1 hfound
      obtain ⟨more, hpublic, hafter⟩ := Option.bind_eq_some_iff.1 hstatic
      refine ⟨rest, opens_of_keyword? (Text.forall_mem_of_all (by decide)) hpublic ?_, hsize⟩
      rw [eq_append_of_after? hafter]
      exact (opens_of_staticName? hname).append (Text.forall_mem_of_all (by decide))

theorem Heads.sized {find : Text.Recogniser Head} (hf : Heads find) : Text.Sized find := by
  intro before cs head size h
  obtain ⟨rest, ⟨word, rfl, -⟩, rfl⟩ := hf before cs head size h
  simp only [List.length_append, List.length_cons]
  omega

theorem Heads.paren_mem {find : Text.Recogniser Head} (hf : Heads find) (before : Option Char)
    (cs : List Char) (r : Head × Nat) (h : find before cs = some r) : '(' ∈ cs := by
  obtain ⟨rest, ⟨word, rfl, -⟩, -⟩ := hf before cs r.1 r.2 h
  simp

end DocSignature.Header

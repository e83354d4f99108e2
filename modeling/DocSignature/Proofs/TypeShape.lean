import DocSignature.Header.Form
import DocSignature.Language.Policy
import DocSignature.Proofs.Blank
import DocSignature.Proofs.Identifier
import DocSignature.TypeText

/-!
# The shape of spelled types

What a policy keeps of names, arrays and unions it keeps of every spelled type. With the policies of
the four languages, the brackets of a spelled type are properly nested, and blanks and commas stand
only inside of them.
-/

namespace DocSignature

/-! ## What a policy keeps -/

/-- A property of texts that holds of names and of what a policy spells without arrays and unions,
and that arrays and unions keep. -/
structure NamingPolicy.Keeps (p : NamingPolicy) (Q : String → Prop) : Prop where
  name : ∀ r : TypeRef, r.Named → Q r.text
  entry : ∀ key text, p.lookup key = some (some text) → Q text
  fallback : Q p.fallback
  array : ∀ text, Q text → Q (p.array text)
  union : ∀ texts, (∀ text ∈ texts, Q text) → Q (p.union texts)

namespace TypeText

section Keeps
variable {p : NamingPolicy} {Q : String → Prop} {table : ImportTable} (file : Option String)

theorem keeps_spell (hp : p.Keeps Q) {r : TypeRef} (hr : r.Named) : Q (p.spell r.text) := by
  unfold NamingPolicy.spell
  split
  · exact hp.name r hr
  · rename_i text h
    exact hp.entry _ _ h
  · exact hp.fallback

theorem keeps_spell_identifier (hp : p.Keeps Q) {name : String} (h : IsIdentifier name.toList) :
    Q (p.spell name) := by
  have hr : (⟨.first, name, []⟩ : TypeRef).Named := ⟨h, by simp⟩
  simpa [TypeRef.text] using keeps_spell hp hr

theorem keeps_emitRef (hp : p.Keeps Q) (ht : table.Named) {r : TypeRef} (hr : r.Named) :
    Q (emitRef p file r (Resolved.resolveRef table file r).1).1 := by
  unfold Resolved.resolveRef
  split
  · simp only [emitRef]
    split
    · exact keeps_spell hp hr
    · exact hp.name r hr
  · rename_i b hlookup
    split
    · rename_i symbol hsymbol _
      exact keeps_spell_identifier hp (ht b (ImportTable.mem_of_lookup hlookup) symbol hsymbol)
    · exact hp.name r hr
    · exact hp.name r hr
    · rename_i first more _ hrest
      apply keeps_spell_identifier hp
      apply hr.2
      rw [hrest]
      exact List.getLastD_mem_cons ..

mutual

theorem keeps_emit (hp : p.Keeps Q) (ht : table.Named) :
    ∀ e : TypeExpr, e.Named → Q (emit p file (Resolved.resolve table file e).1).1
  | .ref r, he => keeps_emitRef file hp ht (he r (by simp [TypeExpr.refs]))
  | .array _ element, he => hp.array _ (keeps_emit hp ht element he)
  | .union _ members, he => hp.union _ (keeps_emitAll hp ht members he)

theorem keeps_emitAll (hp : p.Keeps Q) (ht : table.Named) :
    ∀ es : List TypeExpr, (∀ r ∈ TypeExpr.refsOf es, r.Named) →
      ∀ text ∈ (emitAll p file (Resolved.resolveAll table file es).1).1, Q text
  | [], _ => by simp [Resolved.resolveAll, emitAll]
  | e :: es, he => by
    have hhead : e.Named := fun r hr => he r (by simp [TypeExpr.refsOf, hr])
    have hrest : ∀ r ∈ TypeExpr.refsOf es, r.Named := fun r hr =>
      he r (by simp [TypeExpr.refsOf, hr])
    intro text htext
    simp only [Resolved.resolveAll, emitAll, List.mem_cons] at htext
    rcases htext with rfl | htext
    · exact keeps_emit hp ht e hhead
    · exact keeps_emitAll hp ht es hrest text htext

end

/-- What a policy keeps holds of every spelled type. -/
theorem keeps_ofExpr (hp : p.Keeps Q) (ht : table.Named) {e : TypeExpr} (he : e.Named) :
    Q (ofExpr table p file e).1 :=
  keeps_emit file hp ht e he

end Keeps

end TypeText

/-! ## Nested brackets -/

namespace TypeText

/-- Holds of a character of a type that is neither a bracket nor a separator. -/
def isMark (c : Char) : Bool :=
  Text.isPlainNameChar c || c == '.' || c == '*'

/-- The closing brackets that are due after a character, when `due` were due before it. Commas and
spaces may stand only where one is due. -/
def nestStep (due : List Char) (c : Char) : Option (List Char) :=
  if c = '[' then some (']' :: due)
  else if c = '<' then some ('>' :: due)
  else if c = ']' || c = '>' then
    match due with
    | top :: rest => if top = c then some rest else none
    | [] => none
  else if c = ',' || c = ' ' then (if due = [] then none else some due)
  else if isMark c then some due
  else none

/-- The closing brackets that are due after a text. -/
def nest (due : List Char) : List Char → Option (List Char)
  | [] => some due
  | c :: cs => (nestStep due c).bind fun due' => nest due' cs

/-- A text that is not empty, with properly nested brackets. -/
def Spelled (cs : List Char) : Prop := cs ≠ [] ∧ nest [] cs = some []

instance (cs : List Char) : Decidable (Spelled cs) :=
  inferInstanceAs (Decidable (_ ∧ _))

theorem nest_append (xs ys : List Char) :
    ∀ due, nest due (xs ++ ys) = (nest due xs).bind fun due' => nest due' ys := by
  induction xs with
  | nil => intro due; rfl
  | cons x xs ih =>
    intro due
    simp only [List.cons_append, nest]
    cases nestStep due x with
    | none => rfl
    | some due' => simpa using ih due'

/-- What one character of a nested text can do. -/
theorem nestStep_cases {due due' : List Char} {c : Char} (h : nestStep due c = some due') :
    (c = '[' ∧ due' = ']' :: due) ∨ (c = '<' ∧ due' = '>' :: due) ∨
      ((c = ']' ∨ c = '>') ∧ due = c :: due') ∨
      ((c = ',' ∨ c = ' ') ∧ due ≠ [] ∧ due' = due) ∨ (isMark c = true ∧ due' = due) := by
  unfold nestStep at h
  split at h
  · rename_i hc
    cases h
    exact .inl ⟨hc, rfl⟩
  · split at h
    · rename_i hc
      cases h
      exact .inr (.inl ⟨hc, rfl⟩)
    · split at h
      · rename_i hc
        split at h
        · split at h
          · rename_i htop
            cases h
            exact .inr (.inr (.inl ⟨by simpa using hc, by rw [htop]⟩))
          · cases h
        · cases h
      · split at h
        · rename_i hc
          split at h
          · cases h
          · rename_i hd
            cases h
            exact .inr (.inr (.inr (.inl ⟨by simpa using hc, hd, rfl⟩)))
        · split at h
          · rename_i hc
            cases h
            exact .inr (.inr (.inr (.inr ⟨hc, rfl⟩)))
          · cases h

theorem nestStep_of_isMark {c : Char} (h : isMark c = true) (due : List Char) :
    nestStep due c = some due := by
  have hne : c ≠ '[' ∧ c ≠ '<' ∧ c ≠ ']' ∧ c ≠ '>' ∧ c ≠ ',' ∧ c ≠ ' ' := by
    refine ⟨?_, ?_, ?_, ?_, ?_, ?_⟩ <;> (rintro rfl; revert h; decide)
  simp [nestStep, hne, h]

/-- What is due further out does not matter. -/
theorem nestStep_append {due due' : List Char} {c : Char} (h : nestStep due c = some due')
    (base : List Char) : nestStep (due ++ base) c = some (due' ++ base) := by
  rcases nestStep_cases h with ⟨rfl, rfl⟩ | ⟨rfl, rfl⟩ | ⟨rfl | rfl, rfl⟩ | ⟨rfl | rfl, hd, rfl⟩ |
    ⟨hc, rfl⟩
  · rfl
  · rfl
  · rfl
  · rfl
  · simp [nestStep, hd]
  · simp [nestStep, hd]
  · exact nestStep_of_isMark hc _

theorem nest_append_due (cs : List Char) :
    ∀ {due due'}, nest due cs = some due' →
      ∀ base, nest (due ++ base) cs = some (due' ++ base) := by
  induction cs with
  | nil => intro due due' h base; cases h; rfl
  | cons c cs ih =>
    intro due due' h base
    obtain ⟨mid, hstep, hrest⟩ := Option.bind_eq_some_iff.1 h
    simp only [nest, nestStep_append hstep, Option.bind_some]
    exact ih hrest base

theorem Spelled.nest_eq {cs : List Char} (h : Spelled cs) (due : List Char) :
    nest due cs = some due := by
  simpa using nest_append_due cs h.2 due

theorem nest_of_marks {cs : List Char} (h : ∀ c ∈ cs, isMark c = true) (due : List Char) :
    nest due cs = some due := by
  induction cs with
  | nil => rfl
  | cons c cs ih =>
    simp only [nest, nestStep_of_isMark (h c (by simp)), Option.bind_some]
    exact ih fun d hd => h d (by simp [hd])

/-- The characters of a nested text. -/
theorem mem_of_nest (cs : List Char) :
    ∀ {due due'}, nest due cs = some due' → ∀ c ∈ cs, c ∈ "[]<>, ".toList ∨ isMark c = true := by
  induction cs with
  | nil => intro due due' h c hc; cases hc
  | cons d cs ih =>
    intro due due' h c hc
    obtain ⟨mid, hstep, hrest⟩ := Option.bind_eq_some_iff.1 h
    rcases List.mem_cons.1 hc with rfl | hc
    · rcases nestStep_cases hstep with ⟨rfl, -⟩ | ⟨rfl, -⟩ | ⟨rfl | rfl, -⟩ |
        ⟨rfl | rfl, -, -⟩ | ⟨hc, -⟩
      case inr.inr.inr.inr => exact .inr hc
      all_goals exact .inl (by decide)
    · exact ih hrest c hc

/-- A bracket that is due is closed. -/
theorem close_mem_of_nest (cs : List Char) :
    ∀ {due due'}, nest due cs = some due' → due'.length < due.length →
      ∃ c ∈ cs, c = ']' ∨ c = '>' := by
  induction cs with
  | nil =>
    intro due due' h hlt
    cases h
    omega
  | cons d cs ih =>
    intro due due' h hlt
    obtain ⟨mid, hstep, hrest⟩ := Option.bind_eq_some_iff.1 h
    have later (hle : due.length ≤ mid.length) : ∃ c ∈ d :: cs, c = ']' ∨ c = '>' := by
      obtain ⟨c, hc, hclose⟩ := ih hrest (by omega)
      exact ⟨c, by simp [hc], hclose⟩
    rcases nestStep_cases hstep with ⟨-, rfl⟩ | ⟨-, rfl⟩ | ⟨hd, -⟩ | ⟨-, -, rfl⟩ | ⟨-, rfl⟩
    · exact later (by simp)
    · exact later (by simp)
    · exact ⟨d, by simp, hd⟩
    · exact later le_rfl
    · exact later le_rfl

theorem isBlank_of_isMark {c : Char} (h : isMark c = true) : Text.isBlank c = false := by
  simp only [isMark, Bool.or_eq_true, beq_iff_eq] at h
  rcases h with (h | rfl) | rfl
  · exact Text.isBlank_eq_false_of_isPlainNameChar h
  · decide
  · decide

/-- A blank stands only where a bracket is due. -/
theorem due_of_isBlank {due due' : List Char} {c : Char} (h : nestStep due c = some due')
    (hb : Text.isBlank c = true) : c = ' ' ∧ due ≠ [] ∧ due' = due := by
  rcases nestStep_cases h with ⟨rfl, -⟩ | ⟨rfl, -⟩ | ⟨rfl | rfl, -⟩ | ⟨rfl | rfl, hd, rfl⟩ |
    ⟨hc, -⟩
  case inr.inr.inr.inl.inr => exact ⟨rfl, hd, rfl⟩
  case inr.inr.inr.inr => rw [isBlank_of_isMark hc] at hb; cases hb
  all_goals exact absurd hb (by decide)

theorem Spelled.trimmed {cs : List Char} (h : Spelled cs) : Text.Trimmed cs := by
  refine ⟨h.1, ?_, ?_⟩
  · intro c hc
    obtain ⟨rest, rfl⟩ := List.head?_eq_some_iff.1 hc
    obtain ⟨mid, hstep, -⟩ := Option.bind_eq_some_iff.1 h.2
    by_contra hb
    exact (due_of_isBlank hstep (by simpa using hb)).2.1 rfl
  · intro c hc
    obtain ⟨init, rfl⟩ := List.getLast?_eq_some_iff.1 hc
    have hnest := h.2
    rw [nest_append] at hnest
    obtain ⟨mid, -, hlast⟩ := Option.bind_eq_some_iff.1 hnest
    obtain ⟨due, hstep, hnil⟩ := Option.bind_eq_some_iff.1 hlast
    cases hnil
    by_contra hb
    obtain ⟨-, hne, heq⟩ := due_of_isBlank hstep (by simpa using hb)
    exact hne heq.symm

/-! ## The parts of a spelled type -/

theorem isMark_of_isIdentifier {name : List Char} (h : IsIdentifier name) :
    ∀ c ∈ name, isMark c = true := by
  intro c hc
  simp [isMark, h.plain c hc]

/-- The characters of a dotted name. -/
theorem mem_text {r : TypeRef} (hr : r.Named) {c : Char} (hc : c ∈ r.text.toList) :
    c = '.' ∨ Text.isPlainNameChar c = true := by
  rw [TypeRef.text, String.toList_intercalate] at hc
  rcases Text.mem_intercalate hc with hc | ⟨xs, hxs, hc⟩
  · exact .inl (by simpa using hc)
  · obtain ⟨part, hpart, rfl⟩ := List.mem_map.1 hxs
    rcases List.mem_cons.1 hpart with rfl | hpart
    · exact .inr (hr.1.plain c hc)
    · exact .inr ((hr.2 part hpart).plain c hc)

theorem text_ne_nil {r : TypeRef} (hr : r.Named) : r.text.toList ≠ [] := by
  obtain ⟨first, more, hbase, -, -⟩ := hr.1
  rw [TypeRef.text, String.toList_intercalate, List.map_cons, hbase]
  cases r.rest with
  | nil => simp
  | cons m ms => simp [List.intercalate_cons_cons]

theorem spelled_text {r : TypeRef} (hr : r.Named) : Spelled r.text.toList := by
  refine ⟨text_ne_nil hr, nest_of_marks (fun c hc => ?_) []⟩
  rcases mem_text hr hc with rfl | hc
  · rfl
  · simp [isMark, hc]

theorem toList_fill_append (t u : Template) (argument : String) :
    (Template.fill (t ++ u) argument).toList =
      (t.fill argument).toList ++ (u.fill argument).toList := by
  simp [Template.fill]

theorem toList_fill_ofText (text argument : String) :
    ((Template.ofText text).fill argument).toList = text.toList := by
  rw [Template.ofText]
  induction text.toList with
  | nil => rfl
  | cons c cs ih =>
    rw [List.map_cons, ← List.singleton_append, toList_fill_append, ih]
    simp [Template.fill]

theorem toList_fill_around (before after argument : String) :
    ((Template.around before after).fill argument).toList =
      before.toList ++ argument.toList ++ after.toList := by
  rw [Template.around, ← List.singleton_append, toList_fill_append, toList_fill_append,
    toList_fill_ofText, toList_fill_ofText, List.append_assoc]
  simp [Template.fill]

/-- Spelled types with separators between them stay inside of brackets. -/
theorem nest_intercalate {due sep : List Char} (hsep : nest due sep = some due)
    {xss : List (List Char)} (h : ∀ xs ∈ xss, Spelled xs) :
    nest due (sep.intercalate xss) = some due := by
  induction xss with
  | nil => rfl
  | cons xs xss ih =>
    have ih := ih fun ys hys => h ys (by simp [hys])
    cases xss with
    | nil => simpa using (h xs (by simp)).nest_eq due
    | cons ys yss =>
      rw [List.intercalate_cons_cons, nest_append, nest_append, (h xs (by simp)).nest_eq,
        Option.bind_some, hsep, Option.bind_some, ih]

end TypeText

namespace NamingPolicy

theorem mem_distinctFrom (xs : List String) :
    ∀ seen, ∀ x ∈ distinctFrom seen xs, x ∈ xs := by
  induction xs with
  | nil => intro seen x hx; cases hx
  | cons y ys ih =>
    intro seen x hx
    simp only [distinctFrom] at hx
    split at hx
    · exact List.mem_cons_of_mem _ (ih seen x hx)
    · rcases List.mem_cons.1 hx with rfl | hx
      · simp
      · exact List.mem_cons_of_mem _ (ih _ x hx)

/-- A union is one of its members, the stand-in, or the template around distinct members. -/
theorem union_cases (p : NamingPolicy) (texts : List String) :
    p.union texts ∈ texts ∨ p.union texts = p.fallback ∨
      ∃ template several, p.unionTemplate = some template ∧ (∀ text ∈ several, text ∈ texts) ∧
        p.union texts = template.fill (p.unionSeparator.intercalate several) := by
  unfold union
  have hmem := mem_distinctFrom texts []
  split
  · rename_i member h
    exact .inl (hmem member (by rw [← distinct, h]; simp))
  · split
    · exact .inr (.inl rfl)
    · rename_i template htemplate
      exact .inr (.inr ⟨template, _, htemplate, hmem, rfl⟩)

end NamingPolicy

/-! ## The four languages -/

theorem Dictionary.mem_of_get? {α : Type} {key : String} {value : α} {d : Dictionary α}
    (h : Dictionary.get? key d = some value) : (key, value) ∈ d := by
  induction d with
  | nil => cases h
  | cons entry d ih =>
    obtain ⟨k, v⟩ := entry
    simp only [get?] at h
    split at h
    · rename_i hk
      cases h
      simp [hk]
    · simp [ih h]

namespace Language

/-- An entry of a builtin policy stands in its table. -/
theorem mem_builtins {language : Language} {key text : String}
    (h : language.policy.lookup key = some (some text)) :
    (key, some text) ∈ language.policy.builtins := by
  have hnone : language.policy.overrides = [] := by cases language <;> rfl
  rw [NamingPolicy.lookup, hnone] at h
  exact Dictionary.mem_of_get? h

theorem spelled_builtins (language : Language) :
    ∀ entry ∈ language.policy.builtins, ∀ text ∈ entry.2, TypeText.Spelled text.toList := by
  cases language <;> decide +kernel

theorem spelled_fallback (language : Language) :
    TypeText.Spelled language.policy.fallback.toList := by
  cases language <;> decide +kernel

theorem spelled_array (language : Language) {text : String} (h : TypeText.Spelled text.toList) :
    TypeText.Spelled (language.policy.array text).toList := by
  cases language <;>
    rw [NamingPolicy.array, policy, TypeText.toList_fill_around] <;>
    refine ⟨by simp [h.1], ?_⟩ <;>
    rw [TypeText.nest_append, TypeText.nest_append]
  · rw [show TypeText.nest [] "typing.List[".toList = some [']'] by decide +kernel,
      Option.bind_some, h.nest_eq]
    decide +kernel
  · rw [show TypeText.nest [] "[]".toList = some [] by decide +kernel, Option.bind_some, h.nest_eq]
    decide +kernel
  · rw [show TypeText.nest [] "java.util.List<".toList = some ['>'] by decide +kernel,
      Option.bind_some, h.nest_eq]
    decide +kernel
  · rw [show TypeText.nest [] "".toList = some [] by decide +kernel, Option.bind_some, h.nest_eq]
    decide +kernel

theorem spelled_union (language : Language) {texts : List String}
    (h : ∀ text ∈ texts, TypeText.Spelled text.toList) :
    TypeText.Spelled (language.policy.union texts).toList := by
  rcases language.policy.union_cases texts with hmem | heq | ⟨template, several, ht, hsub, heq⟩
  · exact h _ hmem
  · rw [heq]
    exact language.spelled_fallback
  · -- Only Python has a shape for unions.
    cases language with
    | python =>
      cases ht
      rw [heq, TypeText.toList_fill_around, String.toList_intercalate]
      refine ⟨by simp, ?_⟩
      rw [TypeText.nest_append, TypeText.nest_append,
        show TypeText.nest [] "typing.Union[".toList = some [']'] by decide +kernel,
        Option.bind_some, TypeText.nest_intercalate (by decide +kernel), Option.bind_some]
      · decide +kernel
      · intro xs hxs
        obtain ⟨text, htext, rfl⟩ := List.mem_map.1 hxs
        exact h text (hsub text htext)
    | go | java | csharp => cases ht

/-- The policy of a language keeps its types spelled with nested brackets. -/
theorem keeps_spelled (language : Language) :
    language.policy.Keeps fun text => TypeText.Spelled text.toList where
  name _ hr := TypeText.spelled_text hr
  entry _ text h := language.spelled_builtins _ (mem_builtins h) text rfl
  fallback := language.spelled_fallback
  array _ h := language.spelled_array h
  union _ h := language.spelled_union h

/-- Holds of a character that may stand in a type of a language. -/
def isTypeChar (language : Language) (c : Char) : Bool :=
  match language with
  | .python | .go => true
  | .java | .csharp => Header.isReturnChar c

theorem isTypeChar_of_isPlainNameChar (language : Language) {c : Char}
    (h : Text.isPlainNameChar c = true) : language.isTypeChar c = true := by
  have hn := Text.isNameChar_of_isPlainNameChar h
  cases language <;> simp [isTypeChar, Header.isReturnChar, hn]

theorem isTypeChar_builtins (language : Language) :
    ∀ entry ∈ language.policy.builtins, ∀ text ∈ entry.2,
      text.toList.all language.isTypeChar = true := by
  cases language <;> decide +kernel

theorem isTypeChar_fallback (language : Language) :
    ∀ c ∈ language.policy.fallback.toList, language.isTypeChar c = true :=
  Text.forall_mem_of_all (by cases language <;> decide +kernel)

theorem isTypeChar_array (language : Language) {text : String}
    (h : ∀ c ∈ text.toList, language.isTypeChar c = true) :
    ∀ c ∈ (language.policy.array text).toList, language.isTypeChar c = true := by
  have around : ∀ before after : String,
      (∀ c ∈ before.toList ++ after.toList, language.isTypeChar c = true) →
      ∀ c ∈ ((Template.around before after).fill text).toList, language.isTypeChar c = true := by
    intro before after hb c hc
    rw [TypeText.toList_fill_around, List.append_assoc, List.mem_append, List.mem_append] at hc
    rcases hc with hc | hc | hc
    · exact hb c (List.mem_append_left _ hc)
    · exact h c hc
    · exact hb c (List.mem_append_right _ hc)
  cases language <;> exact around _ _ (Text.forall_mem_of_all (by decide +kernel))

/-- The policy of a language uses only characters that its types may have. -/
theorem keeps_isTypeChar (language : Language) :
    language.policy.Keeps fun text => ∀ c ∈ text.toList, language.isTypeChar c = true where
  name _ hr c hc := by
    rcases TypeText.mem_text hr hc with rfl | hc
    · cases language <;> decide
    · exact language.isTypeChar_of_isPlainNameChar hc
  entry _ text h := List.all_eq_true.1 (language.isTypeChar_builtins _ (mem_builtins h) text rfl)
  fallback := language.isTypeChar_fallback
  array _ h := language.isTypeChar_array h
  union texts h := by
    rcases language.policy.union_cases texts with hmem | heq | ⟨template, several, ht, -, -⟩
    · exact h _ hmem
    · rw [heq]
      exact language.isTypeChar_fallback
    · cases language with
      | python => intro c _; rfl
      | go | java | csharp => cases ht

end Language

end DocSignature

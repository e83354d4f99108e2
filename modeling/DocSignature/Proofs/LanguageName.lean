import DocSignature.Json.Basic
import DocSignature.Language.Basic
import DocSignature.Proofs.Rename

/-!
# Which values name a language

A language is named by a text that is its label in small or capital letters. A value of the data
format that is not a text is shown as one before it is compared. What is shown then either has a
character in it that is not a letter, or is one of a few words, none of which is a label.
-/

namespace DocSignature

/-- Holds of a text that is the label of the language, in small or capital letters. -/
def Language.NamedBy (language : Language) (text : String) : Prop :=
  Text.lower text.toList = language.label.toList

instance (language : Language) (text : String) : Decidable (language.NamedBy text) :=
  inferInstanceAs (Decidable (_ = _))

theorem Language.ofText?_eq_some_iff {text : String} {language : Language} :
    ofText? text = some language ↔ language.NamedBy text := by
  constructor
  · intro h
    have hlabel := List.find?_some h
    exact (decide_eq_true_iff.1 hlabel).symm
  · intro h
    rw [ofText?, h]
    cases language <;> decide

theorem Language.ofText_eq_ok_iff {text : String} {language : Language} :
    ofText text = .ok language ↔ language.NamedBy text := by
  rw [ofText, ← ofText?_eq_some_iff]
  cases ofText? text <;> simp

/-! ## Characters that are not letters -/

theorem toLower_mem_lowerAfter {c : Char} (hc : c.toNat < 128) {cs : List Char} (h : c ∈ cs)
    (before : List Char) : c.toLower ∈ Text.lowerAfter before cs := by
  induction cs generalizing before with
  | nil => cases h
  | cons d cs ih =>
    rcases List.mem_cons.1 h with rfl | h
    · rw [Header.lowerAfter_cons_of_ascii hc]
      exact List.mem_cons_self
    · rw [Text.lowerAfter]
      exact List.mem_append_right _ (ih h _)

/-- Holds of the ASCII characters that are not letters. -/
def isSign (c : Char) : Bool :=
  c.toNat < 128 && !c.isAlpha

theorem isSign_of_isDigit {c : Char} (h : c.isDigit = true) : isSign c = true := by
  have hascii : c.toNat < 128 := by
    have hnine := (Text.isDigit_iff c).1 h
    omega
  exact Header.forall_ascii (q := fun c => c.isDigit = true → isSign c = true) (by decide +kernel)
    hascii h

/-- A text with a sign in it names no language. -/
theorem Language.not_namedBy_of_isSign {text : List Char} (h : ∃ c ∈ text, isSign c = true)
    (language : Language) : ¬language.NamedBy (String.ofList text) := by
  obtain ⟨c, hc, hsign⟩ := h
  have hascii : c.toNat < 128 := by
    simp only [isSign, Bool.and_eq_true, decide_eq_true_eq] at hsign
    exact hsign.1
  have hsmall : c.toLower.isAlpha = false :=
    Header.forall_ascii (q := fun c => isSign c = true → c.toLower.isAlpha = false)
      (by decide +kernel) hascii hsign
  have hletters : language.label.toList.all Char.isAlpha = true := by
    cases language <;> decide
  intro hnamed
  rw [NamedBy, String.toList_ofList] at hnamed
  have hmem : c.toLower ∈ language.label.toList := hnamed ▸ toLower_mem_lowerAfter hascii hc []
  rw [List.all_eq_true.1 hletters _ hmem] at hsmall
  cases hsmall

/-! ## Shown values -/

theorem exists_sign_layout (digits : List Char) (point : Int) :
    ∃ c ∈ Number.layout digits point, isSign c = true := by
  have hdot : isSign '.' = true := by decide
  unfold Number.layout
  split
  · split <;> exact ⟨'.', by simp, hdot⟩
  · -- far from the digits, the point is given by an exponent, which has a sign of its own
    by_cases hnegative : point - 1 < 0
    · exact ⟨'-', by simp [hnegative], by decide⟩
    · exact ⟨'+', by simp [hnegative], by decide⟩

theorem exists_sign_text (negative : Bool) (m : Nat) (e : Int) :
    ∃ c ∈ (Number.Binary64.finite negative m e).text, isSign c = true := by
  have hbody : ∃ c ∈ (if m = 0 then "0.0".toList
      else Number.layout (Number.shortestDigits m e).1 (Number.shortestDigits m e).2),
      isSign c = true := by
    split
    · exact ⟨'.', by decide, by decide⟩
    · exact exists_sign_layout _ _
  obtain ⟨c, hc, hsign⟩ := hbody
  refine ⟨c, ?_, hsign⟩
  rw [Number.Binary64.text]
  split
  · exact List.mem_cons_of_mem _ hc
  · exact hc

theorem exists_sign_toString (n : Int) : ∃ c ∈ (toString n).toList, isSign c = true := by
  cases n with
  | ofNat n =>
    obtain ⟨c, hc⟩ := List.exists_mem_of_ne_nil _ (Nat.toDigits_ne_nil (n := n) (b := 10))
    refine ⟨c, ?_, isSign_of_isDigit (Nat.isDigit_of_mem_toDigits (by decide) (by decide) hc)⟩
    rw [← Nat.toList_repr] at hc
    exact hc
  | negSucc n =>
    refine ⟨'-', ?_, by decide⟩
    rw [Int.toString_eq_repr, Int.repr, String.toList_append]
    exact List.mem_append_left _ (by decide)

/-- A value that is not a text names no language. -/
theorem Json.not_namedBy_display {value : Json} (h : ∀ s, value ≠ .str s) (language : Language) :
    ¬language.NamedBy (String.ofList value.display) := by
  cases value with
  | null => cases language <;> decide +kernel
  | bool b => cases b <;> cases language <;> decide +kernel
  | int n => exact Language.not_namedBy_of_isSign (exists_sign_toString n) language
  | real x =>
    cases x with
    | nan => cases language <;> decide +kernel
    | infinite negative => cases negative <;> cases language <;> decide +kernel
    | finite negative m e => exact Language.not_namedBy_of_isSign (exists_sign_text _ m e) language
  | str s => exact absurd rfl (h s)
  | arr items =>
    exact Language.not_namedBy_of_isSign ⟨'[', List.mem_cons_self, by decide⟩ language
  | obj fields =>
    exact Language.not_namedBy_of_isSign ⟨'{', List.mem_cons_self, by decide⟩ language

end DocSignature

import DocSignature.Proofs.Draft
import DocSignature.Proofs.Frame
import DocSignature.Proofs.ParamPairing
import DocSignature.Proofs.Rename

/-!
# Writing a header again

The draft that a header is written from. The header that is read from the written one is written
from a draft with the same text, when the same comments stand in front of it.
-/

namespace DocSignature.Conversion

open Header (Draft writtenDefault marksAsync)

/-! ## Documented parameters -/

/-- The documentation of each parameter of a header. -/
def documented (comments : List DocComment) (k : Header) : List (Option Header.Doc) :=
  (Header.pair (k.params.map (·.name)) (comments.flatMap (·.params))).1

theorem length_documented (comments : List DocComment) (k : Header) :
    (documented comments k).length = k.params.length := by
  simp [documented, Header.pair, Header.length_fillGaps, Header.length_byName]

/-- The parameters of a header as they are to be written. -/
def renderedParams (t : Target) (table : ImportTable) (comments : List DocComment) (k : Header) :
    List Header.Rendered :=
  (k.params.zip (documented comments k)).map fun (p, doc) => renderedParam t table p doc

/-- What a header is written from. -/
def draftOf (t : Target) (table : ImportTable) (comments : List DocComment) (k : Header) : Draft :=
  ⟨Header.functionName t.language k.name, renderedParams t table comments k,
    returnText t table comments, k.isAsync⟩

section Again
variable (t : Target) (table : ImportTable) (comments : List DocComment) (k : Header)

theorem toList_renderHeader :
    (renderHeader t table comments k).1.toList = (draftOf t table comments k).text t.language := by
  rw [Draft.text, Draft.list, draftOf, renderedParams, List.map_map]
  rfl

theorem names_renderedParams :
    (renderedParams t table comments k).map (·.name) = k.params.map (·.name) := by
  rw [renderedParams, List.map_map]
  have hfst : (k.params.zip (documented comments k)).map Prod.fst = k.params :=
    List.map_fst_zip (length_documented comments k).ge
  conv_rhs => rw [← hfst, List.map_map]
  rfl

/-- A parameter is written as before with the default that it was written with. -/
theorem renderParam_renderedParam (p : Header.Param) (doc : Option Header.Doc) (fallback : String) :
    Header.renderParam t.language fallback (renderedParam t table
        ⟨p.name, writtenDefault t.language (renderedParam t table p doc)⟩ doc) =
      Header.renderParam t.language fallback (renderedParam t table p doc) := by
  obtain ⟨language, typeMap, file⟩ := t
  obtain ⟨name, value⟩ := p
  rcases doc with _ | ⟨loc, type, tagName, optional, tagValue, description⟩
  · cases language <;> cases value <;> rfl
  · cases language <;> cases value <;> cases tagValue <;> cases optional <;> rfl

theorem names_header (start : Nat) :
    ((draftOf t table comments k).header t.language start).params.map (·.name) =
      k.params.map (·.name) := by
  rw [← names_renderedParams t table comments k]
  simp [Draft.header, draftOf]

/-- The parameters that are read from a written header are written as before. -/
theorem list_header (start : Nat) :
    (draftOf t table comments
        ((draftOf t table comments k).header t.language start)).list t.language =
      (draftOf t table comments k).list t.language := by
  have hdocs : documented comments ((draftOf t table comments k).header t.language start) =
      documented comments k := by
    rw [documented, names_header, documented]
  have hsnd : (k.params.zip (documented comments k)).map Prod.snd = documented comments k :=
    List.map_snd_zip (length_documented comments k).le
  have hzip : ((draftOf t table comments k).header t.language start).params.zip
      (documented comments k) = (k.params.zip (documented comments k)).map fun q =>
        (⟨q.1.name, writtenDefault t.language (renderedParam t table q.1 q.2)⟩, q.2) := by
    conv_lhs => arg 2; rw [← hsnd]
    simp only [Draft.header, draftOf, renderedParams, List.map_map]
    exact List.zip_map' ..
  simp only [Draft.list, draftOf, renderedParams, List.map_map]
  simp only [draftOf, renderedParams] at hdocs hzip
  rw [hdocs, hzip, List.map_map]
  refine List.map_congr_left fun q _ => ?_
  exact renderParam_renderedParam t table q.1 q.2 _

theorem renderHeader_marksAsync (language : Language) (name : String) (params : List String)
    (returns : Option String) (isAsync : Bool) :
    Header.renderHeader language name params returns (marksAsync language isAsync) =
      Header.renderHeader language name params returns isAsync := by
  cases language <;> rfl

/-- The header that is read from a written one is written with the same text. -/
theorem text_header (hname : IsIdentifier k.name.toList) (start : Nat) :
    (draftOf t table comments
        ((draftOf t table comments k).header t.language start)).text t.language =
      (draftOf t table comments k).text t.language := by
  rw [Draft.text, list_header, Draft.text]
  change (Header.renderHeader t.language
    (Header.functionName t.language (Header.functionName t.language k.name)) _ _
    (marksAsync t.language k.isAsync)).toList = _
  rw [Header.functionName_functionName t.language hname, renderHeader_marksAsync]
  rfl

/-- About the header that is read from a written one there is as much to say as before. -/
theorem kinds_header (start : Nat) :
    (renderHeader t table comments
        ((draftOf t table comments k).header t.language start)).2.map (·.kind) =
      (renderHeader t table comments k).2.map (·.kind) := by
  have hkinds (h : Header) : (renderHeader t table comments h).2.map (·.kind) =
      (Header.pair (h.params.map (·.name)) (comments.flatMap (·.params))).2.map
        fun _ => .unmatchedParam := by
    simp only [renderHeader, List.map_map]
    rfl
  rw [hkinds, hkinds, names_header]

end Again

/-! ## Plain drafts -/

/-- The documentation of a parameter is in one of the comments. -/
theorem mem_documented {comments : List DocComment} {k : Header} {d : Header.Doc}
    (h : some d ∈ documented comments k) : ∃ c ∈ comments, d ∈ c.params :=
  List.mem_flatMap.1 (Header.mem_of_mem_pair (.inl h))

/-- A header whose names are identifiers and whose defaults are read back. -/
structure PlainHeader (k : Header) : Prop where
  name : IsIdentifier k.name.toList
  params : ∀ p ∈ k.params, IsIdentifier p.name.toList
  values : ∀ p ∈ k.params, ∀ text ∈ p.defaultText, Header.QuietDefault text.toList

/-- Comments that were read, with documented defaults that are read back. -/
structure PlainComments (comments : List DocComment) : Prop where
  read : ∀ c ∈ comments, ∀ tag ∈ c.tags, tag.WasRead
  values : ∀ c ∈ comments, ∀ doc ∈ c.params, ∀ text ∈ doc.2.defaultText,
    Header.QuietDefault text.toList

theorem policy_of_noMap {t : Target} (ht : t.typeMap = []) : t.policy = t.language.policy := by
  rw [Target.policy, ht]
  cases t.language <;> rfl

/-- The default of a parameter is that of the header or a documented one. -/
theorem quietDefault_renderedParam (t : Target) (table : ImportTable) {comments : List DocComment}
    (hcomments : PlainComments comments) {k : Header} (hk : PlainHeader k) {r : Header.Rendered}
    (hr : r ∈ renderedParams t table comments k) :
    ∀ text ∈ r.defaultText, Header.QuietDefault text.toList := by
  obtain ⟨⟨p, doc⟩, hmem, rfl⟩ := List.mem_map.1 hr
  obtain ⟨hp, hdoc⟩ := List.of_mem_zip hmem
  intro text htext
  cases hown : p.defaultText with
  | some value =>
    simp only [renderedParam, hown] at htext
    cases htext
    exact hk.values p hp _ hown
  | none =>
    simp only [renderedParam, hown] at htext
    obtain ⟨tag, htag, hvalue⟩ := Option.bind_eq_some_iff.1 htext
    obtain ⟨d, rfl, rfl⟩ := Option.map_eq_some_iff.1 htag
    obtain ⟨c, hc, hd⟩ := mem_documented hdoc
    exact hcomments.values c hc d hd text hvalue

theorem typeLike_word (language : Language) {word : String} (h : IsIdentifier word.toList) :
    Header.TypeLike language word.toList :=
  ⟨⟨h.ne_nil, TypeText.nest_of_marks (TypeText.isMark_of_isIdentifier h) []⟩,
    fun c hc => language.isTypeChar_of_isPlainNameChar (h.plain c hc)⟩

theorem isIdentifier_void : IsIdentifier "void".toList :=
  ⟨'v', _, rfl, by decide, Text.forall_mem_of_all (by decide)⟩

theorem returnLike_voidReturn (language : Language) :
    language.voidReturn.getD "" = "" ∨
      Header.TypeLike language (language.voidReturn.getD "").toList := by
  cases language with
  | python =>
    exact .inr (typeLike_word .python ⟨'N', _, rfl, by decide, Text.forall_mem_of_all (by decide)⟩)
  | go => exact .inl rfl
  | java | csharp => exact .inr (typeLike_word _ isIdentifier_void)

theorem returnLike_missingReturn (language : Language) :
    Header.ReturnLike language language.missingReturn := by
  intro text htext
  cases language with
  | python | go => cases htext
  | java | csharp =>
    cases htext
    exact .inr (typeLike_word _ isIdentifier_void)

section Plain
variable {t : Target} (ht : t.typeMap = []) {table : ImportTable} (htable : table.Named)
include ht htable

theorem typeLike_typeOf {e : TypeExpr} (he : e.Named) :
    Header.TypeLike t.language (typeOf t table e).1.toList := by
  rw [typeOf, policy_of_noMap ht]
  exact ⟨TypeText.keeps_ofExpr t.file t.language.keeps_spelled htable he,
    TypeText.keeps_ofExpr t.file t.language.keeps_isTypeChar htable he⟩

variable {comments : List DocComment} (hcomments : PlainComments comments)
include hcomments

theorem plain_renderedParam {k : Header} (hk : PlainHeader k) {r : Header.Rendered}
    (hr : r ∈ renderedParams t table comments k) : Header.PlainParam t.language r := by
  have hvalues := quietDefault_renderedParam t table hcomments hk hr
  obtain ⟨⟨p, doc⟩, hmem, rfl⟩ := List.mem_map.1 hr
  obtain ⟨hp, hdoc⟩ := List.of_mem_zip hmem
  refine ⟨hk.params p hp, ?_, fun text htext => (hvalues text htext).toPlainDefault⟩
  intro text htext
  obtain ⟨e, he, rfl⟩ := Option.map_eq_some_iff.1 htext
  obtain ⟨tag, htag, htype⟩ := Option.bind_eq_some_iff.1 he
  obtain ⟨d, rfl, rfl⟩ := Option.map_eq_some_iff.1 htag
  obtain ⟨c, hc, hd⟩ := mem_documented hdoc
  obtain ⟨raw, hraw, hbody⟩ := List.mem_filterMap.1 hd
  have hnamed := Tag.named_of_wasRead (hcomments.read c hc raw hraw)
  split at hbody
  · rename_i q hq
    cases hbody
    rw [hq] at hnamed
    exact typeLike_typeOf ht htable (hnamed e htype)
  · cases hbody

/-- The return type of a header is left out, a word of the language or a type that was read. -/
theorem returnLike_returnText : Header.ReturnLike t.language (returnText t table comments) := by
  rw [returnText]
  split
  · rename_i e he
    rintro text ⟨⟩
    rw [returnTypeOf]
    split
    · exact returnLike_voidReturn t.language
    · right
      obtain ⟨⟨tag, r⟩, hreturns, htype⟩ := Option.bind_eq_some_iff.1 he
      obtain ⟨c, hc, hfound⟩ := List.exists_of_findSome?_eq_some hreturns
      obtain ⟨raw, hraw, hbody⟩ := List.exists_of_findSome?_eq_some hfound
      have hnamed := Tag.named_of_wasRead (hcomments.read c hc raw hraw)
      split at hbody
      · rename_i q hq
        cases hbody
        rw [hq] at hnamed
        exact typeLike_typeOf ht htable (hnamed e htype)
      · cases hbody
  · exact returnLike_missingReturn t.language

/-- The draft of a plain header is plain. -/
theorem plain_draftOf {k : Header} (hk : PlainHeader k) :
    (draftOf t table comments k).Plain t.language where
  name := Header.isIdentifier_functionName t.language hk.name
  params _ hr := plain_renderedParam ht htable hcomments hk hr
  returns := returnLike_returnText ht htable hcomments

end Plain

end DocSignature.Conversion

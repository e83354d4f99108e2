import DocSignature.Proofs.Identifier
import Mathlib.Data.List.Forall2
import Mathlib.Data.List.Induction

/-!
# First bindings

The table of some imports lists the first binding of every name, in the order of the imports, and
every other binding is reported once. The checks that a binding and a table may fail are never
failed by imports that were read.
-/

namespace DocSignature.ImportTable

/-! ## First and repeated bindings -/

/-- Holds of a binding with its number when no binding before it has the same name. -/
def isFirst (bs : List Binding) (b : Binding × Nat) : Bool :=
  (bs.take b.2).all fun earlier => earlier.localName ≠ b.1.localName

/-- The first binding of every name. -/
def firsts (bs : List Binding) : List Binding :=
  (bs.zipIdx.filter fun b => isFirst bs b).map (·.1)

/-- All bindings but the first ones. -/
def repeats (bs : List Binding) : List Binding :=
  (bs.zipIdx.filter fun b => !isFirst bs b).map (·.1)

theorem length_firsts_add_length_repeats (bs : List Binding) :
    (firsts bs).length + (repeats bs).length = bs.length := by
  rw [firsts, repeats, List.length_map, List.length_map, ← List.length_append,
    (List.filter_append_perm (isFirst bs) bs.zipIdx).length_eq, List.length_zipIdx]

/-- Whether a binding is a first one does not depend on those behind it. -/
theorem isFirst_append {bs : List Binding} (more : List Binding) {b : Binding × Nat}
    (hb : b ∈ bs.zipIdx) : isFirst (bs ++ more) b = isFirst bs b := by
  have hlt : b.2 < 0 + bs.length := (List.mem_zipIdx hb).2.1
  rw [isFirst, isFirst, List.take_append_of_le_length (by omega)]

theorem isFirst_last (bs : List Binding) (b : Binding) :
    isFirst (bs ++ [b]) (b, bs.length) =
      (bs.find? fun a => a.localName = b.localName).isNone := by
  rw [isFirst, List.take_left, Bool.eq_iff_iff, List.all_eq_true, Option.isNone_iff_eq_none,
    List.find?_eq_none]
  simp

/-- The numbered bindings of one sort, when one more binding comes last. -/
theorem sorted_concat (keep : Bool → Bool) (bs : List Binding) (b : Binding) :
    (((bs ++ [b]).zipIdx.filter fun p => keep (isFirst (bs ++ [b]) p)).map (·.1)) =
      ((bs.zipIdx.filter fun p => keep (isFirst bs p)).map (·.1)) ++
        if keep (bs.find? fun a => a.localName = b.localName).isNone then [b] else [] := by
  have hold : (bs.zipIdx.filter fun p => keep (isFirst (bs ++ [b]) p)) =
      bs.zipIdx.filter fun p => keep (isFirst bs p) :=
    List.filter_congr fun p hp => by rw [isFirst_append [b] hp]
  rw [List.zipIdx_append, List.filter_append, hold, List.map_append, List.zipIdx_singleton,
    Nat.zero_add]
  congr 1
  rw [List.filter_singleton, isFirst_last]
  cases keep (bs.find? fun a => a.localName = b.localName).isNone <;> rfl

/-! ## Adding bindings -/

/-- A table and the repeated bindings, with one more binding added. -/
def addOne (r : ImportTable × List (Binding × Binding)) (b : Binding) :
    ImportTable × List (Binding × Binding) :=
  match r.1.lookup b.localName with
  | some first => (r.1, r.2 ++ [(first, b)])
  | none => (r.1.insert b, r.2)

theorem addAll_concat (t : ImportTable) (bs : List Binding) (b : Binding) :
    t.addAll (bs ++ [b]) = addOne (t.addAll bs) b := by
  induction bs generalizing t with
  | nil => cases hlookup : t.lookup b.localName <;> simp [addAll, addOne, hlookup]
  | cons c bs ih =>
    simp only [List.cons_append, addAll, ih]
    cases t.lookup c.localName with
    | none => rfl
    | some first =>
      simp only [addOne]
      cases (t.addAll bs).1.lookup b.localName <;> rfl

/-- A table of the first of some bindings, with the others, each next to the first of its name. -/
structure Tracks (bs : List Binding) (r : ImportTable × List (Binding × Binding)) : Prop where
  bindings : r.1.bindings = firsts bs
  lookup : ∀ name, r.1.lookup name = bs.find? fun b => b.localName = name
  repeated : List.Forall₂ (fun b pair =>
    pair.2 = b ∧ (bs.find? fun a => a.localName = b.localName) = some pair.1) (repeats bs) r.2

theorem Tracks.addOne {bs : List Binding} {r : ImportTable × List (Binding × Binding)}
    (h : Tracks bs r) (b : Binding) : Tracks (bs ++ [b]) (addOne r b) := by
  have hfirsts : firsts (bs ++ [b]) = firsts bs ++ _ := sorted_concat id bs b
  have hrepeats : repeats (bs ++ [b]) = repeats bs ++ _ := sorted_concat not bs b
  -- The first binding of a name stays the first one.
  have hold : List.Forall₂ (fun c pair =>
      pair.2 = c ∧ ((bs ++ [b]).find? fun a => a.localName = c.localName) = some pair.1)
      (repeats bs) r.2 := by
    refine h.repeated.imp fun c pair hpair => ⟨hpair.1, ?_⟩
    rw [List.find?_append, hpair.2, Option.some_or]
  unfold ImportTable.addOne
  rw [h.lookup]
  split
  · rename_i first hfind
    rw [hfind] at hfirsts hrepeats
    constructor
    · rw [hfirsts]
      simpa using h.bindings
    · intro name
      rw [h.lookup, List.find?_append]
      by_cases hname : b.localName = name
      · rw [← hname, hfind, Option.some_or]
      · rw [List.find?_singleton, if_neg (by simpa using hname), Option.or_none]
    · rw [hrepeats]
      refine List.rel_append hold (.cons ⟨rfl, ?_⟩ .nil)
      rw [List.find?_append, hfind, Option.some_or]
  · rename_i hfind
    rw [hfind] at hfirsts hrepeats
    constructor
    · rw [hfirsts, ImportTable.insert, h.bindings]
      rfl
    · intro name
      rw [ImportTable.lookup, ImportTable.insert, List.find?_append, List.find?_append, ← h.lookup]
      rfl
    · rw [hrepeats]
      simpa using hold

/-- Bindings are tracked however many of them are added. -/
theorem tracks_addAll (bs : List Binding) : Tracks bs (empty.addAll bs) := by
  induction bs using List.reverseRecOn with
  | nil => exact ⟨rfl, fun _ => rfl, .nil⟩
  | append_singleton bs b ih =>
    rw [addAll_concat]
    exact ih.addOne b

/-! ## Checks on the way -/

/-- The bindings of a tag, each made with the check on its symbol. -/
def checkedBindingsOf (tag : Tag) : Except BindingError (List Binding) :=
  match tag.body with
  | .imports (.whole localName) moduleName => do
    let b ← Binding.whole localName moduleName none (some tag.loc)
    return [b]
  | .imports (.named specifiers) moduleName =>
    specifiers.mapM fun s => Binding.named s.localName moduleName (some s.imported) (some s.loc)
  | _ => return []

/-- The table of all imports among some tags, and the diagnostics about repeated names. All bindings
are checked, and so is the table that is made of the accepted ones. -/
def checkedOfTags (file : Option String) (tags : List Tag) :
    Except BindingError (ImportTable × List Diagnostic) := do
  let bs ← tags.mapM checkedBindingsOf
  let (accepted, repeated) := empty.addAll bs.flatten
  let table ← ofBindings accepted.bindings
  return (table, repeated.map fun (first, later) => duplicateDiagnostic file first later)

theorem mapM_ok {α β : Type} {f : α → Except BindingError β} {g : α → β} {xs : List α}
    (h : ∀ x ∈ xs, f x = .ok (g x)) : xs.mapM f = .ok (xs.map g) := by
  induction xs with
  | nil => rfl
  | cons x xs ih =>
    rw [List.mapM_cons, h x (by simp), ih fun y hy => h y (by simp [hy])]
    rfl

/-- The symbols that an import brings in have a name. -/
theorem checkedBindingsOf_of_wasRead {tag : Tag} (h : tag.WasRead) :
    checkedBindingsOf tag = .ok (bindingsOf tag) := by
  have hnamed := Tag.named_of_wasRead h
  obtain ⟨loc, raw, body⟩ := tag
  cases body with
  | imports clause moduleName =>
    cases clause with
    | whole localName => rfl
    | named specifiers =>
      apply mapM_ok
      intro s hs
      have hne : s.imported ≠ "" := by
        intro hempty
        exact (hnamed s hs).1.ne_nil (by rw [hempty]; rfl)
      rw [Binding.named, if_neg hne]
  | _ => rfl

/-- Bindings with new and different names are all accepted. -/
theorem addAll_of_nodup {t : ImportTable} {bs : List Binding}
    (h : ((t.bindings ++ bs).map (·.localName)).Nodup) :
    t.addAll bs = (⟨t.bindings ++ bs⟩, []) := by
  induction bs generalizing t with
  | nil => simp [addAll]
  | cons b bs ih =>
    have hlookup : t.lookup b.localName = none := by
      rw [lookup, List.find?_eq_none]
      intro a ha
      rw [List.map_append, List.nodup_append] at h
      simpa using h.2.2 _ (List.mem_map_of_mem ha) b.localName (by simp)
    rw [addAll, hlookup]
    simp only
    rw [ih (by simpa [insert] using h)]
    simp [insert]

theorem nodup_addAll {t : ImportTable} (h : (t.bindings.map (·.localName)).Nodup)
    (bs : List Binding) : ((t.addAll bs).1.bindings.map (·.localName)).Nodup := by
  induction bs generalizing t with
  | nil => exact h
  | cons b bs ih =>
    rw [addAll]
    split
    · exact ih h
    · rename_i hlookup
      apply ih
      rw [insert, List.map_append, List.nodup_append]
      refine ⟨h, by simp, ?_⟩
      rintro _ hname _ hb rfl
      obtain ⟨a, ha, hab⟩ := List.mem_map.1 hname
      rw [lookup, List.find?_eq_none] at hlookup
      exact hlookup a ha (by simpa [hab] using hb)

/-- No check is failed by imports that were read. -/
theorem checkedOfTags_of_wasRead (file : Option String) {tags : List Tag}
    (h : ∀ tag ∈ tags, tag.WasRead) : checkedOfTags file tags = .ok (ofTags file tags) := by
  have hbindings : tags.mapM checkedBindingsOf = .ok (tags.map bindingsOf) :=
    mapM_ok fun tag htag => checkedBindingsOf_of_wasRead (h tag htag)
  have htable : ofBindings (empty.addAll (tags.flatMap bindingsOf)).1.bindings =
      .ok (empty.addAll (tags.flatMap bindingsOf)).1 := by
    have hnodup := nodup_addAll (t := empty) List.nodup_nil (tags.flatMap bindingsOf)
    rw [ofBindings, addAll_of_nodup (by simpa [empty] using hnodup)]
    rfl
  rw [List.flatMap_def] at htable
  rw [checkedOfTags, hbindings, ofTags, List.flatMap_def]
  change (ofBindings _).bind _ = _
  rw [htable]
  rfl

/-! ## The table of the imports -/

/-- A diagnostic about a repeated binding: it is placed where the binding is, and names the module
of the binding that the table has. -/
structure ReportsRepeat (file : Option String) (table : ImportTable) (b : Binding)
    (d : Diagnostic) : Prop where
  kind : d.kind = .duplicateBinding
  phase : d.phase = some .imports
  span : ∃ loc, b.loc = some loc ∧ d.span = Span.ofLoc loc file
  notes : ∃ first, table.lookup b.localName = some first ∧
    d.notes = ["first import from '" ++ first.moduleName ++ "'"]

theorem exists_loc_of_mem_bindingsOf {tag : Tag} {b : Binding} (h : b ∈ bindingsOf tag) :
    ∃ loc, b.loc = some loc := by
  unfold bindingsOf at h
  split at h
  · obtain rfl := List.mem_singleton.1 h
    exact ⟨tag.loc, rfl⟩
  · obtain ⟨s, -, rfl⟩ := List.mem_map.1 h
    exact ⟨s.loc, rfl⟩
  · cases h

theorem mem_of_mem_repeats {bs : List Binding} {b : Binding} (h : b ∈ repeats bs) : b ∈ bs := by
  obtain ⟨⟨b, i⟩, hb, rfl⟩ := List.mem_map.1 h
  exact List.fst_mem_of_mem_zipIdx (List.mem_of_mem_filter hb)

/-- Every binding that is not the first of its name is reported, in the order of the imports. -/
theorem reports_ofTags (file : Option String) (tags : List Tag) :
    List.Forall₂ (ReportsRepeat file (ofTags file tags).1) (repeats (tags.flatMap bindingsOf))
      (ofTags file tags).2 := by
  have htracks := tracks_addAll (tags.flatMap bindingsOf)
  have hloc : ∀ b ∈ repeats (tags.flatMap bindingsOf), ∃ loc, b.loc = some loc := by
    intro b hb
    obtain ⟨tag, -, hmem⟩ := List.mem_flatMap.1 (mem_of_mem_repeats hb)
    exact exists_loc_of_mem_bindingsOf hmem
  have hplaced := (List.forall₂_and_left _ _).2 ⟨hloc, htracks.repeated⟩
  refine List.forall₂_map_right_iff.2 (hplaced.imp ?_)
  rintro b ⟨first, later⟩ ⟨⟨loc, hb⟩, hlater, hfind⟩
  obtain rfl : later = b := hlater
  have hlookup : (ofTags file tags).1.lookup later.localName = some first :=
    (htracks.lookup later.localName).trans hfind
  exact ⟨rfl, rfl, ⟨loc, hb, by simp [duplicateDiagnostic, hb]⟩, first, hlookup, rfl⟩

/-- The table of imports that were read lists the first binding of every name, in their order, and
gives it for the name. Every other binding is reported once, so none is lost. On the way no check
fails. -/
theorem ofTags_keeps_first_bindings (file : Option String) (tags : List Tag)
    (h : ∀ tag ∈ tags, tag.WasRead) :
    let bs := tags.flatMap bindingsOf
    let table := (ofTags file tags).1
    let diagnostics := (ofTags file tags).2
    checkedOfTags file tags = .ok (table, diagnostics) ∧ table.bindings = firsts bs ∧
      (∀ name, table.lookup name = bs.find? fun b => b.localName = name) ∧
      List.Forall₂ (ReportsRepeat file table) (repeats bs) diagnostics ∧
      table.size + diagnostics.length = bs.length := by
  intro bs table diagnostics
  have htracks := tracks_addAll bs
  have hreports := reports_ofTags file tags
  refine ⟨checkedOfTags_of_wasRead file h, htracks.bindings, htracks.lookup, hreports, ?_⟩
  have hsize : table.size = (firsts bs).length := congrArg List.length htracks.bindings
  rw [hsize, ← hreports.length_eq, length_firsts_add_length_repeats]

/-- Of three imports under one name the first one stays, and the other two are reported. -/
theorem ofTags_keeps_first_of_three :
    let tags := (Tag.readAll none .first
      "/** @import \x7b B as A, A \x7d from 'm'\n * @import * as A from 'n' */".toList).1
    (∀ tag ∈ tags, tag.WasRead) ∧
      (tags.flatMap bindingsOf).map (·.localName) = ["A", "A", "A"] ∧
      ((ofTags none tags).1.lookup "A").map (·.symbol?) = some (some "B") ∧
      (ofTags none tags).1.size + (ofTags none tags).2.length = 3 := by
  intro tags
  have hread : ∀ tag ∈ tags, tag.WasRead := fun tag htag => Tag.wasRead_of_mem_readAll htag
  obtain ⟨-, -, hlookup, -, hsize⟩ := ofTags_keeps_first_bindings none tags hread
  exact ⟨hread, by rfl, by rw [hlookup]; rfl, hsize⟩

end DocSignature.ImportTable

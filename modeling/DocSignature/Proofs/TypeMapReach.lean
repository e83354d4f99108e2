import DocSignature.Proofs.NameReport

/-!
# What a type map reaches

A type map is laid over the builtin names of a language. Spelling a type looks up one name for each
name in it: all of a name that was not imported, the symbol that an imported name stands for, the
last name of a path into a module. What a type map says about other names makes no difference.
-/

namespace DocSignature

/-! ## Entries of a type map -/

namespace Dictionary

/-- What is set last under a key. -/
def last? {α : Type} (key : String) (d : Dictionary α) : Option α :=
  get? key d.reverse

section Entries
variable {α : Type} (key : String)

theorem get?_append (d more : Dictionary α) :
    get? key (d ++ more) = (get? key d).or (get? key more) := by
  induction d with
  | nil => rfl
  | cons entry d ih =>
    simp only [List.cons_append, get?, ih]
    by_cases hkey : entry.1 = key
    · simp [hkey]
    · simp [hkey]

theorem last?_cons (entry : String × α) (d : Dictionary α) :
    last? key (entry :: d) = (last? key d).or (get? key [entry]) := by
  rw [last?, List.reverse_cons, get?_append, last?]

theorem get?_set (other : String) (value : α) (d : Dictionary α) :
    get? key (set other value d) = (get? key [(other, value)]).or (get? key d) := by
  induction d with
  | nil => simp [set, get?]
  | cons entry d ih =>
    obtain ⟨k, v⟩ := entry
    by_cases hother : k = other
    · by_cases hkey : other = key <;> simp [set, get?, hother, hkey]
    · by_cases hkey : k = key
      · have hne : other ≠ key := fun h => hother (hkey.trans h.symm)
        simp [set, get?, hkey, hne, Ne.symm hne]
      · simp [set, get?, hother, hkey, ih]

/-- Of several entries that are set in turn, the last one under a key counts. -/
theorem get?_merge (d more : Dictionary α) :
    get? key (merge d more) = (last? key more).or (get? key d) := by
  induction more generalizing d with
  | nil => rfl
  | cons entry more ih =>
    have hstep : merge d (entry :: more) = merge (set entry.1 entry.2 d) more := rfl
    rw [hstep, ih, get?_set, last?_cons, Option.or_assoc]

end Entries

end Dictionary

/-- A name is spelled as its entry says, or as the fallback; without an entry it stays as it is. -/
theorem NamingPolicy.spell_eq (p : NamingPolicy) (name : String) :
    p.spell name =
      match p.lookup name with
      | some entry => entry.getD p.fallback
      | none => name := by
  rw [spell]
  match p.lookup name with
  | none | some none | some (some _) => rfl

/-- A type map decides before the builtin names do. -/
theorem Language.lookup_policyWith (language : Language) (typeMap : Dictionary (Option String))
    (name : String) :
    (language.policyWith typeMap).lookup name =
      (Dictionary.last? name typeMap).or (language.policy.lookup name) := by
  have hnone : language.policy.overrides = [] := by cases language <;> rfl
  simp only [NamingPolicy.lookup, policyWith, NamingPolicy.withOverrides, hnone,
    Dictionary.get?_merge, Dictionary.get?]
  cases Dictionary.last? name typeMap <;> rfl

namespace TypeText

/-! ## Names that are looked up -/

/-- The name that is looked up for a name in a type: all of it when it was not imported, the symbol
that it stands for, or the last name of a path into a module. Nothing is looked up for a name that
is used against its import. -/
def lookupKey? (table : ImportTable) (name : TypeRef) : Option String :=
  match table.lookup name.base with
  | none => some name.text
  | some binding =>
    match binding.target with
    | .symbol symbol => if name.rest = [] then some symbol else none
    | .whole => name.rest.getLast?

section Name
variable (table : ImportTable) (policy : NamingPolicy) (file : Option String) (name : TypeRef)

/-- A name that is used against its import is written as it is. -/
theorem emitRef_of_noKey (h : lookupKey? table name = none) :
    emitRef policy file name (Resolved.resolveRef table file name).1 = (name.text, []) := by
  unfold lookupKey? at h
  unfold Resolved.resolveRef
  generalize table.lookup name.base = found at h ⊢
  generalize hrest : name.rest = rest at h ⊢
  match found, rest with
  | some ⟨_, _, .symbol _, _⟩, _ :: _ => rfl
  | some ⟨_, _, .whole, _⟩, [] => rfl

/-- Of a policy, a name that is used well needs only what is found under its key. -/
theorem emitRef_of_key {key : String} (h : lookupKey? table name = some key) :
    emitRef policy file name (Resolved.resolveRef table file name).1 =
      match policy.lookup key with
      | some entry => (entry.getD policy.fallback, [])
      | none =>
        (key, if (table.lookup name.base).isNone then [unknownDiagnostic policy file name] else [])
    := by
  unfold lookupKey? at h
  unfold Resolved.resolveRef
  generalize table.lookup name.base = found at h ⊢
  generalize hrest : name.rest = rest at h ⊢
  match found, rest with
  | none, _ =>
    cases h
    rw [emitRef, NamingPolicy.spell_eq]
    cases policy.lookup name.text <;> rfl
  | some ⟨_, _, .symbol symbol, _⟩, [] =>
    cases h
    rw [emitRef, NamingPolicy.spell_eq]
    cases policy.lookup key <;> rfl
  | some ⟨_, _, .whole, _⟩, first :: more =>
    cases h
    rw [emitRef, NamingPolicy.spell_eq, List.getLast_eq_getLastD]
    cases policy.lookup (more.getLastD first) <;> rfl

end Name

/-! ## Whole types -/

/-- Two policies that differ at most in the spelling of names. -/
structure ShapedAlike (p q : NamingPolicy) : Prop where
  language : p.language = q.language
  fallback : p.fallback = q.fallback
  array : p.array = q.array
  union : p.union = q.union

theorem shapedAlike_policyWith (language : Language) (typeMap other : Dictionary (Option String)) :
    ShapedAlike (language.policyWith typeMap) (language.policyWith other) :=
  ⟨rfl, rfl, rfl, rfl⟩

section Alike
variable {p q : NamingPolicy} {file : Option String}

/-- A name is written alike when both policies find the same under its key. -/
theorem emitRef_congr (h : ShapedAlike p q) {table : ImportTable} {name : TypeRef}
    (hkey : ∀ key ∈ lookupKey? table name, p.lookup key = q.lookup key) :
    emitRef p file name (Resolved.resolveRef table file name).1 =
      emitRef q file name (Resolved.resolveRef table file name).1 := by
  cases hname : lookupKey? table name with
  | none => rw [emitRef_of_noKey table p file name hname, emitRef_of_noKey table q file name hname]
  | some key =>
    have hsaid : unknownDiagnostic p file name = unknownDiagnostic q file name := by
      rw [unknownDiagnostic, unknownDiagnostic, h.language]
    rw [emitRef_of_key table p file name hname, emitRef_of_key table q file name hname,
      hkey key hname, h.fallback, hsaid]

mutual

/-- A type is written alike when its names are: arrays and unions look nothing up. -/
theorem emit_congr (h : ShapedAlike p q) : ∀ r : Resolved,
    (∀ leaf ∈ r.leaves, emitRef p file leaf.1 leaf.2 = emitRef q file leaf.1 leaf.2) →
    emit p file r = emit q file r
  | .ref name target, hleaves => hleaves (name, target) (by simp [Resolved.leaves])
  | .array _ element, hleaves => by
    rw [emit, emit, emit_congr h element hleaves, h.array]
  | .union _ members, hleaves => by
    rw [emit, emit, emitAll_congr h members hleaves, h.union]

theorem emitAll_congr (h : ShapedAlike p q) : ∀ rs : List Resolved,
    (∀ leaf ∈ Resolved.leavesOf rs, emitRef p file leaf.1 leaf.2 = emitRef q file leaf.1 leaf.2) →
    emitAll p file rs = emitAll q file rs
  | [], _ => rfl
  | r :: rs, hleaves => by
    have hfirst := emit_congr h r fun leaf hleaf =>
      hleaves leaf (by simp [Resolved.leavesOf, hleaf])
    have hrest := emitAll_congr h rs fun leaf hleaf =>
      hleaves leaf (by simp [Resolved.leavesOf, hleaf])
    rw [emitAll, emitAll, hfirst, hrest]

end

end Alike

/-- A type map acts only on the names that a type looks up: two type maps that have the same entries
under these names, or none, spell the type alike and say the same about it. An entry that is there
decides: the name is spelled as it says, or as the fallback, and is not unknown. -/
theorem ofExpr_reads_type_map_at_keys (language : Language) (table : ImportTable)
    (file : Option String) (e : TypeExpr) (typeMap other : Dictionary (Option String))
    (h : ∀ name ∈ e.refs, ∀ key ∈ lookupKey? table name,
      Dictionary.last? key typeMap = Dictionary.last? key other) :
    ofExpr table (language.policyWith typeMap) file e =
        ofExpr table (language.policyWith other) file e ∧
      ∀ name ∈ e.refs, ∀ key ∈ lookupKey? table name, ∀ entry ∈ Dictionary.last? key typeMap,
        emitRef (language.policyWith typeMap) file name (Resolved.resolveRef table file name).1 =
          (entry.getD language.policy.fallback, []) := by
  constructor
  · have hshape := shapedAlike_policyWith language typeMap other
    have hnames : ∀ leaf ∈ (Resolved.resolve table file e).1.leaves,
        emitRef (language.policyWith typeMap) file leaf.1 leaf.2 =
          emitRef (language.policyWith other) file leaf.1 leaf.2 := by
      intro leaf hleaf
      rw [Resolved.leaves_resolve] at hleaf
      obtain ⟨name, hname, rfl⟩ := List.mem_map.1 hleaf
      refine emitRef_congr hshape fun key hkey => ?_
      rw [language.lookup_policyWith, language.lookup_policyWith, h name hname key hkey]
    simp only [ofExpr, emit_congr hshape _ hnames]
  · intro name hname key hkey entry hentry
    rw [emitRef_of_key table _ file name hkey, language.lookup_policyWith, hentry]
    rfl

/-- In `Item | models.User[] | NodeJS.Timer | Missing | models`, with `Product` imported as `Item`
and a module `models`, two type maps that agree about `Product`, `User`, `NodeJS.Timer` and
`Missing` may say what they like about `Item`, `NodeJS` and `models`. -/
theorem ofExpr_ignores_entries_for_local_names :
    let table : ImportTable :=
      ⟨[⟨"Item", "shop", .symbol "Product", none⟩, ⟨"models", "app", .whole, none⟩]⟩
    let e : TypeExpr := .union ⟨1, 1⟩ [.ref ⟨⟨1, 1⟩, "Item", []⟩,
      .array ⟨1, 8⟩ (.ref ⟨⟨1, 8⟩, "models", ["User"]⟩), .ref ⟨⟨1, 24⟩, "NodeJS", ["Timer"]⟩,
      .ref ⟨⟨1, 39⟩, "Missing", []⟩, .ref ⟨⟨1, 49⟩, "models", []⟩]
    let typeMap : Dictionary (Option String) :=
      [("Product", none), ("User", some "Account"), ("NodeJS.Timer", some "Handle")]
    let other : Dictionary (Option String) :=
      [("Item", some "X"), ("NodeJS.Timer", some "Handle"), ("models", none),
        ("User", some "Account"), ("NodeJS", some "Y"), ("Product", none)]
    (ofExpr table (Language.python.policyWith typeMap) none e).1 =
        "typing.Union[typing.Any, typing.List[Account], Handle, Missing, models]" ∧
      ofExpr table (Language.python.policyWith typeMap) none e =
        ofExpr table (Language.python.policyWith other) none e ∧
      ∀ name ∈ e.refs, ∀ key ∈ lookupKey? table name, ∀ entry ∈ Dictionary.last? key typeMap,
        emitRef (Language.python.policyWith typeMap) none name
            (Resolved.resolveRef table none name).1 =
          (entry.getD "typing.Any", []) := by
  intro table e typeMap other
  refine ⟨by decide +kernel, ?_⟩
  apply ofExpr_reads_type_map_at_keys
  intro name hname key hkey
  simp only [e, TypeExpr.refs, TypeExpr.refsOf, List.append_nil, List.singleton_append,
    List.mem_cons, List.not_mem_nil, or_false] at hname
  rcases hname with rfl | rfl | rfl | rfl | rfl
  all_goals cases hkey
  all_goals decide +kernel

end TypeText

end DocSignature

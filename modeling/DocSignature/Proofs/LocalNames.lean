import DocSignature.Proofs.NameReport
import Mathlib.Logic.Equiv.Basic

/-!
# Local names do not matter

A file may call what it imports as it likes. When its imports and the types that use them are given
other names, and no two names fall together, every type is spelled as before and the same is said
about it: what is written comes from the imported symbols, the members of modules and the names that
were not imported.
-/

namespace DocSignature

/-! ## Other names -/

/-- A binding under another name. -/
def Binding.rename (other : String → String) (b : Binding) : Binding :=
  { b with localName := other b.localName }

/-- A table of imports under other names. -/
def ImportTable.rename (other : String → String) (t : ImportTable) : ImportTable :=
  ⟨t.bindings.map (Binding.rename other)⟩

/-- A name in a type, under another name when it was imported. -/
def TypeRef.rename (other : String → String) (table : ImportTable) (r : TypeRef) : TypeRef :=
  if (table.lookup r.base).isSome then { r with base := other r.base } else r

namespace TypeExpr

mutual

/-- A type in which all that was imported has another name. -/
def rename (other : String → String) (table : ImportTable) : TypeExpr → TypeExpr
  | .ref name => .ref (name.rename other table)
  | .array loc element => .array loc (element.rename other table)
  | .union loc members => .union loc (renameAll other table members)

def renameAll (other : String → String) (table : ImportTable) : List TypeExpr → List TypeExpr
  | [] => []
  | member :: rest => member.rename other table :: renameAll other table rest

end

section Refs
variable (other : String → String) (table : ImportTable)

mutual

theorem refs_rename : ∀ e : TypeExpr,
    (e.rename other table).refs = e.refs.map (TypeRef.rename other table)
  | .ref _ => rfl
  | .array _ element => refs_rename element
  | .union _ members => refsOf_renameAll members

theorem refsOf_renameAll : ∀ es : List TypeExpr,
    refsOf (renameAll other table es) = (refsOf es).map (TypeRef.rename other table)
  | [] => rfl
  | e :: es => by
    rw [renameAll, refsOf, refsOf, List.map_append, refs_rename e, refsOf_renameAll es]

end

end Refs

end TypeExpr

/-! ## Names one by one -/

section Injective
variable {other : String → String} (hinj : Function.Injective other)
include hinj

theorem ImportTable.lookup_rename (t : ImportTable) (name : String) :
    (t.rename other).lookup (other name) = (t.lookup name).map (Binding.rename other) := by
  have hsame (b : Binding) :
      decide ((b.rename other).localName = other name) = decide (b.localName = name) := by
    rw [decide_eq_decide]
    exact hinj.eq_iff
  rw [lookup, rename, List.find?_map]
  simp only [Function.comp_def, hsame, lookup]

namespace TypeText

/-- A name that is used well is written as before, and nothing is said about its import. -/
theorem emitRef_rename {table : ImportTable} (policy : NamingPolicy) (file : Option String)
    {name : TypeRef} (hfixed : table.lookup name.base = none → other name.base = name.base)
    (hclean : (Resolved.resolveRef table file name).2 = []) :
    (Resolved.resolveRef (table.rename other) file (name.rename other table)).2 = [] ∧
      emitRef policy file (name.rename other table)
          (Resolved.resolveRef (table.rename other) file (name.rename other table)).1 =
        emitRef policy file name (Resolved.resolveRef table file name).1 := by
  have hlookup := ImportTable.lookup_rename hinj table name.base
  cases hbound : table.lookup name.base with
  | none =>
    -- no import is moved to the name, since it stays where it is
    have hname : name.rename other table = name := by
      rw [TypeRef.rename, hbound]
      rfl
    rw [hbound, hfixed hbound] at hlookup
    simp only [hname, Resolved.resolveRef, hlookup, hbound, Option.map_none, and_self]
  | some binding =>
    have hname : name.rename other table = { name with base := other name.base } := by
      rw [TypeRef.rename, hbound]
      rfl
    rw [hbound, Option.map_some] at hlookup
    obtain ⟨localName, moduleName, target, loc⟩ := binding
    obtain ⟨place, base, rest⟩ := name
    simp only [Resolved.resolveRef, hbound] at hclean
    cases target with
    | symbol symbol =>
      cases rest with
      | nil => simp [Resolved.resolveRef, hname, hlookup, hbound, Binding.rename, emitRef]
      | cons first more => simp at hclean
    | whole =>
      cases rest with
      | nil => simp at hclean
      | cons first more =>
        simp [Resolved.resolveRef, hname, hlookup, hbound, Binding.rename, emitRef]

end TypeText

end Injective

/-! ## Whole types -/

namespace TypeText

section Spelled
variable {other : String → String} {table : ImportTable} {policy : NamingPolicy}
  {file : Option String}

/-- Holds of a name that is written alike under both names. -/
def SpelledAlike (other : String → String) (table : ImportTable) (policy : NamingPolicy)
    (file : Option String) (name : TypeRef) : Prop :=
  emitRef policy file (name.rename other table)
      (Resolved.resolveRef (table.rename other) file (name.rename other table)).1 =
    emitRef policy file name (Resolved.resolveRef table file name).1

mutual

/-- A type is written alike when its names are. -/
theorem emit_rename : ∀ e : TypeExpr, (∀ name ∈ e.refs, SpelledAlike other table policy file name) →
    emit policy file (Resolved.resolve (table.rename other) file (e.rename other table)).1 =
      emit policy file (Resolved.resolve table file e).1
  | .ref name, h => h name (by simp [TypeExpr.refs])
  | .array loc element, h => by
    have helement := emit_rename element h
    simp only [TypeExpr.rename, Resolved.resolve, emit, helement]
  | .union loc members, h => by
    have hmembers := emitAll_rename members h
    simp only [TypeExpr.rename, Resolved.resolve, emit, hmembers]

theorem emitAll_rename : ∀ es : List TypeExpr,
    (∀ name ∈ TypeExpr.refsOf es, SpelledAlike other table policy file name) →
    emitAll policy file
        (Resolved.resolveAll (table.rename other) file (TypeExpr.renameAll other table es)).1 =
      emitAll policy file (Resolved.resolveAll table file es).1
  | [], _ => rfl
  | e :: es, h => by
    have hfirst := emit_rename e fun name hname => h name (by simp [TypeExpr.refsOf, hname])
    have hrest := emitAll_rename es fun name hname => h name (by simp [TypeExpr.refsOf, hname])
    simp only [TypeExpr.renameAll, Resolved.resolveAll, emitAll, hfirst, hrest]

end

end Spelled

/-- What a file calls its imports does not matter: under other names, of which no two are the same
and which leave alone what was not imported, a type whose imports are used well is spelled as
before, and the same is said about it. -/
theorem ofExpr_ignores_local_names (table : ImportTable) (policy : NamingPolicy)
    (file : Option String) (e : TypeExpr) (other : String → String)
    (hinj : Function.Injective other)
    (hfixed : ∀ name ∈ e.refs, table.lookup name.base = none → other name.base = name.base)
    (hclean : (Resolved.resolve table file e).2 = []) :
    ofExpr (table.rename other) policy file (e.rename other table) =
      ofExpr table policy file e := by
  have hnames : ∀ name ∈ e.refs, (Resolved.resolveRef table file name).2 = [] := by
    rw [Resolved.resolve_diagnostics] at hclean
    exact List.flatMap_eq_nil_iff.1 hclean
  have heach := fun name hname =>
    emitRef_rename hinj policy file (hfixed name hname) (hnames name hname)
  have hnothing : (Resolved.resolve (table.rename other) file (e.rename other table)).2 = [] := by
    rw [Resolved.resolve_diagnostics, TypeExpr.refs_rename, List.flatMap_map]
    exact List.flatMap_eq_nil_iff.2 fun name hname => (heach name hname).1
  have hspelled := emit_rename e fun name hname => (heach name hname).2
  simp only [ofExpr, hspelled, hnothing, hclean]

/-- Two imports exchange their names: `Item | models.User[] | Missing` and
`models | Item.User[] | Missing` are spelled alike. -/
theorem ofExpr_ignores_exchanged_names :
    let table : ImportTable :=
      ⟨[⟨"Item", "shop", .symbol "Product", none⟩, ⟨"models", "app", .whole, none⟩]⟩
    let exchanged : ImportTable :=
      ⟨[⟨"models", "shop", .symbol "Product", none⟩, ⟨"Item", "app", .whole, none⟩]⟩
    let e (item models : String) : TypeExpr := .union ⟨1, 1⟩ [.ref ⟨⟨1, 1⟩, item, []⟩,
      .array ⟨1, 8⟩ (.ref ⟨⟨1, 8⟩, models, ["User"]⟩), .ref ⟨⟨1, 24⟩, "Missing", []⟩]
    (ofExpr table Language.python.policy none (e "Item" "models")).1 =
        "typing.Union[Product, typing.List[User], Missing]" ∧
      (ofExpr table Language.python.policy none (e "Item" "models")).2.length = 1 ∧
      ofExpr exchanged Language.python.policy none (e "models" "Item") =
        ofExpr table Language.python.policy none (e "Item" "models") := by
  intro table exchanged e
  refine ⟨by decide +kernel, by decide +kernel, ?_⟩
  have h := ofExpr_ignores_local_names table Language.python.policy none (e "Item" "models")
    (Equiv.swap "Item" "models") (Equiv.swap "Item" "models").injective ?_ ?_
  · exact h
  · intro name hname hunbound
    simp only [e, TypeExpr.refs, TypeExpr.refsOf, List.append_nil, List.singleton_append,
      List.mem_cons, List.not_mem_nil, or_false] at hname
    rcases hname with rfl | rfl | rfl
    · cases hunbound
    · cases hunbound
    · rfl
  · rfl

end TypeText

end DocSignature

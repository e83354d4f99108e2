import DocSignature.Language.Policy
import DocSignature.TypeText

/-!
# Which names are reported

Spelling a type goes through its names twice: once to resolve them and once to spell them. Together
the two passes report each faulty name once, at its place, and no other name. A member of an
imported module is spelled by the last name of a path that is never empty.
-/

namespace DocSignature

open Diagnostic (Kind Phase)

/-! ## Leaves of a resolved type -/

namespace Resolved

mutual

/-- The names in a resolved type with what they stand for, in the order in which they are
written. -/
def leaves : Resolved → List (TypeRef × RefTarget)
  | .ref name target => [(name, target)]
  | .array _ element => element.leaves
  | .union _ members => leavesOf members

def leavesOf : List Resolved → List (TypeRef × RefTarget)
  | [] => []
  | member :: rest => member.leaves ++ leavesOf rest

end

section Resolve
variable (table : ImportTable) (file : Option String)

mutual

/-- The names of a type are resolved one by one. -/
theorem leaves_resolve : ∀ e : TypeExpr, (resolve table file e).1.leaves =
    e.refs.map fun name => (name, (resolveRef table file name).1)
  | .ref _ => rfl
  | .array _ element => leaves_resolve element
  | .union _ members => leavesOf_resolveAll members

theorem leavesOf_resolveAll : ∀ es : List TypeExpr, leavesOf (resolveAll table file es).1 =
    (TypeExpr.refsOf es).map fun name => (name, (resolveRef table file name).1)
  | [] => rfl
  | e :: es => by
    rw [TypeExpr.refsOf, List.map_append, ← leaves_resolve e, ← leavesOf_resolveAll es]
    rfl

end

mutual

/-- What there is to say about the use of imports, name by name. -/
theorem resolve_diagnostics : ∀ e : TypeExpr, (resolve table file e).2 =
    e.refs.flatMap fun name => (resolveRef table file name).2
  | .ref _ => (List.flatMap_singleton ..).symm
  | .array _ element => resolve_diagnostics element
  | .union _ members => resolveAll_diagnostics members

theorem resolveAll_diagnostics : ∀ es : List TypeExpr, (resolveAll table file es).2 =
    (TypeExpr.refsOf es).flatMap fun name => (resolveRef table file name).2
  | [] => rfl
  | e :: es => by
    rw [TypeExpr.refsOf, List.flatMap_append, ← resolve_diagnostics e, ← resolveAll_diagnostics es]
    rfl

end

end Resolve

end Resolved

namespace TypeText

section Emit
variable (policy : NamingPolicy) (file : Option String)

mutual

/-- What there is to say about unknown names, name by name. -/
theorem emit_diagnostics : ∀ r : Resolved, (emit policy file r).2 =
    r.leaves.flatMap fun leaf => (emitRef policy file leaf.1 leaf.2).2
  | .ref _ _ => (List.flatMap_singleton ..).symm
  | .array _ element => emit_diagnostics element
  | .union _ members => emitAll_diagnostics members

theorem emitAll_diagnostics : ∀ rs : List Resolved, (emitAll policy file rs).2 =
    (Resolved.leavesOf rs).flatMap fun leaf => (emitRef policy file leaf.1 leaf.2).2
  | [] => rfl
  | r :: rs => by
    rw [Resolved.leavesOf, List.flatMap_append, ← emit_diagnostics r, ← emitAll_diagnostics rs]
    rfl

end

end Emit

/-! ## Faults of names -/

/-- What is wrong with a name: it asks for a member of an imported symbol, it is a whole module, or
it is neither imported nor known to the policy. -/
def fault? (table : ImportTable) (policy : NamingPolicy) (name : TypeRef) : Option Kind :=
  match table.lookup name.base with
  | some binding =>
    match binding.target with
    | .symbol _ => if name.rest = [] then none else some .memberOfNamedImport
    | .whole => if name.rest = [] then some .namespaceAsType else none
  | none => if (policy.lookup name.text).isNone then some .unknownType else none

/-- The phase that finds a fault. -/
def phaseOf : Kind → Phase
  | .unknownType => .emit
  | _ => .resolve

/-- The fault of a name with the phase that finds it and the place of the name. -/
def faultAt? (table : ImportTable) (policy : NamingPolicy) (file : Option String)
    (name : TypeRef) : Option (Phase × Kind × Span) :=
  (fault? table policy name).map fun kind => (phaseOf kind, kind, Span.ofLoc name.loc file)

/-- The phase, the kind and the place of a diagnostic. -/
def reported (d : Diagnostic) : Option Phase × Kind × Span :=
  (d.phase, d.kind, d.span)

/-- The faults that a phase finds, as they are reported. -/
def foundIn (phase : Phase) (faults : List (Phase × Kind × Span)) :
    List (Option Phase × Kind × Span) :=
  (faults.filter fun fault => fault.1 = phase).map fun fault => (some fault.1, fault.2)

theorem foundIn_filterMap (phase : Phase) (f : TypeRef → Option (Phase × Kind × Span))
    (names : List TypeRef) :
    foundIn phase (names.filterMap f) = names.flatMap fun name => foundIn phase (f name).toList := by
  induction names with
  | nil => rfl
  | cons name names ih =>
    rw [List.flatMap_cons, ← ih]
    cases hf : f name with
    | none => simp [hf, foundIn]
    | some fault => by_cases hp : fault.1 = phase <;> simp [hf, foundIn, hp]

section Name
variable (table : ImportTable) (policy : NamingPolicy) (file : Option String) (name : TypeRef)

theorem reported_resolveRef :
    (Resolved.resolveRef table file name).2.map reported =
      foundIn .resolve (faultAt? table policy file name).toList := by
  unfold Resolved.resolveRef faultAt? fault?
  cases table.lookup name.base with
  | none => cases policy.lookup name.text <;> rfl
  | some binding =>
    obtain ⟨_, _, target, _⟩ := binding
    cases target <;> cases name.rest <;> rfl

theorem reported_emitRef :
    (emitRef policy file name (Resolved.resolveRef table file name).1).2.map reported =
      foundIn .emit (faultAt? table policy file name).toList := by
  unfold Resolved.resolveRef faultAt? fault?
  cases table.lookup name.base with
  | none =>
    simp only [emitRef]
    cases policy.lookup name.text <;> rfl
  | some binding =>
    obtain ⟨_, _, target, _⟩ := binding
    cases target <;> cases name.rest <;> rfl

/-- A name that stands for something in a whole module is a path into it. -/
theorem resolveRef_eq_member {binding : Binding}
    (hbinding : (Resolved.resolveRef table file name).1.binding? = some binding)
    (hwhole : binding.target = .whole) :
    ∃ first more, name.rest = first :: more ∧
      (Resolved.resolveRef table file name).1 = .member binding first more := by
  unfold Resolved.resolveRef at hbinding ⊢
  generalize table.lookup name.base = found at hbinding ⊢
  generalize name.rest = rest at hbinding ⊢
  match found, rest with
  | none, _ => cases hbinding
  | some ⟨_, _, .symbol _, _⟩, [] =>
    -- An imported symbol keeps its own binding, which is not of a whole module.
    cases hbinding
    cases hwhole
  | some ⟨_, _, .symbol _, _⟩, _ :: _ => cases hbinding
  | some ⟨_, _, .whole, _⟩, [] => cases hbinding
  | some ⟨_, _, .whole, _⟩, first :: more =>
    cases hbinding
    exact ⟨first, more, rfl, rfl⟩

/-- The text of a member of a module is its last name. -/
theorem emitRef_member (binding : Binding) (first : String) (more : List String) :
    (emitRef policy file name (.member binding first more)).1 =
      policy.spell ((first :: more).getLast (List.cons_ne_nil first more)) := by
  rw [emitRef, List.getLast_eq_getLastD]

end Name

/-- Spelling a type reports its faulty names and no others, each once and at its place: first those
that are used against their imports, then the unknown ones, in the order of the names. The path to a
member of a module is never empty, and its last name is spelled. -/
theorem ofExpr_reports_faulty_names (table : ImportTable) (policy : NamingPolicy)
    (file : Option String) (e : TypeExpr) :
    let faults := e.refs.filterMap (faultAt? table policy file)
    let resolved := Resolved.resolve table file e
    let spelled := emit policy file resolved.1
    (ofExpr table policy file e).2 = resolved.2 ++ spelled.2 ∧
    resolved.2.map reported = foundIn .resolve faults ∧
    spelled.2.map reported = foundIn .emit faults ∧
    resolved.1.leaves.map (·.1) = e.refs ∧
    ∀ leaf ∈ resolved.1.leaves, ∀ binding, leaf.2.binding? = some binding →
      binding.target = .whole →
      leaf.2.memberPath = leaf.1.rest ∧ ∃ hne : leaf.2.memberPath ≠ [],
        (emitRef policy file leaf.1 leaf.2).1 = policy.spell (leaf.2.memberPath.getLast hne) := by
  intro faults resolved spelled
  refine ⟨rfl, ?_, ?_, ?_, ?_⟩
  · simp only [faults, resolved, Resolved.resolve_diagnostics, List.map_flatMap, foundIn_filterMap,
      reported_resolveRef table policy]
  · simp only [faults, spelled, resolved, emit_diagnostics, Resolved.leaves_resolve,
      List.flatMap_map, List.map_flatMap, foundIn_filterMap, reported_emitRef]
  · simp [resolved, Resolved.leaves_resolve, Function.comp_def]
  · intro leaf hleaf binding hbinding hwhole
    rw [Resolved.leaves_resolve] at hleaf
    obtain ⟨name, -, rfl⟩ := List.mem_map.1 hleaf
    obtain ⟨first, more, hrest, htarget⟩ := resolveRef_eq_member table file name hbinding hwhole
    simp only [htarget]
    exact ⟨hrest.symm, List.cons_ne_nil first more, emitRef_member policy file name ..⟩

/-- In `Missing | Item.x | (models | models.User)[]`, with a symbol `Item` and a module `models`
imported, three names are reported, and the fourth is spelled by its last part. -/
theorem ofExpr_reports_names_in_union :
    let table : ImportTable :=
      ⟨[⟨"Item", "shop", .symbol "Item", none⟩, ⟨"models", "app", .whole, none⟩]⟩
    let policy := Language.python.policy
    let user : TypeRef := ⟨⟨1, 30⟩, "models", ["User"]⟩
    let e : TypeExpr := .union ⟨1, 1⟩ [.ref ⟨⟨1, 1⟩, "Missing", []⟩,
      .ref ⟨⟨1, 11⟩, "Item", ["x"]⟩,
      .array ⟨1, 20⟩ (.union ⟨1, 21⟩ [.ref ⟨⟨1, 21⟩, "models", []⟩, .ref user])]
    (ofExpr table policy none e).2.map reported =
      [(some .resolve, .memberOfNamedImport, Span.ofLoc ⟨1, 11⟩ none),
        (some .resolve, .namespaceAsType, Span.ofLoc ⟨1, 21⟩ none),
        (some .emit, .unknownType, Span.ofLoc ⟨1, 1⟩ none)] ∧
    (emitRef policy none user (Resolved.resolveRef table none user).1).1 = policy.spell "User" := by
  intro table policy user e
  obtain ⟨hboth, hresolved, hspelled, -, hmember⟩ := ofExpr_reports_faulty_names table policy none e
  constructor
  · rw [hboth, List.map_append, hresolved, hspelled]
    rfl
  · have huser : (user, (Resolved.resolveRef table none user).1) ∈
        (Resolved.resolve table none e).1.leaves := by
      rw [Resolved.leaves_resolve]
      exact List.mem_map_of_mem (by simp [e, TypeExpr.refs, TypeExpr.refsOf])
    obtain ⟨-, _, htext⟩ := hmember _ huser ⟨"models", "app", .whole, none⟩ rfl rfl
    exact htext

end TypeText

end DocSignature

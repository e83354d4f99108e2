import DocSignature.Files.OutputLayout
import DocSignature.Language.Basic

/-!
# Which results share a file

Each result is written under the output directory where its source stands under the directory that
all sources share. Results of different directories never meet, and in one directory only those meet
whose sources differ in nothing but the last extension. This is so however links lead from one place
to another. Targets that differ may lead to one place again only through a link that stands between
the output directory and one of them.
-/

namespace DocSignature

theorem PathName.append_inj (p : PathName) {below other : List String} :
    p.append below = p.append other ↔ below = other := by
  simp [append]

namespace OutputLayout

/-! ## The shared directory -/

theorem commonStart_prefix_left (a b : List String) : commonStart a b <+: a := by
  fun_induction commonStart a b with
  | case1 part as bs ih => exact List.cons_prefix_cons.2 ⟨rfl, ih⟩
  | case2 => exact List.nil_prefix
  | case3 => exact List.nil_prefix

theorem commonStart_prefix_right (a b : List String) : commonStart a b <+: b := by
  fun_induction commonStart a b with
  | case1 part as bs ih => exact List.cons_prefix_cons.2 ⟨rfl, ih⟩
  | case2 => exact List.nil_prefix
  | case3 => exact List.nil_prefix

theorem prefix_of_foldl_commonStart (ds : List (List String)) (start : List String) :
    ds.foldl commonStart start <+: start ∧ ∀ d ∈ ds, ds.foldl commonStart start <+: d := by
  induction ds generalizing start with
  | nil => simp
  | cons d ds ih =>
    obtain ⟨hstart, hrest⟩ := ih (commonStart start d)
    refine ⟨hstart.trans (commonStart_prefix_left start d), ?_⟩
    intro x hx
    rcases List.mem_cons.1 hx with rfl | hx
    · exact hstart.trans (commonStart_prefix_right start x)
    · exact hrest x hx

/-- Every directory starts with the one that all of them share. -/
theorem prefix_of_sharedDirectory {d : List String} {ds : List (List String)} (h : d ∈ ds) :
    sharedDirectory ds <+: d := by
  cases ds with
  | nil => cases h
  | cons first rest =>
    obtain ⟨hfirst, hrest⟩ := prefix_of_foldl_commonStart rest first
    rcases List.mem_cons.1 h with rfl | h
    · exact hfirst
    · exact hrest d h

/-! ## Targets -/

variable {resolve : PathName → List String}

/-- Holds of two sources in one directory whose names differ at most in the last extension. -/
def SameResult (resolve : PathName → List String) (a b : PathName) : Prop :=
  directoryOf resolve a = directoryOf resolve b ∧ a.stem = b.stem

instance (resolve : PathName → List String) (a b : PathName) :
    Decidable (SameResult resolve a b) :=
  inferInstanceAs (Decidable (_ ∧ _))

/-- Holds when no link stands between a directory and a path under it: what the path adds leads down
from the directory. -/
def NoLinkBetween (resolve : PathName → List String) (directory path : PathName) : Prop :=
  resolve path = resolve directory ++ path.parts.drop directory.parts.length

instance (resolve : PathName → List String) (directory path : PathName) :
    Decidable (NoLinkBetween resolve directory path) :=
  inferInstanceAs (Decidable (_ = _))

theorem resolve_append_inj {out : PathName} {below other : List String}
    (h : NoLinkBetween resolve out (out.append below))
    (hother : NoLinkBetween resolve out (out.append other)) :
    resolve (out.append below) = resolve (out.append other) ↔ below = other := by
  rw [h, hother]
  simp [PathName.append]

/-- What the target of a source adds to the output directory. -/
def below (resolve : PathName → List String) (shared : List String) (extension : String)
    (source : PathName) : List String :=
  (directoryOf resolve source).drop shared.length ++ [source.stem ++ extension]

theorem below_inj {shared : List String} {a b : PathName} (ha : shared <+: directoryOf resolve a)
    (hb : shared <+: directoryOf resolve b) (extension : String) :
    below resolve shared extension a = below resolve shared extension b ↔
      SameResult resolve a b := by
  obtain ⟨insideA, ha⟩ := ha
  obtain ⟨insideB, hb⟩ := hb
  simp only [below, SameResult, ← ha, ← hb, List.drop_left, List.append_singleton_inj,
    String.append_left_inj, List.append_cancel_left_eq]

/-- No stem and extension make a double dot. -/
theorem stem_append_ne (stem : String) (language : Language) :
    stem ++ language.extension ≠ ".." := by
  intro h
  have hlast := congrArg (fun s => s.toList.getLast?) h
  cases language <;> simp [Language.extension] at hlast

theorem dots_not_mem_below {source : PathName} (h : ".." ∉ resolve source) (shared : List String)
    (language : Language) : ".." ∉ below resolve shared language.extension source := by
  intro hmem
  rcases List.mem_append.1 hmem with hinside | hname
  · exact h (List.dropLast_subset _ (List.mem_of_mem_drop hinside))
  · exact stem_append_ne source.stem language (List.mem_singleton.1 hname).symm

theorem of_mem_zip_targets {out : PathName} {extension : String} {sources : List PathName}
    {source path : PathName}
    (h : (source, path) ∈ sources.zip (targets resolve out extension sources)) :
    let shared := sharedDirectory (sources.map (directoryOf resolve))
    source ∈ sources ∧ shared <+: directoryOf resolve source ∧
      path = out.append (below resolve shared extension source) := by
  intro shared
  have hzip : sources.zip (targets resolve out extension sources) =
      sources.map fun source => (source, target resolve shared out extension source) := by
    have hboth := List.zip_map' (f := id) (g := target resolve shared out extension) (l := sources)
    rwa [List.map_id] at hboth
  rw [hzip] at h
  obtain ⟨source, hsource, heq⟩ := List.mem_map.1 h
  cases heq
  exact ⟨hsource, prefix_of_sharedDirectory (List.mem_map_of_mem hsource), rfl⟩

/-- Results keep the layout of their sources under the output directory. Two of them have the same
path exactly when their sources stand in one directory and have the same stem, wherever links lead.
With no link between the output directory and the two, this is also when they lead to the same
place. -/
theorem targets_apart (resolve : PathName → List String) (out : PathName) (language : Language)
    (sources : List PathName) (hresolve : ∀ source ∈ sources, ".." ∉ resolve source) :
    let placed := sources.zip (targets resolve out language.extension sources)
    placed.map (·.1) = sources ∧
    (∀ a ∈ placed, ∀ b ∈ placed,
      (a.2 = b.2 ↔ SameResult resolve a.1 b.1) ∧
      (NoLinkBetween resolve out a.2 → NoLinkBetween resolve out b.2 →
        (resolve a.2 = resolve b.2 ↔ SameResult resolve a.1 b.1))) ∧
    ∃ shared, ∀ a ∈ placed, ∃ inside,
      directoryOf resolve a.1 = shared ++ inside ∧
      a.2 = out.append (inside ++ [a.1.stem ++ language.extension]) ∧
      ".." ∉ inside ++ [a.1.stem ++ language.extension] := by
  intro placed
  refine ⟨List.map_fst_zip (by simp [targets]), ?_,
    sharedDirectory (sources.map (directoryOf resolve)), ?_⟩
  · rintro ⟨a, pathA⟩ ha ⟨b, pathB⟩ hb
    obtain ⟨-, hstartA, rfl⟩ := of_mem_zip_targets ha
    obtain ⟨-, hstartB, rfl⟩ := of_mem_zip_targets hb
    rw [← below_inj hstartA hstartB]
    exact ⟨PathName.append_inj out, resolve_append_inj⟩
  · rintro ⟨a, path⟩ ha
    obtain ⟨hsource, hstart, rfl⟩ := of_mem_zip_targets ha
    exact ⟨_, (List.prefix_iff_eq_append.1 hstart).symm, rfl,
      dots_not_mem_below (hresolve a hsource) _ language⟩

/-- The place that is reached when one directory is a link to another. -/
def throughLink (link other place : List String) : List String :=
  if link.isPrefixOf place then other ++ place.drop link.length else place

/-- Six sources, of which four have one name and three stand in one directory. One file is named
twice, once through a link to that directory, and only its two results share a place. -/
theorem targets_of_same_names_apart :
    let current := ["home", "me"]
    let resolve := fun p : PathName =>
      throughLink ["home", "me", "old"] ["home", "me", "b"] (p.placeFrom current)
    let sources := ["a/x.js", "b/x.js", "b/x.min.js", "../you/x.js", "b/../.x", "old/x.js"].map
      PathName.ofText
    let out := PathName.ofText "../out"
    let paths := targets resolve out Language.go.extension sources
    paths.map PathName.text =
        ["../out/me/a/x.go", "../out/me/b/x.go", "../out/me/b/x.min.go", "../out/you/x.go",
          "../out/me/.x.go", "../out/me/b/x.go"] ∧
      ∀ a ∈ sources.zip paths, ∀ b ∈ sources.zip paths,
        resolve a.2 = resolve b.2 ↔ resolve a.1 = resolve b.1 := by
  intro current resolve sources out paths
  have hsame : ∀ a ∈ sources, ∀ b ∈ sources,
      SameResult resolve a b ↔ resolve a = resolve b := by
    decide +kernel
  have hlinks : ∀ path ∈ paths, NoLinkBetween resolve out path := by
    decide +kernel
  obtain ⟨-, hapart, -⟩ := targets_apart resolve out .go sources (by decide +kernel)
  refine ⟨by decide +kernel, ?_⟩
  intro a ha b hb
  obtain ⟨hsourceA, hpathA⟩ := List.of_mem_zip ha
  obtain ⟨hsourceB, hpathB⟩ := List.of_mem_zip hb
  rw [(hapart a ha b hb).2 (hlinks a.2 hpathA) (hlinks b.2 hpathB)]
  exact hsame a.1 hsourceA b.1 hsourceB

/-- Two sources in one directory whose names differ only in the last extension are written to one
file. -/
theorem targets_of_two_extensions_meet :
    let script := PathName.ofText "x.js"
    let typed := PathName.ofText "x.ts"
    script.name ≠ typed.name ∧
      targets (PathName.placeFrom []) (.ofText "out") Language.python.extension [script, typed] =
        [.ofText "out/x.py", .ofText "out/x.py"] := by
  decide +kernel

end OutputLayout

end DocSignature

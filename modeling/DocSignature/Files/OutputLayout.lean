import DocSignature.Files.PathName

/-!
# Where results are written

Results keep the layout of their sources: each one stands under the output directory where its
source stands under the deepest directory that all sources share. Where a source stands is for the
system to say, which knows the links: `resolve` gives the parts that a path leads to from the root
of all files, with every link followed.
-/

namespace DocSignature.OutputLayout

/-- The parts that two paths start with alike. -/
def commonStart : List String → List String → List String
  | a :: as, b :: bs => if a = b then a :: commonStart as bs else []
  | _, _ => []

/-- The deepest directory that some directories share. -/
def sharedDirectory : List (List String) → List String
  | [] => []
  | d :: rest => rest.foldl commonStart d

/-- The directory of a source, from the root of all files. -/
def directoryOf (resolve : PathName → List String) (source : PathName) : List String :=
  (resolve source).dropLast

/-- Where the result of a source goes, given the directory that all sources share. -/
def target (resolve : PathName → List String) (shared : List String) (out : PathName)
    (extension : String) (source : PathName) : PathName :=
  out.append ((directoryOf resolve source).drop shared.length ++ [source.stem ++ extension])

/-- Where the results of some sources go. -/
def targets (resolve : PathName → List String) (out : PathName) (extension : String)
    (sources : List PathName) : List PathName :=
  sources.map
    (target resolve (sharedDirectory (sources.map (directoryOf resolve))) out extension)

end DocSignature.OutputLayout

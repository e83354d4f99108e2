/-!
# Dictionaries

Entries under text keys, in the order in which the keys were first set. Setting a key again keeps
its place and replaces its value.
-/

namespace DocSignature

/-- Entries in the order of their keys' first setting. -/
abbrev Dictionary (α : Type) := List (String × α)

namespace Dictionary

/-- The value under a key. -/
def get? (key : String) : Dictionary α → Option α
  | [] => none
  | (k, v) :: rest => if k = key then some v else get? key rest

/-- The dictionary with `value` under `key`. -/
def set (key : String) (value : α) : Dictionary α → Dictionary α
  | [] => [(key, value)]
  | (k, v) :: rest => if k = key then (k, value) :: rest else (k, v) :: set key value rest

/-- The dictionary with every entry of `more` set in turn. -/
def merge (d more : Dictionary α) : Dictionary α :=
  more.foldl (fun acc entry => set entry.1 entry.2 acc) d

end Dictionary

end DocSignature

/-!
# Entries in key order

Registries list their entries by key, each key once and in increasing order. Texts are ordered by
their characters, which is the order of the bytes of their UTF-8 encodings.
-/

namespace SymbolIndex.Entries

variable {α : Type}

/-- The value at a key. -/
def get? (k : String) : List (String × α) → Option α
  | [] => none
  | (k', v) :: r => if k = k' then some v else get? k r

/-- The entries with the value at `k` replaced by what `f` makes of it; a key that is not there is
added in its place. -/
def alter (k : String) (f : Option α → α) : List (String × α) → List (String × α)
  | [] => [(k, f none)]
  | (k', v) :: r =>
    if k = k' then (k', f (some v)) :: r
    else if k < k' then (k, f none) :: (k', v) :: r
    else (k', v) :: alter k f r

/-- The entries with the value `v` at `k`. -/
def insert (k : String) (v : α) (entries : List (String × α)) : List (String × α) :=
  alter k (fun _ => v) entries

/-- The texts in increasing order, each once. -/
def sortedKeys (ks : List String) : List String :=
  (ks.foldl (fun es k => insert k () es) []).map (·.1)

end SymbolIndex.Entries

import SymbolIndex.Toml.Reader

/-!
# Growing tables

The rules by which keys and headers add to the tables of a document. A name gets a value once. A
dotted key may only go through tables that dotted keys made; a header may go through any table, and
through the last of the tables with a double header.
-/

namespace SymbolIndex.Toml

/-- What is done to the table that a path leads to. -/
abbrev Change := TableForm → Entries → Except Clash Entries

/-- Changes the table at the end of `path`, `form` and `entries` being those of the table it starts
from. Tables that are not there are made, in the form `made`; `done` are the steps before `path`. -/
def changeAt (made : TableForm) (change : Change) (whole : List String) :
    (done : Nat) → List KeyPart → TableForm → Entries → Except Clash Entries
  | _, [], form, entries => change form entries
  | done, k :: path, _, entries => match lookup k.name entries with
    | none => do
      let inner ← changeAt made change whole (done + 1) path made []
      pure (assign k.name (.table k.span made inner) entries)
    | some (.table span form inner) =>
      if made = .dotted && !form.isOpen then .error (.duplicate k.name none)
      else do
        let inner ← changeAt made change whole (done + 1) path form inner
        pure (assign k.name (.table span form inner) entries)
    | some (.tables span ts) => match ts.getLast? with
      | some (.table last form inner) => do
        let inner ← changeAt made change whole (done + 1) path form inner
        pure (assign k.name (.tables span (ts.dropLast ++ [.table last form inner])) entries)
      | _ => .error (.notTable (whole.take (done + 1)) "array of tables")
    | some v => .error (.notTable (whole.take (done + 1)) v.typeName)

/-- Gives a name its value in the table at the end of a dotted path; `around` are the tables to
mention if the name has a value. -/
def define (around : Option (List String)) (path : List KeyPart) (name : KeyPart) (v : Toml) :
    Change :=
  changeAt .dotted (fun form entries =>
    if (form = .dotted) = path.isEmpty then .error (.duplicate name.name none)
    else match lookup name.name entries with
      | some _ => .error (.duplicate name.name around)
      | none => .ok (assign name.name v entries)) (path.map (·.name)) 0 path

/-- Opens the table of a header in single brackets. -/
def openTable (path : List KeyPart) (name : KeyPart) (span : Span) (entries : Entries) :
    Except Clash Entries :=
  let steps := path.map (·.name)
  changeAt .implied (fun _ entries => match lookup name.name entries with
    | none => .ok (assign name.name (.table span .header []) entries)
    | some (.table _ .implied inner) =>
      .ok (assign name.name (.table span .header inner) (without name.name entries))
    | some _ => .error (.duplicate name.name (some steps))) steps 0 path .header entries

/-- Opens one more table of a header in double brackets. -/
def openTables (path : List KeyPart) (name : KeyPart) (span : Span) (entries : Entries) :
    Except Clash Entries :=
  let steps := path.map (·.name)
  changeAt .implied (fun _ entries => match lookup name.name entries with
    | none => .ok (assign name.name (.tables span [.table span .header []]) entries)
    | some (.tables first ts) =>
      .ok (assign name.name (.tables ⟨first.start, span.stop⟩ (ts ++ [.table span .header []]))
        entries)
    | some _ => .error (.duplicate name.name (some steps))) steps 0 path .header entries

/-- Changes the open table, which is the document itself if `path` is empty, and lets it reach up to
the place `stop`. -/
def changeOpen (stop : Nat) (change : Change) : List String → Entries → Except Clash Entries
  | [], entries => change .header entries
  | [name], entries => match lookup name entries with
    | some (.table span form inner) => do
      let inner ← change form inner
      pure (assign name (.table ⟨span.start, stop⟩ form inner) entries)
    | some (.tables span ts) => match ts.getLast? with
      | some (.table last form inner) => do
        let inner ← change form inner
        let ts := ts.dropLast ++ [.table ⟨last.start, stop⟩ form inner]
        pure (assign name (.tables ⟨span.start, stop⟩ ts) entries)
      | _ => pure entries
    | _ => pure entries
  | name :: path, entries => match lookup name entries with
    | some (.table span form inner) => do
      let inner ← changeOpen stop change path inner
      pure (assign name (.table span form inner) entries)
    | some (.tables span ts) => match ts.getLast? with
      | some (.table last form inner) => do
        let inner ← changeOpen stop change path inner
        pure (assign name (.tables span (ts.dropLast ++ [.table last form inner])) entries)
      | _ => pure entries
    | _ => pure entries

end SymbolIndex.Toml

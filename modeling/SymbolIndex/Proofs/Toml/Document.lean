import SymbolIndex.Proofs.Toml.Value

/-!
# Documents are read line by line

A document is read as a draft that every line adds to: a header opens a table, and an entry goes into
the table that is open, which is the document itself at first. What is expected of the entries is
given by name, up to spans (`Matches`). The invariant of the lines is that the entries so far match
what was written, the open table being the last one (`Draft.IsAt`); each kind of line keeps it, and so
do the lines of a table one after the other (`reads_lines`) and the tables of a document
(`reads_sections`).

A document is laid out as lines and sections (`Layout`). The keys and values in it may be any texts
that are read as such. If no name comes twice in a table, the layout is a document with the entries
that were written (`Layout.exists_entries`).
-/

namespace SymbolIndex.Toml

open Reader

variable {α : Type} {text after name : List Char} {p : α → Prop}

/-! ### Keys -/

/-- The name may stand without quotes. -/
structure IsBare (name : List Char) : Prop where
  ne_nil : name ≠ []
  bare : ∀ c ∈ name, isBareChar c = true

theorem not_isBareChar_of_isBlank {c : Char} (h : isBlank c = true) : isBareChar c = false := by
  rw [isBlank, Bool.or_eq_true, decide_eq_true_eq, decide_eq_true_eq] at h
  rcases h with rfl | rfl <;> decide

/-- A key starts with none of the characters that start something else. -/
theorem ne_of_startsKey {c d : Char} {cs : List Char} (hc : startsKey (c :: cs) = true)
    (hd : startsKey [d] = false) : c ≠ d := by
  rintro rfl
  rw [startsKey] at hc hd
  rw [hc] at hd
  cases hd

theorem exists_cons_of_startsKey {key : List Char} (h : startsKey key = true) :
    ∃ c cs, key = c :: cs := by
  cases key with
  | nil => cases h
  | cons c cs => exact ⟨c, cs, rfl⟩

/-- A key is no gap. -/
theorem solid_of_startsKey {key : List Char} (h : startsKey key = true) (after : List Char) :
    Solid (key ++ after) := by
  obtain ⟨c, cs, rfl⟩ := exists_cons_of_startsKey h
  intro d hd
  cases hd
  refine ⟨Bool.eq_false_iff.mpr fun hblank => ?_, ne_of_startsKey h (by decide),
    ne_of_startsKey h (by decide), ne_of_startsKey h (by decide)⟩
  rw [isBlank, Bool.or_eq_true, decide_eq_true_eq, decide_eq_true_eq] at hblank
  exact hblank.elim (ne_of_startsKey h (by decide)) (ne_of_startsKey h (by decide))

/-- A text that is read as the step of a key with a name. -/
structure IsKeyText (key : List Char) (name : String) : Prop where
  start : startsKey key = true
  reads : ∀ after, (∀ c ∈ after.head?, isBareChar c = false) →
    Reads keyPart? key after fun k => ∃ span, k = some ⟨name, span⟩

/-- A bare name is written as it is. -/
theorem isKeyText_of_isBare {name : String} (h : IsBare name.toList) :
    IsKeyText name.toList name := by
  obtain ⟨c, cs, hname⟩ := List.exists_cons_of_ne_nil h.ne_nil
  have hc : isBareChar c = true := h.bare c (hname ▸ List.mem_cons_self)
  constructor
  · rw [hname, startsKey, hc, Bool.or_true]
  intro after hafter
  refine reads_offset fun start => reads_rest ?_
  -- A bare character is none of the quotes.
  split
  · rename_i heq
    rw [hname] at heq
    obtain ⟨rfl, -⟩ := List.cons.inj heq
    exact absurd hc (by decide)
  · rename_i heq
    rw [hname] at heq
    obtain ⟨rfl, -⟩ := List.cons.inj heq
    exact absurd hc (by decide)
  · refine (reads_takeWhile h.bare hafter).bind_nil fun taken htaken => ?_
    subst htaken
    rw [if_neg (by simp [hname])]
    refine reads_offset fun stop => reads_pure ⟨⟨start, stop⟩, ?_⟩
    rw [String.ofList_toList]

/-- Every name can be written in quotes. -/
theorem isKeyText_quoted (name : String) :
    IsKeyText ('"' :: ((escapedLine name.toList).toList ++ ['"'])) name where
  start := rfl
  reads after _ := by
    refine reads_offset fun start => reads_rest ?_
    refine (reads_basicString name.toList).bind_nil fun t ht => reads_offset fun stop => ?_
    rw [ht, String.ofList_toList]
    exact reads_pure ⟨⟨start, stop⟩, rfl⟩

/-- A single name is a key of one step. -/
theorem reads_key {construct : Option String} {key bs : List Char} {name : String}
    (hkey : IsKeyText key name) (hbs : ∀ c ∈ bs, isBlank c = true)
    (hafter : ∀ c ∈ after.head?, isBlank c = false ∧ isBareChar c = false ∧ c ≠ '.') :
    Reads (Toml.key construct) (key ++ bs) after fun k => k.1.name = name ∧ k.2 = [] := by
  have hblanks : Reads blanks [] ((key ++ bs) ++ after) fun _ => True := by
    refine reads_blanks (List.forall_mem_nil _) fun c hc => ?_
    rw [List.append_assoc] at hc
    exact (solid_of_startsKey hkey.start _ c hc).1
  have hpart : Reads keyPart? key (bs ++ after) fun k => ∃ span, k = some ⟨name, span⟩ := by
    refine hkey.reads _ fun c hc => ?_
    cases bs with
    | nil => exact (hafter c hc).2.1
    | cons b bs =>
      cases hc
      exact not_isBareChar_of_isBlank (hbs c List.mem_cons_self)
  -- Without a dot there is no further step.
  have hothers : Reads (repeatUntil keyRound []) [] after (· = []) := by
    refine Reads.last (reads_rest ?_)
    split
    · rename_i heq
      rw [List.nil_append] at heq
      exact absurd rfl (hafter '.' (heq ▸ rfl)).2.2
    · exact reads_pure ⟨[], rfl, rfl⟩
  refine reads_offset fun start => hblanks.nil_bind fun _ _ => hpart.bind ?_
  rintro _ ⟨span, rfl⟩
  refine (reads_blanks hbs fun c hc => (hafter c hc).1).bind_nil fun _ _ => ?_
  refine hothers.nil_bind ?_
  rintro _ rfl
  exact reads_pure ⟨rfl, rfl⟩

/-! ### Lines -/

/-- A line that ends here. -/
theorem reads_lineTrailing : Reads lineTrailing ['\n'] after fun _ => True := by
  have hblanks : Reads blanks [] (['\n'] ++ after) fun _ => True :=
    reads_blanks (List.forall_mem_nil _) fun c hc => by cases hc; decide
  have hcomment : Reads comment [] (['\n'] ++ after) fun _ => True :=
    reads_no_comment fun c hc => by cases hc; decide
  exact hblanks.nil_bind fun _ _ => hcomment.nil_bind fun _ _ => reads_rest (reads_skip rfl)

/-- What is expected of entries: their names in order, and a property of each value. -/
abbrev Expected := List (String × (Toml → Prop))

/-- The entries are the expected ones. -/
def Matches (entries : Entries) (expected : Expected) : Prop :=
  List.Forall₂ (fun entry e => entry.1 = e.1 ∧ e.2 entry.2) entries expected

/-- The value is a table with a header of its own and the expected entries. -/
def IsTable (expected : Expected) (v : Toml) : Prop :=
  ∃ span inner, v = .table span .header inner ∧ Matches inner expected

section
variable {entries : Entries} {expected : Expected} {key : String} {v : Toml}

/-- What is there is expected. -/
theorem Matches.exists_of_mem (h : Matches entries expected) (hv : (key, v) ∈ entries) :
    ∃ e ∈ expected, e.1 = key ∧ e.2 v := by
  induction h with
  | nil => cases hv
  | @cons entry e _ _ head _ ih =>
    rcases List.mem_cons.mp hv with rfl | hv
    · exact ⟨e, List.mem_cons_self, head.1.symm, head.2⟩
    · obtain ⟨e', he', hholds⟩ := ih hv
      exact ⟨e', List.mem_cons_of_mem _ he', hholds⟩

/-- What is expected is there. -/
theorem Matches.exists_mem {e : String × (Toml → Prop)} (h : Matches entries expected)
    (he : e ∈ expected) : ∃ v, (e.1, v) ∈ entries := by
  induction h with
  | nil => cases he
  | @cons entry _ _ _ head _ ih =>
    rcases List.mem_cons.mp he with rfl | he
    · exact ⟨entry.2, head.1 ▸ List.mem_cons_self⟩
    · obtain ⟨v, hv⟩ := ih he
      exact ⟨v, List.mem_cons_of_mem _ hv⟩

/-- A name that is not expected is not there. -/
theorem Matches.lookup_eq_none (h : Matches entries expected) (hkey : ∀ e ∈ expected, e.1 ≠ key) :
    lookup key entries = none := by
  induction h with
  | nil => rfl
  | @cons entry e _ _ head _ ih =>
    have hne : entry.1 ≠ key := head.1 ▸ hkey e List.mem_cons_self
    rw [lookup, if_neg hne]
    exact ih fun e he => hkey e (List.mem_cons_of_mem _ he)

/-- A name that is not there comes last. -/
theorem Matches.assign_new (h : Matches entries expected) (hkey : ∀ e ∈ expected, e.1 ≠ key)
    {holds : Toml → Prop} (hv : holds v) :
    Matches (assign key v entries) (expected ++ [(key, holds)]) := by
  induction h with
  | nil => exact .cons ⟨rfl, hv⟩ .nil
  | @cons entry e _ _ head _ ih =>
    have hne : entry.1 ≠ key := head.1 ▸ hkey e List.mem_cons_self
    rw [assign, if_neg hne]
    exact .cons head (ih fun e he => hkey e (List.mem_cons_of_mem _ he))

/-- The last value may be replaced. -/
theorem Matches.last {holds : Toml → Prop} (h : Matches entries (expected ++ [(key, holds)]))
    (hkey : ∀ e ∈ expected, e.1 ≠ key) :
    ∃ v, lookup key entries = some v ∧ holds v ∧ ∀ (holds' : Toml → Prop) (w : Toml), holds' w →
      Matches (assign key w entries) (expected ++ [(key, holds')]) := by
  induction expected generalizing entries with
  | nil =>
    cases h with
    | @cons entry _ _ _ head tail =>
      cases tail
      refine ⟨entry.2, ?_, head.2, fun holds' w hw => ?_⟩
      · rw [lookup, if_pos head.1]
      · rw [assign, if_pos head.1]
        exact .cons ⟨head.1, hw⟩ .nil
  | cons e expected ih =>
    cases h with
    | @cons entry _ _ _ head tail =>
      have hne : entry.1 ≠ key := head.1 ▸ hkey e List.mem_cons_self
      obtain ⟨v, hlookup, hv, hassign⟩ := ih tail fun e he => hkey e (List.mem_cons_of_mem _ he)
      refine ⟨v, ?_, hv, fun holds' w hw => ?_⟩
      · rw [lookup, if_neg hne, hlookup]
      · rw [assign, if_neg hne]
        exact .cons head (hassign holds' w hw)

end

/-! ### Changes of a draft -/

/-- Where entries go: to the document itself, or to its last table, which comes after the entries
`before`. -/
inductive Place where
  | top
  | table (before : Expected) (name : String)

namespace Place

/-- The way to the table. -/
def path : Place → List String
  | top => []
  | table _ name => [name]

/-- What is expected of the document if `inner` is expected at the place. -/
def whole : Place → Expected → Expected
  | top, inner => inner
  | table before name, inner => before ++ [(name, IsTable inner)]

end Place

/-- Entries go to the place, and those that are there so far are as expected. -/
structure Draft.IsAt (d : Draft) (o : Place) (inner : Expected) : Prop where
  path : d.path = o.path
  entries : Matches d.entries (o.whole inner)
  fresh : ∀ before table, o = .table before table → ∀ e ∈ before, e.1 ≠ table

variable {d : Draft} {o : Place} {expected inner : Expected} {key : List Char} {name : String}

/-- A name gets its value in the table that is open. -/
theorem Draft.IsAt.exists_changeOpen (hd : d.IsAt o inner) {k : KeyPart}
    (hkey : ∀ e ∈ inner, e.1 ≠ k.name) {v : Toml} {holds : Toml → Prop} (hv : holds v) :
    ∃ entries, changeOpen v.span.stop (define (some d.path) [] k v) d.path d.entries = .ok entries ∧
      Draft.IsAt ⟨entries, d.path⟩ o (inner ++ [(k.name, holds)]) := by
  obtain ⟨hpath, hentries, hfresh⟩ := hd
  cases o with
  | top =>
    refine ⟨assign k.name v d.entries, ?_, hpath, hentries.assign_new hkey hv, hfresh⟩
    rw [hpath, Place.path, changeOpen, define, List.map_nil, changeAt, if_neg (by simp),
      hentries.lookup_eq_none hkey]
  | table before table =>
    obtain ⟨w, hlookup, ⟨span, es, rfl, hes⟩, hassign⟩ :=
      Matches.last hentries (hfresh before table rfl)
    have hinner : IsTable (inner ++ [(k.name, holds)])
        (.table ⟨span.start, v.span.stop⟩ .header (assign k.name v es)) :=
      ⟨_, _, rfl, hes.assign_new hkey hv⟩
    refine ⟨assign table (.table ⟨span.start, v.span.stop⟩ .header (assign k.name v es)) d.entries,
      ?_, hpath, hassign _ _ hinner, hfresh⟩
    rw [hpath, Place.path, changeOpen, hlookup]
    dsimp only
    rw [define, List.map_nil, changeAt, if_neg (by simp), hes.lookup_eq_none hkey]
    rfl

/-- The text of an entry. -/
def entryText (key text : List Char) : List Char := key ++ (" = ".toList ++ (text ++ ['\n']))

/-- A text that is read as a value at the end of a line. -/
structure IsValueText (text : List Char) (holds : Toml → Prop) : Prop where
  start : ∀ after, ∀ c ∈ (text ++ '\n' :: after).head?, isBlank c = false
  reads : ∀ after, Reads (value depthLimit) text ('\n' :: after) holds

/-- An entry adds to the table that is open. -/
theorem reads_entryLine {holds : Toml → Prop} (hkey : IsKeyText key name)
    (htext : IsValueText text holds) (hd : d.IsAt o inner) (hname : ∀ e ∈ inner, e.1 ≠ name) :
    Reads (entryLine d) (entryText key text) after
      fun d' => d'.IsAt o (inner ++ [(name, holds)]) := by
  have hsplit : entryText key text = (key ++ [' ']) ++ '=' :: ([' '] ++ (text ++ ['\n'])) := by
    simp [entryText]
  have hblank : ∀ c ∈ [' '], isBlank c = true := List.forall_mem_singleton.mpr (by decide)
  have hequals : Reads (Toml.key none) (key ++ [' '])
      ('=' :: ([' '] ++ (text ++ ['\n'])) ++ after) fun k => k.1.name = name ∧ k.2 = [] :=
    reads_key hkey hblank fun c hc => by cases hc; decide
  have hvalue : Reads blanks [' '] ((text ++ ['\n']) ++ after) fun _ => True := by
    refine reads_blanks hblank ?_
    rw [List.append_assoc]
    exact htext.start after
  rw [hsplit]
  refine reads_offset fun start => hequals.bind ?_
  rintro ⟨first, others⟩ ⟨rfl, hothers⟩
  dsimp only at hothers hname ⊢
  subst hothers
  refine Reads.expect (hvalue.bind fun _ _ => Reads.bind (htext.reads after) fun v hv => ?_)
  refine reads_lineTrailing.bind_nil fun _ _ => ?_
  obtain ⟨entries, hchange, hd'⟩ := hd.exists_changeOpen hname hv
  show Reads (allow start none (changeOpen v.span.stop (define (some d.path) [] first v) d.path
    d.entries) >>= _) [] after _
  rw [hchange]
  exact reads_pure hd'

/-- The text of a header. -/
def headerText (key : List Char) : List Char := '[' :: key ++ [']', '\n']

/-- A header opens a table. -/
theorem reads_headerLine (hkey : IsKeyText key name) (hd : Matches d.entries expected)
    (hfresh : ∀ e ∈ expected, e.1 ≠ name) :
    Reads (headerLine d) (headerText key) after fun d' => d'.IsAt (.table expected name) [] := by
  have hclose : ∀ c ∈ ([']', '\n'] ++ after).head?,
      isBlank c = false ∧ isBareChar c = false ∧ c ≠ '.' := by
    intro c hc
    cases hc
    decide
  have hheader : Reads headerLine.headerKey key ([']', '\n'] ++ after)
      fun k => k.1 = [] ∧ k.2.name = name := by
    have hparts : Reads (Toml.key (some "table header")) (key ++ []) ([']', '\n'] ++ after)
        fun k => k.1.name = name ∧ k.2 = [] :=
      reads_key hkey (List.forall_mem_nil _) hclose
    rw [List.append_nil] at hparts
    refine hparts.bind_nil ?_
    rintro ⟨first, others⟩ ⟨hfirst, hothers⟩
    dsimp only at hothers
    subst hothers
    exact reads_pure ⟨rfl, hfirst⟩
  obtain ⟨c, cs, hcs⟩ := exists_cons_of_startsKey hkey.start
  refine reads_offset fun start => reads_rest ?_
  split
  · rename_i heq
    rw [headerText, hcs] at heq
    cases heq
  · -- A second bracket would be the first character of the key.
    rename_i heq
    rw [headerText, hcs] at heq
    have hbracket : c = '[' := (List.cons.inj (List.cons.inj heq).2).1
    exact absurd hbracket (ne_of_startsKey (hcs ▸ hkey.start) (by decide))
  · refine Reads.skip_one (hheader.bind ?_)
    rintro ⟨path, last⟩ ⟨hpath, hlast⟩
    dsimp only at hpath hlast ⊢
    subst hpath
    refine Reads.expect (reads_offset fun stop => reads_lineTrailing.bind_nil fun _ _ => ?_)
    have hopen : openTable [] last ⟨start, stop⟩ d.entries =
        .ok (assign last.name (.table ⟨start, stop⟩ .header []) d.entries) := by
      rw [openTable, changeAt, hlast, hd.lookup_eq_none hfresh]
    rw [hopen, hlast]
    refine reads_pure ⟨rfl, hd.assign_new hfresh ⟨_, [], rfl, .nil⟩, ?_⟩
    rintro before table ⟨⟩
    exact hfresh

/-! ### Line by line -/

/-- A round that starts with a key reads an entry. -/
theorem reads_lineRound_entry {p : Draft → Prop} (hkey : startsKey key = true)
    (h : Reads (entryLine d) (key ++ text) after p) :
    Reads (lineRound d) (key ++ text) after fun answer => ∃ d', answer = .inr d' ∧ p d' := by
  have hsolid : Solid ((key ++ text) ++ after) := by
    rw [List.append_assoc]
    exact solid_of_startsKey hkey _
  have hblanks : Reads blanks [] ((key ++ text) ++ after) fun _ => True :=
    reads_blanks (List.forall_mem_nil _) fun c hc => (hsolid c hc).1
  obtain ⟨c, cs, rfl⟩ := exists_cons_of_startsKey hkey
  obtain ⟨-, hcomment, -, hreturn⟩ := hsolid c rfl
  refine hblanks.nil_bind fun _ _ => reads_rest ?_
  -- A key is not the end of the text, and starts neither a comment nor a header.
  split
  · rename_i heq
    cases heq
  · rename_i heq
    exact absurd (List.cons.inj heq).1 hcomment
  · rename_i heq
    exact absurd (List.cons.inj heq).1 (ne_of_startsKey hkey (by decide))
  · dsimp only
    have hhead : (c :: cs ++ text ++ after).head? ≠ some '\r' := fun heq =>
      hreturn (Option.some.inj heq)
    rw [if_neg (not_not_intro hsolid.newlineLength), if_neg hhead]
    exact h.bind_pure fun d' hd' => ⟨d', rfl, hd'⟩

/-- An entry as it is written: its key and the name that this is, the text of its value, and what is
expected of the value. -/
structure Written where
  key : List Char
  name : String
  text : List Char
  holds : Toml → Prop

/-- The entry can be read back. -/
structure Written.Readable (w : Written) : Prop where
  key : IsKeyText w.key w.name
  text : IsValueText w.text w.holds

/-- What is expected of entries. -/
def Written.expectation (ws : List Written) : Expected := ws.map fun w => (w.name, w.holds)

/-- A line that is no header. -/
inductive Line where
  | empty
  | entry (w : Written)

namespace Line

def chars : Line → List Char
  | empty => ['\n']
  | entry w => entryText w.key w.text

def entry? : Line → Option Written
  | empty => none
  | entry w => some w

end Line

/-- The text of several lines. -/
def textOf (lines : List Line) : List Char := lines.flatMap Line.chars

/-- The entries on several lines. -/
def entriesOf (lines : List Line) : List Written := lines.filterMap Line.entry?

@[simp] theorem entriesOf_concat_empty (lines : List Line) :
    entriesOf (lines ++ [.empty]) = entriesOf lines := by
  rw [entriesOf, List.filterMap_append]
  exact List.append_nil _

@[simp] theorem entriesOf_map_entry (ws : List Written) : entriesOf (ws.map .entry) = ws := by
  rw [entriesOf, List.filterMap_map]
  exact List.filterMap_some

/-- The lines of a table, and what follows them. -/
theorem reads_lines {p : Draft → Prop} {more : List Char} {lines : List Line}
    (hws : ∀ w ∈ entriesOf lines, w.Readable) (hnames : ((entriesOf lines).map (·.name)).Nodup)
    (hnew : ∀ w ∈ entriesOf lines, ∀ e ∈ inner, e.1 ≠ w.name) (hd : d.IsAt o inner)
    (h : ∀ d' : Draft, d'.IsAt o (inner ++ Written.expectation (entriesOf lines)) →
      Reads (repeatUntil lineRound d') more after p) :
    Reads (repeatUntil lineRound d) (textOf lines ++ more) after p := by
  induction lines generalizing d inner with
  | nil =>
    refine h d ?_
    rwa [entriesOf, List.filterMap_nil, Written.expectation, List.map_nil, List.append_nil]
  | cons line lines ih =>
    rw [textOf, List.flatMap_cons, List.append_assoc]
    cases line with
    | empty =>
      have hblanks : Reads blanks [] (['\n'] ++ (textOf lines ++ more ++ after)) fun _ => True :=
        reads_blanks (List.forall_mem_nil _) fun c hc => by cases hc; decide
      refine Reads.more (List.cons_ne_nil _ _) (hblanks.nil_bind fun _ _ => reads_rest ?_)
      exact reads_skip_pure rfl ⟨d, rfl, ih hws hnames hnew hd h⟩
    | entry w =>
      rw [show entriesOf (.entry w :: lines) = w :: entriesOf lines from rfl] at hws hnames hnew h
      rw [List.forall_mem_cons] at hws hnew
      obtain ⟨hfirst, hnames⟩ := List.nodup_cons.mp hnames
      obtain ⟨hw, hws⟩ := hws
      have hentry : Reads (entryLine d) (entryText w.key w.text) (textOf lines ++ more ++ after)
          fun d' => d'.IsAt o (inner ++ [(w.name, w.holds)]) :=
        reads_entryLine hw.key hw.text hd hnew.1
      refine Reads.more ?_ ((reads_lineRound_entry hw.key.start hentry).imp ?_)
      · obtain ⟨c, cs, hcs⟩ := exists_cons_of_startsKey hw.key.start
        simp [Line.chars, entryText, hcs]
      rintro _ ⟨d', rfl, hd'⟩
      refine ⟨d', rfl, ih hws hnames (fun w' hw' e he => ?_) hd' fun d'' hd'' => h d'' ?_⟩
      · -- A name in the table is from before, or of the entry that was just read.
        rcases List.mem_append.mp he with he | he
        · exact hnew.2 w' hw' e he
        · obtain rfl := List.mem_singleton.mp he
          intro heq
          exact hfirst (List.mem_map.mpr ⟨w', hw', heq.symm⟩)
      · rw [List.append_assoc] at hd''
        exact hd''

/-! ### Table by table -/

/-- A table as it is written, with the key in its header. -/
structure Section where
  key : List Char
  name : String
  lines : List Line

namespace Section

def chars (s : Section) : List Char := headerText s.key ++ textOf s.lines

/-- What is expected of the document for the table. -/
def expectation (s : Section) : String × (Toml → Prop) :=
  (s.name, IsTable (Written.expectation (entriesOf s.lines)))

/-- The table can be read back. -/
structure Readable (s : Section) : Prop where
  key : IsKeyText s.key s.name
  entries : ∀ w ∈ entriesOf s.lines, w.Readable
  names : ((entriesOf s.lines).map (·.name)).Nodup

end Section

/-- The tables of a document, up to its end. -/
theorem reads_sections {sections : List Section} (hs : ∀ s ∈ sections, s.Readable)
    (hnames : (sections.map (·.name)).Nodup) (hd : Matches d.entries expected)
    (hfresh : ∀ s ∈ sections, ∀ e ∈ expected, e.1 ≠ s.name) :
    Reads (repeatUntil lineRound d) (sections.flatMap Section.chars) []
      fun d' => Matches d'.entries (expected ++ sections.map Section.expectation) := by
  induction sections generalizing d expected with
  | nil =>
    have hblanks : Reads blanks [] ([] ++ []) fun _ => True :=
      reads_blanks (List.forall_mem_nil _) fun c hc => by cases hc
    rw [List.map_nil, List.append_nil]
    exact Reads.last (hblanks.nil_bind fun _ _ => reads_rest (reads_pure ⟨d, rfl, hd⟩))
  | cons s sections ih =>
    rw [List.forall_mem_cons] at hs hfresh
    obtain ⟨hfirst, hnames⟩ := List.nodup_cons.mp hnames
    rw [List.flatMap_cons, Section.chars, List.append_assoc]
    have hblanks : ∀ more, Reads blanks [] (headerText s.key ++ more) fun _ => True :=
      fun more => reads_blanks (List.forall_mem_nil _) fun c hc => by cases hc; decide
    refine Reads.more (List.cons_ne_nil _ _) ((hblanks _).nil_bind fun _ _ => reads_rest ?_)
    refine (reads_headerLine hs.1.key hd hfresh.1).bind_pure fun d₁ hd₁ => ⟨d₁, rfl, ?_⟩
    refine reads_lines hs.1.entries hs.1.names (by simp) hd₁ fun d₂ hd₂ => ?_
    have hmore := ih hs.2 hnames hd₂.entries fun s' hs' e he => ?_
    · refine hmore.imp fun d' hd' => ?_
      rw [List.map_cons, ← List.singleton_append, ← List.append_assoc]
      exact hd'
    · -- A name is from before, or that of the table that was just read.
      rcases List.mem_append.mp he with he | he
      · exact hfresh.2 s' hs' e he
      · obtain rfl := List.mem_singleton.mp he
        intro heq
        exact hfirst (List.mem_map.mpr ⟨s', hs', heq.symm⟩)

/-- A document as it is written: the lines in front of the first table, and the tables. -/
structure Layout where
  top : List Line
  sections : List Section

namespace Layout

def chars (l : Layout) : List Char := textOf l.top ++ l.sections.flatMap Section.chars

/-- What is expected of the document. -/
def expectation (l : Layout) : Expected :=
  Written.expectation (entriesOf l.top) ++ l.sections.map Section.expectation

/-- The document can be read back: everything in it can, and no name comes twice. -/
structure Readable (l : Layout) : Prop where
  top : ∀ w ∈ entriesOf l.top, w.Readable
  sections : ∀ s ∈ l.sections, s.Readable
  names : ((entriesOf l.top).map (·.name) ++ l.sections.map (·.name)).Nodup

/-- There is no byte order mark in front. -/
theorem Readable.head?_chars_ne {l : Layout} (h : l.Readable) :
    l.chars.head? ≠ some '\ufeff' := by
  obtain ⟨top, sections⟩ := l
  cases top with
  | nil =>
    cases sections with
    | nil => exact (Option.some_ne_none _).symm
    | cons s sections => exact fun heq => absurd (Option.some.inj heq) (by decide)
  | cons line lines =>
    cases line with
    | empty => exact fun heq => absurd (Option.some.inj heq) (by decide)
    | entry w =>
      have hw := (h.top w List.mem_cons_self).key.start
      obtain ⟨c, cs, hcs⟩ := exists_cons_of_startsKey hw
      have hfirst : (chars ⟨.entry w :: lines, sections⟩).head? = some c := by
        simp [chars, textOf, Line.chars, entryText, hcs]
      rw [hfirst]
      exact fun heq => ne_of_startsKey (hcs ▸ hw) (by decide) (Option.some.inj heq)

/-- **What is laid out is read as it was written.** -/
theorem Readable.exists_entries {l : Layout} (h : l.Readable) :
    ∃ entries, parse l.chars = .ok entries ∧ Matches entries l.expectation := by
  obtain ⟨htop, hsections, hapart⟩ := List.nodup_append.mp h.names
  have hstart : Draft.IsAt ⟨[], []⟩ .top [] := ⟨rfl, .nil, by rintro before table ⟨⟩⟩
  have hread : Reads lines l.chars [] (Matches · l.expectation) := by
    refine Reads.bind_pure (p := fun d => Matches d.entries l.expectation) ?_ fun d hd => hd
    refine reads_lines h.top htop (by simp) hstart fun d hd => ?_
    refine reads_sections h.sections hsections hd.entries fun s hs e he => ?_
    obtain ⟨w, hw, rfl⟩ := List.mem_map.mp he
    exact hapart _ (List.mem_map_of_mem hw) _ (List.mem_map_of_mem hs)
  obtain ⟨entries, hlines, hentries⟩ := hread 0
  refine ⟨entries, ?_, hentries⟩
  rw [List.append_nil] at hlines
  unfold parse
  split
  · rename_i heq
    exact absurd (congrArg List.head? heq) h.head?_chars_ne
  · dsimp only
    rw [hlines]

end Layout

end SymbolIndex.Toml

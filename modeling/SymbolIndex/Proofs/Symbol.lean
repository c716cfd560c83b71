import SymbolIndex.Proofs.Registry.Json

/-!
# Reading a symbol

What a text has to be for a symbol to be read from it. The fields of the symbol may stand in any
order and among other members, and those that are `null` may be left out (`IsWrittenIn`). Under the
name of a field there is then that field alone, or nothing (`filter_of_isWrittenIn`), and whatever
the spelling, the symbol is read (`read_back`). All that is asked of the other members is that
their names are text (`not_read_back_under_broken_name`).

The reader takes each field by itself, so it does not see that a symbol is static or has a
superclass although it belongs to no class. Every symbol whose path is text can be read
(`exists_parse?_iff`), and whether one that is read makes sense is decided by three of the fields
(`read_isSound_iff`).
-/

namespace SymbolIndex

open Text

namespace Symbol

variable {s : Symbol} {path : String} {members : List (Option String × Json)}

/-! ### Objects with the fields of a symbol -/

/-- The names of the fields of a symbol. -/
def fieldNames : List String :=
  ["method_name", "class_name", "is_static", "super_class", "source_path"]

theorem map_fst_fields (s : Symbol) (path : String) :
    (s.fields path).map Prod.fst = fieldNames.map some :=
  rfl

/-- The members are the fields of the symbol, its path being the text `path`, and others of other
names, in any order. A field that is `null` may be missing. -/
inductive IsWrittenIn (s : Symbol) (path : String) : List (Option String × Json) → Prop
  | intro {members own others : List (Option String × Json)} (hperm : members.Perm (own ++ others))
    (hown : own.Sublist (s.fields path)) (hmissing : ∀ m ∈ s.fields path, m ∉ own → m.2 = .null)
    (hothers : ∀ m ∈ others, ∀ name ∈ fieldNames, m.1 ≠ some name) : IsWrittenIn s path members

theorem filter_fields {name : String} {v : Json} (hm : (some name, v) ∈ s.fields path) :
    (s.fields path).filter (·.1 = some name) = [(some name, v)] := by
  simp only [fields, List.mem_cons, Prod.mk.injEq, Option.some.injEq, List.not_mem_nil,
    or_false] at hm
  rcases hm with ⟨rfl, rfl⟩ | ⟨rfl, rfl⟩ | ⟨rfl, rfl⟩ | ⟨rfl, rfl⟩ | ⟨rfl, rfl⟩ <;> rfl

/-- Under the name of a field there is that field, or nothing and the field is `null`. -/
theorem filter_of_isWrittenIn (h : s.IsWrittenIn path members) {name : String} {v : Json}
    (hm : (some name, v) ∈ s.fields path) :
    members.filter (·.1 = some name) = [(some name, v)] ∨
      v = .null ∧ members.filter (·.1 = some name) = [] := by
  obtain @⟨own, others, hperm, hown, hmissing, hothers⟩ := h
  have hname : some name ∈ fieldNames.map some := by
    rw [← map_fst_fields s path]
    exact List.mem_map_of_mem hm
  have hnone : others.filter (·.1 = some name) = [] := by
    rw [List.filter_eq_nil_iff]
    intro m hother
    rw [decide_eq_true_eq]
    exact hothers m hother name (by simpa using hname)
  have hfilter := hperm.filter (·.1 = some name)
  rw [List.filter_append, hnone, List.append_nil] at hfilter
  have hsublist := hown.filter (·.1 = some name)
  rw [filter_fields hm, List.sublist_singleton] at hsublist
  -- Of the fields one has the name: it is missing, or it is all that is left.
  rcases hsublist with hnil | hone
  · have hnotin : (some name, v) ∉ own := by
      intro hin
      exact List.filter_eq_nil_iff.mp hnil _ hin (decide_eq_true rfl)
    rw [hnil] at hfilter
    exact .inr ⟨hmissing _ hm hnotin, hfilter.eq_nil⟩
  · rw [hone] at hfilter
    exact .inl (List.perm_singleton.mp hfilter)

/-- Each field is found, if `null` is what is taken where a field that is `null` is missing. -/
theorem member?_of_isWrittenIn (h : s.IsWrittenIn path members) {name : String} {v : Json}
    (hm : (some name, v) ∈ s.fields path) {missing : Option Json}
    (hnull : v = .null → missing = some .null) : member? members name missing = some v := by
  rw [member?]
  rcases filter_of_isWrittenIn h hm with hone | ⟨rfl, hnone⟩
  · rw [hone]
  · rw [hnone]
    exact hnull rfl

/-- The symbol is read off its members, if the names of all of them are text. -/
theorem ofJson?_of_isWrittenIn (hpath : Utf8.decode? s.path.bytes = some path)
    (h : s.IsWrittenIn path members) :
    ofJson? (.object members) = if members.any (·.1.isNone) then none else some s := by
  have hname : member? members "method_name" none = some (.string s.name) :=
    member?_of_isWrittenIn h (by simp [fields]) (by simp)
  have howner : member? members "class_name" (some .null) = some (.ofOption s.owner) :=
    member?_of_isWrittenIn h (by simp [fields]) fun _ => rfl
  have hstatic : member? members "is_static" none = some (.bool s.isStatic) :=
    member?_of_isWrittenIn h (by simp [fields]) (by simp)
  have hsuperclass : member? members "super_class" (some .null) = some (.ofOption s.superclass) :=
    member?_of_isWrittenIn h (by simp [fields]) fun _ => rfl
  have htext : member? members "source_path" none = some (.string path) :=
    member?_of_isWrittenIn h (by simp [fields]) (by simp)
  rw [ofJson?]
  split_ifs
  · rfl
  · rw [hname, howner, hstatic, hsuperclass, htext]
    exact ofValues?_eq_some_iff.mpr ⟨rfl, rfl, rfl, rfl, path, rfl, hpath⟩

/-- Every spelling of an object with the fields of a symbol is read alike. -/
theorem parse?_of_isWrittenIn (hpath : Utf8.decode? s.path.bytes = some path)
    (h : s.IsWrittenIn path members) {text : String}
    (htext : Json.SpellsElement (.object members) text.toList) :
    parse? text = if members.any (·.1.isNone) then none else some s := by
  have hread := Json.parse?_of_spellsElement htext
  rw [String.ofList_toList] at hread
  rw [parse?, hread]
  exact ofJson?_of_isWrittenIn hpath h

theorem parse?_compact {v : Json} (hv : s.toJson? = some v) : parse? v.compact = some s := by
  rw [parse?, Json.parse?_compact (proper_of_toJson? hv)]
  exact ofJson?_of_toJson? s v hv

/-- **A symbol is read back from its JSON form, however that is written.** This is so for the text
on one line, and for every spelling of an object with the fields of the symbol, in any order, with
any other members, and without the fields that are `null`, as long as all names are text. Otherwise
nothing is read. -/
theorem read_back (s : Symbol) {path : String} (hpath : Utf8.decode? s.path.bytes = some path) :
    (∃ v, s.toJson? = some v ∧ parse? v.compact = some s) ∧
      ∀ members text, s.IsWrittenIn path members →
        Json.SpellsElement (.object members) text.toList →
          parse? text = if members.any (·.1.isNone) then none else some s := by
  constructor
  · have hv : s.toJson? = some (.object (s.fields path)) :=
      toJson?_eq_some_iff.mpr ⟨path, hpath, rfl⟩
    exact ⟨_, hv, parse?_compact hv⟩
  · intro members text h htext
    exact parse?_of_isWrittenIn hpath h htext

/-- A method of a class without a superclass, with characters that have to be escaped. -/
def escapedMethod : Symbol := .method "\x01" "Q\"\\" true none "é\n.js"

/-- The fields of `escapedMethod` but one, from the last to the first, after a member of another
name. What that member holds has a name and a string in it that stand for no text. -/
def escapedMembers : List (Option String × Json) :=
  [(some "remark", .array [.object [(none, .number "-0.5e+10")], .brokenString, .object []]),
    (some "source_path", .string "é\n.js"), (some "is_static", .bool true),
    (some "class_name", .string "Q\"\\"), (some "method_name", .string "\x01")]

theorem isWrittenIn_escapedMembers : escapedMethod.IsWrittenIn "é\n.js" escapedMembers := by
  have hperm : escapedMembers.Perm (escapedMembers.reverse.take 4 ++ escapedMembers.take 1) := by
    have h := List.reverse_perm escapedMembers.reverse
    rwa [List.reverse_reverse] at h
  refine .intro hperm ?_ ?_ ?_
  · simp [fields, escapedMethod, escapedMembers, method, Json.ofOption]
  · simp [fields, escapedMethod, escapedMembers, method, Json.ofOption]
  · simp [escapedMembers, fieldNames]

theorem proper_escapedMembers : Json.Proper (.object escapedMembers) := by
  have hnumber : Json.IsNumber "-0.5e+10".toList :=
    @Json.IsNumber.intro ['-'] ['0'] ['.', '5'] ['e', '+', '1', '0'] (.inr rfl) (.inl rfl)
      (.inr ⟨['5'], ⟨nofun, by simp⟩, rfl⟩)
      (.inr ⟨'e', ['+'], ['1', '0'], .inl rfl, .inr (.inl rfl), ⟨nofun, by simp⟩, rfl⟩)
  have hremark : Json.ProperAll [.object [(none, .number "-0.5e+10")], .brokenString, .object []] :=
    ⟨⟨hnumber, trivial⟩, trivial, trivial, trivial⟩
  exact ⟨hremark, trivial, trivial, trivial, trivial, trivial⟩

/-- `escapedMethod` is read from `escapedMembers` on several lines. -/
theorem read_back_escapedMembers :
    (∃ v, escapedMethod.toJson? = some v ∧ parse? v.compact = some escapedMethod) ∧
      parse? (Json.object escapedMembers).pretty = some escapedMethod := by
  obtain ⟨hcompact, hread⟩ := read_back escapedMethod (Utf8.decode?_encode "é\n.js")
  have htext := (Json.spells_prettyAt 0 _ proper_escapedMembers).element
  exact ⟨hcompact, hread escapedMembers _ isWrittenIn_escapedMembers htext⟩

/-- The name of one member may stand for no text, and then the symbol is not read. -/
theorem not_read_back_under_broken_name :
    ¬ ∀ (s : Symbol) (path : String) (members : List (Option String × Json)) (text : String),
      Utf8.decode? s.path.bytes = some path → s.IsWrittenIn path members →
        Json.SpellsElement (.object members) text.toList → parse? text = some s := by
  intro hread
  let s := function "f" "a.js"
  let members := s.fields "a.js" ++ [(none, .null)]
  let text := "\x7b\"method_name\":\"f\",\"class_name\":null,\"is_static\":false," ++
    "\"super_class\":null,\"source_path\":\"a.js\",\"\\ud800\":null\x7d"
  have hpath : Utf8.decode? s.path.bytes = some "a.js" := Utf8.decode?_encode "a.js"
  have hwritten : s.IsWrittenIn "a.js" members :=
    .intro (.refl _) (.refl _) (fun m hm hmissing => absurd hm hmissing) (by simp)
  have htext : Json.SpellsElement (.object members) text.toList := by
    have hcompact : (Json.object members).compact = text := by decide +kernel
    have hproper : (Json.object members).Proper :=
      ⟨trivial, trivial, trivial, trivial, trivial, trivial, trivial⟩
    rw [← hcompact]
    exact (Json.spells_compact _ hproper).element
  have hnone := parse?_of_isWrittenIn hpath hwritten htext
  rw [hread s "a.js" members text hpath hwritten htext] at hnone
  cases hnone

end Symbol

/-! ### What is read -/

namespace Json

/-- What a value gives for a field: the element at its place, or the first member of its name. -/
def given? : Json → String → Nat → Option Json
  | .array vs, _, place => vs[place]?
  | .object members, name, _ => (members.find? (·.1 = some name)).map Prod.snd
  | _, _, _ => none

/-- Where `null` stands for what is not given, a string is only what is given. -/
theorem given?_eq_string_iff {v : Json} {name : String} {place : Nat} {x : Option String}
    (h : (v.given? name place).getD .null = .ofOption x) {c : String} :
    v.given? name place = some (.string c) ↔ x = some c := by
  generalize v.given? name place = given at h ⊢
  cases given <;> cases x <;> simp_all [ofOption]

end Json

namespace Symbol

/-- A symbol without a class is not static and has no superclass. -/
def IsSound (s : Symbol) : Prop := s.owner = none → s.isStatic = false ∧ s.superclass = none

instance (s : Symbol) : Decidable s.IsSound :=
  inferInstanceAs (Decidable (s.owner = none → s.isStatic = false ∧ s.superclass = none))

/-- What a value gives for the fields is the symbol; a class that is not given is `null`. -/
structure IsGivenBy (s : Symbol) (v : Json) : Prop where
  name : v.given? "method_name" 0 = some (.string s.name)
  owner : (v.given? "class_name" 1).getD .null = .ofOption s.owner
  isStatic : v.given? "is_static" 2 = some (.bool s.isStatic)
  superclass : (v.given? "super_class" 3).getD .null = .ofOption s.superclass
  path : ∃ text, v.given? "source_path" 4 = some (.string text) ∧
    Utf8.decode? s.path.bytes = some text

/-- What is found is the first member of its name, or stands for one that is missing. -/
theorem or_given?_of_member? {name : String} {missing : Option Json} {v : Json}
    (h : member? members name missing = some v) (place : Nat) :
    ((Json.object members).given? name place).or missing = some v := by
  rw [Json.given?, ← List.head?_filter]
  rw [member?] at h
  generalize members.filter (·.1 = some name) = found at h ⊢
  cases found with
  | nil => exact h
  | cons m ms =>
    cases ms with
    | nil => exact h
    | cons m' ms => cases h

/-- What is read off a value is given by it, in either of its two forms. -/
theorem isGivenBy_of_ofJson? {v : Json} (h : ofJson? v = some s) : s.IsGivenBy v := by
  rw [ofJson?.eq_def] at h
  split at h
  · obtain ⟨rfl, rfl, rfl, rfl, text, rfl, hpath⟩ := ofValues?_eq_some_iff.mp h
    exact ⟨rfl, rfl, rfl, rfl, text, rfl, hpath⟩
  · split_ifs at h
    · cases h
    simp only [Option.bind_eq_bind, Option.bind_eq_some_iff] at h
    obtain ⟨n, hn, o, ho, i, hi, u, hu, p, hp, hvalues⟩ := h
    obtain ⟨rfl, rfl, rfl, rfl, text, rfl, hpath⟩ := ofValues?_eq_some_iff.mp hvalues
    have hname := or_given?_of_member? hn 0
    have howner := or_given?_of_member? ho 1
    have hstatic := or_given?_of_member? hi 2
    have hsuperclass := or_given?_of_member? hu 3
    have htext := or_given?_of_member? hp 4
    rw [Option.or_none] at hname hstatic htext
    rw [Option.or_some, Option.some.injEq] at howner hsuperclass
    exact ⟨hname, howner, hstatic, hsuperclass, text, htext, hpath⟩
  · cases h

/-- A symbol makes sense exactly if there is a class, or nothing that only a class has. -/
theorem isSound_iff_of_isGivenBy {s : Symbol} {v : Json} (h : s.IsGivenBy v) :
    s.IsSound ↔ (∃ c, v.given? "class_name" 1 = some (.string c)) ∨
      v.given? "is_static" 2 = some (.bool false) ∧
        ∀ c, v.given? "super_class" 3 ≠ some (.string c) := by
  simp only [ne_eq, Json.given?_eq_string_iff h.owner, Json.given?_eq_string_iff h.superclass,
    h.isStatic]
  rw [IsSound]
  cases s.owner <;> cases s.superclass <;> simp

/-- A symbol is read from some text exactly if its path is text. -/
theorem exists_parse?_iff (s : Symbol) :
    (∃ text, parse? text = some s) ↔ (Utf8.decode? s.path.bytes).isSome = true := by
  constructor
  · rintro ⟨text, htext⟩
    obtain ⟨v, -, hv⟩ := Option.bind_eq_some_iff.mp htext
    obtain ⟨path, -, hpath⟩ := (isGivenBy_of_ofJson? hv).path
    rw [hpath]
    rfl
  · intro hpath
    obtain ⟨path, hpath⟩ := Option.isSome_iff_exists.mp hpath
    exact ⟨_, parse?_compact (toJson?_eq_some_iff.mpr ⟨path, hpath, rfl⟩)⟩

/-- **Whether what is read makes sense depends on the text.** A symbol that is read makes sense
exactly if the text gives a string for the class, or if it gives `false` for being static and no
string for the superclass. -/
theorem read_isSound_iff {text : String} {s : Symbol} (h : parse? text = some s) :
    ∃ v, Json.parse? text = some v ∧
      (s.IsSound ↔ (∃ c, v.given? "class_name" 1 = some (.string c)) ∨
        v.given? "is_static" 2 = some (.bool false) ∧
          ∀ c, v.given? "super_class" 3 ≠ some (.string c)) := by
  obtain ⟨v, hparse, hv⟩ := Option.bind_eq_some_iff.mp h
  exact ⟨v, hparse, isSound_iff_of_isGivenBy (isGivenBy_of_ofJson? hv)⟩

/-- A static function with a superclass. -/
def unsound : Symbol := ⟨"f", none, true, some "B", "a.js"⟩

/-- A text of `unsound`, which leaves the class out. -/
def unsoundText : String :=
  "\x7b\"method_name\":\"f\",\"is_static\":true,\"super_class\":\"B\",\"source_path\":\"a.js\"\x7d"

theorem parse?_unsoundText : parse? unsoundText = some unsound := by
  decide +kernel

/-- The text of `unsound` gives neither a class nor a symbol that does without one. -/
theorem read_isSound_iff_unsoundText :
    parse? unsoundText = some unsound ∧ ∃ v, Json.parse? unsoundText = some v ∧
      ¬((∃ c, v.given? "class_name" 1 = some (.string c)) ∨
        v.given? "is_static" 2 = some (.bool false) ∧
          ∀ c, v.given? "super_class" 3 ≠ some (.string c)) := by
  obtain ⟨v, hv, hiff⟩ := read_isSound_iff parse?_unsoundText
  refine ⟨parse?_unsoundText, v, hv, ?_⟩
  rw [← hiff]
  decide

/-- A symbol without a class may be read as static. -/
theorem not_read_isSound : ¬ ∀ text s, parse? text = some s → s.IsSound := by
  intro hsound
  exact absurd (hsound unsoundText unsound parse?_unsoundText) (by decide)

end Symbol

end SymbolIndex

import SymbolIndex.Config.Toml
import SymbolIndex.Proofs.Toml.Document

/-!
# Settings one by one

A document need not hold all settings: those that it does not hold are read as the standard ones
(`Settings.only`). It holds some settings if each of them is in its table with its value, and none of
the others is there (`Settings.HeldBy`); what else is in the document does not matter.

Entries are read one after the other, and each adds one more setting to those that were read before.
So what has been read at any point are the settings whose names have occurred up to there
(`Settings.foldlM_of_adds`). This is how settings are read off the entries of a table
(`Settings.readGroup_of_heldIn`), and the tables off those of the document
(`Settings.ofEntries_of_heldBy`).
-/

namespace SymbolIndex

open Toml Text

/-! ### Values -/

namespace Toml

instance (name : List Char) : Decidable (IsBare name) :=
  decidable_of_iff (name ≠ [] ∧ name.all isBareChar = true)
    ⟨fun h => ⟨h.1, List.all_eq_true.mp h.2⟩, fun h => ⟨h.ne_nil, List.all_eq_true.mpr h.bare⟩⟩

variable {name t : String} {ts : List String} {b : Bool} {v : Toml}

theorem isValueText_printString : IsValueText (printString t).toList (IsText t) where
  start after c hc := (solid_printString t _ c hc).1
  reads after := reads_value_printString t fun c hc => by cases hc; decide

theorem isValueText_printList : IsValueText (printList ts).toList (IsTexts ts) where
  start after c hc := by
    obtain ⟨text, htext, -⟩ := reads_arrayElements 0 ts
    rw [htext] at hc
    cases hc
    decide
  reads after := reads_value_printList ts

theorem isValueText_printBool : IsValueText (printBool b).toList (IsTruth b) where
  start after c hc := by cases b <;> cases hc <;> decide
  reads after := reads_value_printBool b

namespace Written

/-- An entry with a text. -/
def ofText (name t : String) : Written := ⟨name.toList, name, (printString t).toList, IsText t⟩

/-- An entry with a list of texts. -/
def ofTexts (name : String) (ts : List String) : Written :=
  ⟨name.toList, name, (printList ts).toList, IsTexts ts⟩

/-- An entry with a truth value. -/
def ofTruth (name : String) (b : Bool) : Written :=
  ⟨name.toList, name, (printBool b).toList, IsTruth b⟩

theorem readable_ofText (hname : IsBare name.toList) : (ofText name t).Readable :=
  ⟨isKeyText_of_isBare hname, isValueText_printString⟩

theorem readable_ofTexts (hname : IsBare name.toList) : (ofTexts name ts).Readable :=
  ⟨isKeyText_of_isBare hname, isValueText_printList⟩

theorem readable_ofTruth (hname : IsBare name.toList) : (ofTruth name b).Readable :=
  ⟨isKeyText_of_isBare hname, isValueText_printBool⟩

end Written

theorem IsText.asString (h : IsText t v) : v.asString = .ok t := by
  obtain ⟨span, rfl⟩ := h
  rfl

theorem IsTruth.asBool (h : IsTruth b v) : v.asBool = .ok b := by
  obtain ⟨span, rfl⟩ := h
  rfl

theorem IsTexts.asStrings (h : IsTexts ts v) : v.asStrings = .ok ts := by
  obtain ⟨span, vs, rfl, hvs⟩ := h
  show vs.mapM Toml.asString = .ok ts
  induction hvs with
  | nil => rfl
  | cons head _ ih => rw [List.mapM_cons, head.asString, ih]; rfl

end Toml

/-- The name of a policy is read as the policy. -/
theorem CollisionPolicy.ofToml_of_isText {p : CollisionPolicy} {v : Toml} (h : IsText p.tag v) :
    CollisionPolicy.ofToml v = .ok p := by
  obtain ⟨span, rfl⟩ := h
  cases p <;> rfl

/-! ### Settings -/

/-- The settings there are. -/
inductive Setting where
  | suffix
  | ignoreDirs
  | respectGitignore
  | includeHidden
  | followLinks
  | includeConstructors
  | collisionPolicy
  deriving DecidableEq, Repr

namespace Setting

/-- In the order in which they are written. -/
def all : List Setting :=
  [suffix, ignoreDirs, respectGitignore, includeHidden, followLinks, includeConstructors,
    collisionPolicy]

/-- The table that the setting is in. -/
def table : Setting → String
  | suffix | ignoreDirs | respectGitignore | includeHidden | followLinks => "scan"
  | includeConstructors | collisionPolicy => "extract"

/-- The name of the setting in its table. -/
def name : Setting → String
  | suffix => "suffix"
  | ignoreDirs => "ignore_dirs"
  | respectGitignore => "respect_gitignore"
  | includeHidden => "include_hidden"
  | followLinks => "follow_links"
  | includeConstructors => "include_constructors"
  | collisionPolicy => "collision_policy"

theorem mem_all (x : Setting) : x ∈ all := by
  cases x <;> decide

theorem name_injective {x y : Setting} (h : x.name = y.name) : x = y := by
  cases x <;> cases y <;> first | rfl | exact absurd h (by decide)

theorem table_cases (x : Setting) : x.table = "scan" ∨ x.table = "extract" := by
  cases x <;> first | exact .inl rfl | exact .inr rfl

end Setting

namespace Settings

variable {s : Settings} {keep p q : Setting → Bool}

/-- The settings of which only those that `keep` says are kept; the others are the standard ones. -/
def only (s : Settings) (keep : Setting → Bool) : Settings where
  scan := {
    suffix := if keep .suffix then s.scan.suffix else standard.scan.suffix
    ignoreDirs := if keep .ignoreDirs then s.scan.ignoreDirs else standard.scan.ignoreDirs
    respectGitignore :=
      if keep .respectGitignore then s.scan.respectGitignore else standard.scan.respectGitignore
    includeHidden := if keep .includeHidden then s.scan.includeHidden else standard.scan.includeHidden
    followLinks := if keep .followLinks then s.scan.followLinks else standard.scan.followLinks }
  extract := {
    includeConstructors :=
      if keep .includeConstructors then s.extract.includeConstructors
      else standard.extract.includeConstructors
    collisionPolicy :=
      if keep .collisionPolicy then s.extract.collisionPolicy
      else standard.extract.collisionPolicy }

theorem scan_only_congr (h : ∀ x : Setting, x.table = "scan" → p x = q x) :
    (s.only p).scan = (s.only q).scan := by
  simp only [only, h .suffix rfl, h .ignoreDirs rfl, h .respectGitignore rfl,
    h .includeHidden rfl, h .followLinks rfl]

theorem extract_only_congr (h : ∀ x : Setting, x.table = "extract" → p x = q x) :
    (s.only p).extract = (s.only q).extract := by
  simp only [only, h .includeConstructors rfl, h .collisionPolicy rfl]

/-- The entry that holds a setting. -/
def written (s : Settings) : Setting → Written
  | .suffix => .ofText "suffix" s.scan.suffix
  | .ignoreDirs => .ofTexts "ignore_dirs" s.scan.ignoreDirs
  | .respectGitignore => .ofTruth "respect_gitignore" s.scan.respectGitignore
  | .includeHidden => .ofTruth "include_hidden" s.scan.includeHidden
  | .followLinks => .ofTruth "follow_links" s.scan.followLinks
  | .includeConstructors => .ofTruth "include_constructors" s.extract.includeConstructors
  | .collisionPolicy => .ofText "collision_policy" s.extract.collisionPolicy.tag

theorem name_written (s : Settings) (x : Setting) : (s.written x).name = x.name := by
  cases x <;> rfl

theorem readable_written (s : Settings) (x : Setting) : (s.written x).Readable := by
  cases x
  case suffix | collisionPolicy => exact Written.readable_ofText (by decide)
  case ignoreDirs => exact Written.readable_ofTexts (by decide)
  all_goals exact Written.readable_ofTruth (by decide)

/-! ### Settings in a document -/

/-- Among the entries of a table are the kept settings that belong there, each with its value, and no
others. -/
def HeldIn (s : Settings) (keep : Setting → Bool) (table : String) (inner : Entries) : Prop :=
  ∀ x : Setting, x.table = table → ((∃ v, (x.name, v) ∈ inner) ↔ keep x = true) ∧
    ∀ v, (x.name, v) ∈ inner → (s.written x).holds v

/-- The entries of a document hold the kept settings, and no others. -/
structure HeldBy (s : Settings) (keep : Setting → Bool) (entries : Entries) : Prop where
  /-- What has the name of a table of settings is a table, and holds those. -/
  table : ∀ (x : Setting) v, (x.table, v) ∈ entries →
    ∃ span form inner, v = .table span form inner ∧ s.HeldIn keep x.table inner
  /-- The table of a kept setting is there. -/
  there : ∀ x : Setting, keep x = true → ∃ v, (x.table, v) ∈ entries

/-- **What has been read are the settings whose names have occurred**: if each entry adds those that
go by its name, all entries add those that go by one of their names. -/
theorem foldlM_of_adds {α : Type} {step : α → String × Toml → Except Fault α}
    (state : (Setting → Bool) → α) (called : Setting → String) {entries : Entries}
    (h : ∀ p, ∀ e ∈ entries, step (state p) e = .ok (state fun x => p x || called x = e.1))
    (p : Setting → Bool) : entries.foldlM step (state p) =
      .ok (state fun x => p x || entries.any fun e => called x = e.1) := by
  induction entries generalizing p with
  | nil => simp; rfl
  | cons e entries ih =>
    rw [List.foldlM_cons, h p e List.mem_cons_self]
    refine (ih (fun p e he => h p e (List.mem_cons_of_mem _ he)) _).trans ?_
    simp only [List.any_cons, Bool.or_assoc]

theorem HeldIn.any_eq {table : String} {inner : Entries} (h : s.HeldIn keep table inner)
    {x : Setting} (hx : x.table = table) :
    (false || inner.any fun e => x.name = e.1) = keep x := by
  have hany : (inner.any fun e => decide (x.name = e.1)) = true ↔ keep x = true := by
    rw [← (h x hx).1, List.any_eq_true]
    constructor
    · rintro ⟨⟨name, v⟩, he, heq⟩
      exact ⟨v, of_decide_eq_true heq ▸ he⟩
    · rintro ⟨v, hv⟩
      exact ⟨_, hv, decide_eq_true rfl⟩
  rw [Bool.false_or]
  exact Bool.eq_iff_iff.mpr hany

/-- **A group of settings is read off the entries of its table**, whatever else is there. What is
read is `state` of the settings that were added so far, and does not depend on other groups. -/
theorem readGroup_of_heldIn {α : Type} {group table : String} {fields : List String}
    {assign : α → String → Toml → Except Fault α} {inner : Entries}
    (state : (Setting → Bool) → α)
    (hfields : fields = (Setting.all.filter fun x => x.table = table).map Setting.name)
    (hassign : ∀ p (x : Setting) v, x.table = table → (s.written x).holds v →
      assign (state p) x.name v = .ok (state fun y => p y || y = x))
    (hcongr : ∀ p q, (∀ x : Setting, x.table = table → p x = q x) → state p = state q)
    (h : s.HeldIn keep table inner) (span : Span) (form : TableForm) :
    readGroup group fields assign (state fun _ => false) (.table span form inner) =
      .ok (state keep) := by
  rw [readGroup, foldlM_of_adds state Setting.name]
  · exact congrArg Except.ok (hcongr _ _ fun x hx => h.any_eq hx)
  rintro p ⟨name, v⟩ he
  dsimp only
  have hmem : name ∈ fields ↔ ∃ x : Setting, x.table = table ∧ x.name = name := by
    simp [hfields, Setting.mem_all]
  by_cases hfield : name ∈ fields
  · obtain ⟨x, hx, rfl⟩ := hmem.mp hfield
    rw [if_pos (List.contains_iff_mem.mpr hfield), hassign p x v hx ((h x hx).2 v he)]
    -- No other setting has the name.
    refine congrArg (fun q => Except.ok (state q)) (funext fun y => congrArg (p y || ·) ?_)
    exact decide_eq_decide.mpr ⟨congrArg Setting.name, Setting.name_injective⟩
  · rw [if_neg (fun hcontains => hfield (List.contains_iff_mem.mp hcontains))]
    refine congrArg Except.ok (hcongr _ _ fun x hx => ?_)
    have hname : x.name ≠ name := fun heq => hfield (hmem.mpr ⟨x, hx, heq⟩)
    rw [decide_eq_false hname, Bool.or_false]

section
variable {inner : Entries}

/-- The settings for scanning are read off the entries of their table. -/
theorem scan_of_heldIn (h : s.HeldIn keep "scan" inner) (span : Span) (form : TableForm) :
    ScanSettings.ofToml (.table span form inner) = .ok (s.only keep).scan := by
  refine readGroup_of_heldIn (fun p => (s.only p).scan) rfl (fun p x v hx hv => ?_)
    (fun _ _ => scan_only_congr) h span form
  cases x
  case suffix =>
    rw [Setting.name, ScanSettings.assign, IsText.asString hv]
    simp [only]
  case ignoreDirs =>
    rw [Setting.name, ScanSettings.assign, IsTexts.asStrings hv]
    simp [only]
  case respectGitignore | includeHidden | followLinks =>
    rw [Setting.name, ScanSettings.assign, IsTruth.asBool hv]
    simp [only]
  case includeConstructors | collisionPolicy => exact absurd hx (by decide)

/-- The settings for extraction are read off the entries of their table. -/
theorem extract_of_heldIn (h : s.HeldIn keep "extract" inner) (span : Span) (form : TableForm) :
    ExtractSettings.ofToml (.table span form inner) = .ok (s.only keep).extract := by
  refine readGroup_of_heldIn (fun p => (s.only p).extract) rfl (fun p x v hx hv => ?_)
    (fun _ _ => extract_only_congr) h span form
  cases x
  case includeConstructors =>
    rw [Setting.name, ExtractSettings.assign, IsTruth.asBool hv]
    simp [only]
  case collisionPolicy =>
    rw [Setting.name, ExtractSettings.assign, CollisionPolicy.ofToml_of_isText hv]
    simp [only]
  all_goals exact absurd hx (by decide)

end

/-- **Settings that a document holds are read off it**, and the others are the standard ones. -/
theorem ofEntries_of_heldBy {entries : Entries} (h : s.HeldBy keep entries) :
    ofEntries entries = .ok (s.only keep) := by
  have hstandard : standard = s.only (fun x => keep x && false) := by
    simp only [Bool.and_false]
    rfl
  rw [ofEntries, hstandard, foldlM_of_adds (fun p => s.only fun x => keep x && p x)
    Setting.table]
  · -- The table of each kept setting has occurred.
    refine congrArg (fun p => Except.ok (s.only p)) (funext fun x => ?_)
    cases hx : keep x with
    | false => rfl
    | true =>
      obtain ⟨v, hv⟩ := h.there x hx
      rw [Bool.true_and]
      exact List.any_eq_true.mpr ⟨_, hv, decide_eq_true rfl⟩
  rintro p ⟨name, v⟩ he
  by_cases hscan : name = "scan"
  · subst hscan
    obtain ⟨span, form, inner, rfl, hinner⟩ := h.table .suffix v he
    show assign _ "scan" _ = _
    rw [assign, scan_of_heldIn hinner]
    simp [only, Setting.table]
  by_cases hextract : name = "extract"
  · subst hextract
    obtain ⟨span, form, inner, rfl, hinner⟩ := h.table .includeConstructors v he
    show assign _ "extract" _ = _
    rw [assign, extract_of_heldIn hinner]
    simp [only, Setting.table]
  · -- No setting is in a table of another name.
    have hother : ∀ x : Setting, decide (x.table = name) = false := by
      intro x
      rcases x.table_cases with hx | hx
      · exact decide_eq_false (hx ▸ Ne.symm hscan)
      · exact decide_eq_false (hx ▸ Ne.symm hextract)
    show assign _ name v = _
    simp only [hother, Bool.or_false]
    rw [assign]
    · exact hscan
    · exact hextract

end Settings

end SymbolIndex

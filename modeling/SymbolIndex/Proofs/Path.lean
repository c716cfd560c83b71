import SymbolIndex.Proofs.FileSystem.Names

/-!
# The name that a path ends in

A path is split at its slashes, and of what is between them only some counts: empty pieces do not,
nor do single dots, but for one that the path starts with. What is left are the parts of the path
(`Path.parts`), and its components are the root, if it starts there, and those parts
(`Path.components_eq`). So the name that a path ends in is its last part, unless that stands for a
directory seen from itself or from below (`Path.fileName?_eq_some_iff`).

What comes behind the last part without being one leaves the name alone (`Path.fileName?_append`),
and so does anything in front of it (`Path.fileName?_below`). Whether a path has a suffix depends on
its name only (`Path.hasSuffix_depends_on_last_part`).
-/

namespace SymbolIndex

open Text

namespace Path

/-! ### Pieces and parts -/

/-- Whether a piece of a path counts wherever it stands. -/
def counts (piece : List UInt8) : Bool := piece ≠ [] && piece ≠ [dot]

/-- The pieces of a path between its slashes, without those that do not count. A single dot counts
if the path starts with it. -/
def parts (p : Path) : List (List UInt8) :=
  let pieces := p.bytes.splitOn slash
  (pieces.take 1).filter (· ≠ []) ++ (pieces.drop 1).filter counts

/-- What a part of a path stands for. -/
def componentOfPart (part : List UInt8) : Component :=
  if part = [dot] then .current
  else if part = [dot, dot] then .parent
  else .name part

variable {p : Path} {name : Name}

theorem splitOn_eq_segments (bytes : List UInt8) : bytes.splitOn slash = segments bytes := by
  induction bytes with
  | nil => rfl
  | cons b bytes ih =>
    rw [List.splitOn, List.splitOnP_cons_eq_if_modifyHead, ← List.splitOn, ih, segments]
    obtain ⟨s, ss, hsegments⟩ := List.exists_cons_of_ne_nil (segments_ne_nil bytes)
    by_cases hb : b = slash
    · simp [hb]
    · simp [hb, hsegments]

/-- There is no slash between two slashes. -/
theorem slash_not_mem_of_mem_segments (bytes : List UInt8) :
    ∀ s ∈ segments bytes, slash ∉ s := by
  induction bytes with
  | nil => simp [segments]
  | cons b bytes ih =>
    rw [segments]
    obtain ⟨first, others, hsegments⟩ := List.exists_cons_of_ne_nil (segments_ne_nil bytes)
    rw [hsegments] at ih ⊢
    obtain ⟨hfirst, hothers⟩ := List.forall_mem_cons.mp ih
    split_ifs with hb
    · exact List.forall_mem_cons.mpr ⟨List.not_mem_nil, ih⟩
    · refine List.forall_mem_cons.mpr ⟨fun hmem => ?_, hothers⟩
      rcases List.mem_cons.mp hmem with heq | hmem
      · exact hb heq.symm
      · exact hfirst hmem

theorem slash_not_mem_of_mem_parts (h : name ∈ p.parts) : slash ∉ name := by
  refine slash_not_mem_of_mem_segments p.bytes name ?_
  rw [← splitOn_eq_segments]
  rcases List.mem_append.mp h with h | h
  · exact List.mem_of_mem_take (List.mem_of_mem_filter h)
  · exact List.mem_of_mem_drop (List.mem_of_mem_filter h)

theorem component?_eq (piece : List UInt8) :
    component? piece = if counts piece then some (componentOfPart piece) else none := by
  rw [component?.eq_def]
  split
  · rfl
  · rfl
  · rfl
  · rename_i hnil hdot hdots
    have hcounts : counts piece = true :=
      Bool.and_eq_true_iff.mpr ⟨decide_eq_true hnil, decide_eq_true hdot⟩
    have hname : componentOfPart piece = .name piece := (if_neg hdot).trans (if_neg hdots)
    rw [if_pos hcounts, hname]

theorem filterMap_component? (pieces : List (List UInt8)) :
    pieces.filterMap component? = (pieces.filter counts).map componentOfPart := by
  induction pieces with
  | nil => rfl
  | cons piece pieces ih =>
    rw [List.filterMap_cons, component?_eq, List.filter_cons, ih]
    cases counts piece <;> rfl

/-- The components of a path are its parts, behind the root if it starts there. -/
theorem components_eq (p : Path) :
    p.components = (if p.isAbsolute then [.root] else []) ++ p.parts.map componentOfPart := by
  obtain ⟨first, others, hsegments⟩ := List.exists_cons_of_ne_nil (segments_ne_nil p.bytes)
  have habsolute : p.isAbsolute = true → first = [] := by
    intro h
    obtain ⟨rest, hbytes⟩ := List.head?_eq_some_iff.mp (of_decide_eq_true h)
    rw [hbytes, segments, if_pos rfl] at hsegments
    exact (List.cons.inj hsegments).1.symm
  rw [components, parts, splitOn_eq_segments, hsegments, List.filterMap_cons, component?_eq first,
    filterMap_component? others]
  by_cases hroot : p.isAbsolute
  · simp [hroot, habsolute hroot, counts]
  -- The first piece is a part unless it is empty, a single dot as well.
  by_cases hnil : first = []
  · simp [hroot, hnil, counts]
  by_cases hdot : first = [dot]
  · simp [hroot, hdot, counts, componentOfPart, dot]
  · have hfirst : counts first = true :=
      Bool.and_eq_true_iff.mpr ⟨decide_eq_true hnil, decide_eq_true hdot⟩
    simp only [hroot, Bool.false_eq_true, if_false, hfirst, if_true, List.take_succ_cons,
      List.take_zero, List.drop_succ_cons, List.drop_zero, List.filter_cons, List.filter_nil,
      ne_eq, hnil, not_false_eq_true, decide_true, List.singleton_append, List.map_cons,
      List.nil_append]
    split
    · rename_i heq
      exact absurd (List.cons.inj heq).1 hdot
    · rfl

/-! ### The name -/

/-- The name that a path ends in is its last part, if that is a name. -/
theorem fileName?_eq_some_iff :
    p.fileName? = some name ↔
      p.parts.getLast? = some name ∧ name ≠ [dot] ∧ name ≠ [dot, dot] := by
  rw [fileName?, components_eq, List.getLast?_append, List.getLast?_map]
  cases hlast : p.parts.getLast? with
  | none =>
    -- At most the root is left.
    split_ifs <;> simp
  | some part =>
    rw [Option.map_some, Option.some_or, componentOfPart]
    split_ifs with hdot hdots
    · refine iff_of_false (by simp) ?_
      rintro ⟨h, hne, -⟩
      exact hne (Option.some.inj h ▸ hdot)
    · refine iff_of_false (by simp) ?_
      rintro ⟨h, -, hne⟩
      exact hne (Option.some.inj h ▸ hdots)
    · constructor
      · intro h
        cases h
        exact ⟨rfl, hdot, hdots⟩
      · rintro ⟨h, -, -⟩
        cases h
        rfl

theorem fileName?_congr {q : Path} (h : p.parts.getLast? = q.parts.getLast?) :
    p.fileName? = q.fileName? :=
  Option.ext fun name => by rw [fileName?_eq_some_iff, fileName?_eq_some_iff, h]

/-- Behind a slash only what counts is a part. -/
theorem parts_append (before after : List UInt8) :
    parts ⟨before ++ slash :: after⟩ =
      parts ⟨before⟩ ++ (after.splitOn slash).filter counts := by
  obtain ⟨first, others, hsegments⟩ := List.exists_cons_of_ne_nil (segments_ne_nil before)
  simp only [parts, splitOn_eq_segments, segments_append, hsegments, List.cons_append,
    List.take_succ_cons, List.take_zero, List.drop_succ_cons, List.drop_zero, List.filter_append,
    List.append_assoc]

/-- What does not count leaves the name alone if it comes at the end. -/
theorem fileName?_append {tail : List UInt8} (h : (tail.splitOn slash).filter counts = []) :
    fileName? ⟨p.bytes ++ slash :: tail⟩ = p.fileName? :=
  fileName?_congr (by rw [parts_append, h, List.append_nil])

/-- The last part of a path counts even if the path does not start with it, unless it is a dot. -/
theorem getLast?_filter_counts (h : p.parts.getLast? = some name) (hdot : name ≠ [dot]) :
    ((p.bytes.splitOn slash).filter counts).getLast? = some name := by
  rw [parts, List.getLast?_append] at h
  rw [← List.take_append_drop 1 (p.bytes.splitOn slash), List.filter_append, List.getLast?_append]
  cases hlast : (((p.bytes.splitOn slash).drop 1).filter counts).getLast? with
  | some last => rwa [hlast] at h
  | none =>
    -- Then it is the first piece.
    rw [hlast, Option.none_or] at h
    rw [Option.none_or]
    obtain ⟨first, others, hpieces⟩ := List.exists_cons_of_ne_nil (segments_ne_nil p.bytes)
    rw [splitOn_eq_segments, hpieces, List.take_succ_cons, List.take_zero] at h ⊢
    by_cases hnil : first = []
    · simp [hnil] at h
    · have hfirst : first = name := by simpa [hnil] using h
      rw [← hfirst] at hdot ⊢
      simp [counts, hnil, hdot]

/-- What is in front of a path that ends in a name leaves the name alone. -/
theorem fileName?_below (directory : Path) (h : p.fileName? = some name) :
    fileName? ⟨directory.bytes ++ slash :: p.bytes⟩ = some name := by
  obtain ⟨hlast, hdot, hdots⟩ := fileName?_eq_some_iff.mp h
  refine fileName?_eq_some_iff.mpr ⟨?_, hdot, hdots⟩
  rw [parts_append, List.getLast?_append, getLast?_filter_counts hlast hdot, Option.some_or]

theorem slash_not_mem_of_fileName? (h : p.fileName? = some name) : slash ∉ name :=
  slash_not_mem_of_mem_parts (List.mem_of_getLast? (fileName?_eq_some_iff.mp h).1)

/-- Slashes at the end of a path, and dots behind them, leave the name alone. -/
theorem fileName?_append_all {ends : List (List UInt8)}
    (h : ∀ e ∈ ends, e = [slash] ∨ e = [slash, dot]) (p : Path) :
    fileName? ⟨p.bytes ++ ends.flatten⟩ = p.fileName? := by
  induction ends generalizing p with
  | nil => rw [List.flatten_nil, List.append_nil]
  | cons e ends ih =>
    obtain ⟨he, hends⟩ := List.forall_mem_cons.mp h
    have hstep : fileName? ⟨p.bytes ++ e⟩ = p.fileName? := by
      rcases he with rfl | rfl
      · exact fileName?_append (by decide)
      · exact fileName?_append (by decide)
    rw [List.flatten_cons, ← List.append_assoc, ← hstep]
    exact ih hends ⟨p.bytes ++ e⟩

/-! ### Suffixes -/

theorem hasSuffix_iff {suffix : String} :
    p.hasSuffix suffix = true ↔
      ∃ text, p.fileName? = some (Utf8.encode text) ∧ suffix.toList <:+ text.toList := by
  rw [hasSuffix]
  constructor
  · intro h
    split at h
    · rename_i text htext
      obtain ⟨name, hname, hdecode⟩ := Option.bind_eq_some_iff.mp htext
      exact ⟨text, Utf8.encode_of_decode? hdecode ▸ hname, List.isSuffixOf_iff_suffix.mp h⟩
    · cases h
  · rintro ⟨text, hname, hsuffix⟩
    rw [hname, Option.bind_some, Utf8.decode?_encode]
    exact List.isSuffixOf_iff_suffix.mpr hsuffix

theorem hasSuffix_congr {q : Path} (h : p.fileName? = q.fileName?) (suffix : String) :
    p.hasSuffix suffix = q.hasSuffix suffix := by
  rw [hasSuffix, hasSuffix, h]

/-- No name has a slash in it. -/
theorem hasSuffix_of_slash {suffix : String} (h : '/' ∈ suffix.toList) :
    p.hasSuffix suffix = false := by
  rw [← Bool.not_eq_true, hasSuffix_iff]
  rintro ⟨text, hname, hsuffix⟩
  refine slash_not_mem_of_fileName? hname (List.mem_flatMap.mpr ⟨'/', hsuffix.subset h, ?_⟩)
  decide

/-- **Whether a path has a suffix depends on its last part only.** A path has a suffix exactly if
its last part is neither a dot nor two dots and is the encoding of a text that ends so. So it does
not matter how many slashes there are at the end of the path, with a dot behind them or without, nor
what is in front of a path that ends in a name. No path has a suffix with a slash in it, and a path
that has a suffix has every ending of it for a suffix, too. -/
theorem hasSuffix_depends_on_last_part (p : Path) (suffix : String) :
    (p.hasSuffix suffix = true ↔ ∃ name, p.parts.getLast? = some name ∧
      name ≠ [dot] ∧ name ≠ [dot, dot] ∧
      ∃ text, name = Utf8.encode text ∧ suffix.toList <:+ text.toList) ∧
    (∀ ends : List (List UInt8), (∀ e ∈ ends, e = [slash] ∨ e = [slash, dot]) →
      hasSuffix ⟨p.bytes ++ ends.flatten⟩ suffix = p.hasSuffix suffix) ∧
    (p.fileName?.isSome = true → ∀ directory : Path,
      hasSuffix ⟨directory.bytes ++ slash :: p.bytes⟩ suffix = p.hasSuffix suffix) ∧
    ('/' ∈ suffix.toList → p.hasSuffix suffix = false) ∧
    ∀ ending : String, ending.toList <:+ suffix.toList →
      p.hasSuffix suffix = true → p.hasSuffix ending = true := by
  refine ⟨?_, fun ends hends => hasSuffix_congr (fileName?_append_all hends p) suffix,
    fun hname directory => ?_, hasSuffix_of_slash, fun ending hending h => ?_⟩
  · rw [hasSuffix_iff]
    constructor
    · rintro ⟨text, hname, hsuffix⟩
      obtain ⟨hlast, hdot, hdots⟩ := fileName?_eq_some_iff.mp hname
      exact ⟨_, hlast, hdot, hdots, text, rfl, hsuffix⟩
    · rintro ⟨name, hlast, hdot, hdots, text, rfl, hsuffix⟩
      exact ⟨text, fileName?_eq_some_iff.mpr ⟨hlast, hdot, hdots⟩, hsuffix⟩
  · obtain ⟨name, hname⟩ := Option.isSome_iff_exists.mp hname
    exact hasSuffix_congr ((fileName?_below directory hname).trans hname.symm) suffix
  · obtain ⟨text, hname, hsuffix⟩ := hasSuffix_iff.mp h
    exact hasSuffix_iff.mpr ⟨text, hname, hending.trans hsuffix⟩

/-- A name keeps its suffix with slashes and a dot behind it, in a directory that is given from
above, and for the end of that suffix. -/
theorem hasSuffix_around_name :
    hasSuffix "é.mjs//./" ".mjs" = true ∧ hasSuffix "../x/é.mjs" ".mjs" = true ∧
      hasSuffix "é.mjs" "js" = true ∧ hasSuffix "é.mjs" "/é.mjs" = false := by
  obtain ⟨hparts, hends, hbelow, -, hending⟩ := hasSuffix_depends_on_last_part "é.mjs" ".mjs"
  have hname : hasSuffix "é.mjs" ".mjs" = true :=
    hparts.mpr ⟨Utf8.encode "é.mjs", by decide, by decide, by decide, "é.mjs", rfl, by decide⟩
  refine ⟨?_, ?_, hending "js" (by decide) hname, ?_⟩
  · exact (hends [[slash], [slash, dot], [slash]] (by decide)).trans hname
  · exact (hbelow (by decide) "../x").trans hname
  · exact (hasSuffix_depends_on_last_part "é.mjs" "/é.mjs").2.2.2.1 (by decide)

end Path

end SymbolIndex

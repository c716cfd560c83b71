import SymbolIndex.Proofs.FileSystem.Names

/-!
# A walk is never cut short

A walk is given a depth that it may not exceed. Here it is shown that it never gets there. The
measure is `Station.ahead`: how many places are not among those that are being visited, and, for as
many, how much deeper a place can be. A directory below leads to a deeper place, and a link that is
followed leads to a directory that was not being visited (`Station.ahead_enter_lt`). So a walk is the
same for every depth beyond the measure (`Station.walk_eq_of_ahead_lt`), and the depth given to a
walk is (`FileSystem.walk_ofRoot`).
-/

namespace SymbolIndex

/-! ### The places of a tree -/

namespace Entry

mutual

/-- The places of a tree, with the entries there. -/
def places : Entry → List (Location × Entry)
  | directory es => ([], directory es) :: placesAll es
  | file contents => [([], file contents)]
  | link target => [([], link target)]
  | closed cause => [([], closed cause)]
  | device => [([], device)]

/-- The places below a directory, with the entries there. -/
def placesAll : List (Name × Entry) → List (Location × Entry)
  | [] => []
  | (name, e) :: r => e.places.map (fun place => (name :: place.1, place.2)) ++ placesAll r

end

mutual

/-- There are as many places as entries. -/
theorem length_places : (e : Entry) → e.places.length = e.count
  | directory es => by rw [places, count, List.length_cons, length_placesAll es]
  | file _ | link _ | closed _ | device => rfl

theorem length_placesAll : (es : List (Name × Entry)) → (placesAll es).length = countAll es
  | [] => rfl
  | (name, e) :: es => by
    rw [placesAll, countAll, List.length_append, List.length_map, length_places e,
      length_placesAll es]

end

theorem mem_placesAll {name : Name} {e e' : Entry} {l : Location} {es : List (Name × Entry)}
    (he : (name, e) ∈ es) (hl : (l, e') ∈ e.places) : (name :: l, e') ∈ placesAll es := by
  induction es with
  | nil => cases he
  | cons first es ih =>
    rw [placesAll]
    rcases List.mem_cons.mp he with rfl | he
    · exact List.mem_append_left _ (List.mem_map.mpr ⟨(l, e'), hl, rfl⟩)
    · exact List.mem_append_right _ (ih he)

/-- Every entry of a tree has its place. -/
theorem mem_places {l : Location} {e e' : Entry} (h : at? l e = some e') : (l, e') ∈ e.places := by
  induction l generalizing e with
  | nil =>
    cases h
    cases e' <;> simp [places]
  | cons n l ih =>
    obtain ⟨es, hes, hrest⟩ := Option.bind_eq_some_iff.mp h
    obtain ⟨child, hchild, hrest⟩ := Option.bind_eq_some_iff.mp hrest
    obtain rfl := eq_directory_of_entries? hes
    rw [places]
    exact List.mem_cons_of_mem _ (mem_placesAll (mem_of_child? hchild) (ih hrest))

end Entry

/-! ### One directory more -/

namespace Station

variable {fs : FileSystem} {scan : ScanSettings} {d : Station} {name : Name} {e : Entry}
  {place : Location}

/-- A link is followed to a directory that is not being visited. -/
theorem follow_eq_directory (h : d.follow fs name = .ok (.directory place)) :
    fs.locate (d.entryPath name) = .ok place ∧ fs.HasDirectory place ∧
      place ∉ d.ancestors.map (·.1) := by
  rw [follow] at h
  cases hlocate : fs.locate (d.entryPath name) with
  | error cause =>
    rw [hlocate] at h
    cases h
  | ok l =>
    rw [hlocate] at h
    dsimp only at h
    split at h
    · cases h
    · rename_i es hes
      split at h
      · cases h
      · rename_i hnew
        cases h
        refine ⟨rfl, ⟨es, hes⟩, fun hmem => ?_⟩
        obtain ⟨a, ha, heq⟩ := List.mem_map.mp hmem
        exact List.find?_eq_none.mp hnew a ha (decide_eq_true heq)
    -- Nothing else that is there is a directory that can be listed.
    all_goals cases h

/-- What is a directory for a walk is one, or a link that is followed to one. -/
theorem visit_eq_directory (h : d.visit fs scan name e = .ok (.directory place)) :
    (e.isDirectory = true ∧ place = d.place ++ [name]) ∨
      ∃ target, e = .link target ∧ d.follow fs name = .ok (.directory place) := by
  cases e with
  | file _ | device => cases h
  | directory _ | closed _ =>
    cases h
    exact .inl ⟨rfl, rfl⟩
  | link target =>
    rw [visit] at h
    split_ifs at h with hlinks
    · exact .inr ⟨target, rfl, h⟩
    · cases h

/-- What two walks come by at an entry that is the same for both is related if what they come by
inside a directory is. -/
theorem walkEntry_rel {fs' : FileSystem} {e' : Entry} {inside inside' : Station → List Visit}
    {R : List Visit → List Visit → Prop} (hrefl : ∀ visits, R visits visits)
    (hvisit : d.visit fs' scan name e' = d.visit fs scan name e)
    (hinside : ∀ place, d.visit fs scan name e = .ok (.directory place) →
      R (inside' (d.enter fs' scan name place)) (inside (d.enter fs scan name place))) :
    R (d.walkEntry fs' scan inside' name e') (d.walkEntry fs scan inside name e) := by
  rw [walkEntry, walkEntry, hvisit]
  cases hv : d.visit fs scan name e with
  | error f => exact hrefl _
  | ok visited =>
    cases visited with
    | file | other => exact hrefl _
    | directory place =>
      dsimp only
      split_ifs
      · exact hrefl _
      · exact hinside place hv

/-- The places that are not being visited. -/
def unvisited (fs : FileSystem) (d : Station) : List Location :=
  (fs.root.places.map (·.1)).filter (· ∉ d.ancestors.map (·.1))

/-- What a walk can still have ahead of it. -/
def ahead (fs : FileSystem) (d : Station) : Nat :=
  (d.unvisited fs).length * (fs.root.count + 1) + (fs.root.count - d.place.length)

theorem unvisited_enter :
    (d.enter fs scan name place).unvisited fs = (d.unvisited fs).filter (· ≠ place) := by
  rw [unvisited, unvisited, List.filter_filter]
  refine List.filter_congr fun l _ => ?_
  rw [enter, List.map_cons, ← Bool.decide_and]
  simp only [List.mem_cons, not_or, ne_eq]

/-- A directory below is deeper, a link leaves a place less. -/
theorem ahead_enter_lt (hfs : fs.Lawful) (he : (name, e) ∈ d.entries fs)
    (h : d.visit fs scan name e = .ok (.directory place)) :
    (d.enter fs scan name place).ahead fs < d.ahead fs := by
  rw [ahead, ahead, unvisited_enter]
  show _ + (fs.root.count - place.length) < _
  obtain ⟨-, rfl⟩ | ⟨target, rfl, hfollow⟩ := visit_eq_directory h
  · have hentry := (mem_entries_iff hfs).mp he
    have hdepth : (d.place ++ [name]).length < fs.root.count := Entry.length_lt_count hentry
    rw [List.length_append, List.length_singleton] at hdepth ⊢
    have hle := Nat.mul_le_mul_right (fs.root.count + 1)
      (List.length_filter_le (· ≠ d.place ++ [name]) (d.unvisited fs))
    omega
  · obtain ⟨-, ⟨es, hes⟩, hnew⟩ := follow_eq_directory hfollow
    have hmem : place ∈ d.unvisited fs :=
      List.mem_filter.mpr
        ⟨List.mem_map.mpr ⟨_, Entry.mem_places hes, rfl⟩, decide_eq_true hnew⟩
    have hlt : ((d.unvisited fs).filter (· ≠ place)).length < (d.unvisited fs).length :=
      List.length_filter_lt_length_iff_exists.mpr ⟨place, hmem, by simp⟩
    -- However deep the new place is, that counts for less than one of these.
    have hmul := Nat.mul_le_mul_right (fs.root.count + 1) (Nat.succ_le_of_lt hlt)
    rw [Nat.succ_mul] at hmul
    omega

/-! ### A whole walk -/

/-- **A walk is the same for every depth** beyond what it has ahead of it. -/
theorem walk_eq_of_ahead_lt (hfs : fs.Lawful) {depth depth' : Nat} (h : d.ahead fs < depth)
    (h' : d.ahead fs < depth') : walk fs scan depth d = walk fs scan depth' d := by
  induction depth generalizing depth' d with
  | zero => exact absurd h (Nat.not_lt_zero _)
  | succ depth ih =>
    cases depth' with
    | zero => exact absurd h' (Nat.not_lt_zero _)
    | succ depth' =>
      rw [walk, walk]
      refine congrArg (d.unlisted fs ++ ·) (List.flatMap_congr fun e he =>
        walkEntry_rel (fun _ => rfl) rfl fun place hplace => ?_)
      have hlt := ahead_enter_lt hfs he hplace
      exact ih (Nat.lt_of_lt_of_le hlt (Nat.le_of_lt_succ h))
        (Nat.lt_of_lt_of_le hlt (Nat.le_of_lt_succ h'))

end Station

/-- A walk that may go deeper than the given depth is the same. -/
theorem FileSystem.walk_ofRoot {fs : FileSystem} (hfs : fs.Lawful) (scan : ScanSettings)
    (root : Path) (place : Location) {depth : Nat} (h : fs.walkDepth ≤ depth) :
    Station.walk fs scan depth (.ofRoot fs scan root place) =
      Station.walk fs scan fs.walkDepth (.ofRoot fs scan root place) := by
  have hunvisited : ((Station.ofRoot fs scan root place).unvisited fs).length ≤ fs.root.count := by
    refine Nat.le_trans (List.length_filter_le _ _) ?_
    rw [List.length_map, Entry.length_places]
  have hahead : (Station.ofRoot fs scan root place).ahead fs < fs.walkDepth :=
    calc (Station.ofRoot fs scan root place).ahead fs
      _ ≤ fs.root.count * (fs.root.count + 1) + fs.root.count :=
        Nat.add_le_add (Nat.mul_le_mul_right _ hunvisited) (Nat.sub_le _ _)
      _ < (fs.root.count + 1) * (fs.root.count + 1) := by
        rw [Nat.succ_mul]
        omega
  exact Station.walk_eq_of_ahead_lt hfs (Nat.lt_of_lt_of_le hahead h) hahead

end SymbolIndex

import SymbolIndex.Proofs.FileSystem.Names

/-!
# Where following a path comes

A path is followed one step at a time, and a link on the way is replaced by the steps of its target.
`FileSystem.Comes` says which places this comes to, and what is still to be done there; it does not
count links, so it says where a path can lead with any limit on them. Following a path is then going
on from any place that it comes to, with fewer links left (`FileSystem.Comes.followThrough_append`).

Two file systems in which the entries are alike wherever a path comes resolve it in the same way
(`FileSystem.Mirrors.resolve_join`). That needs no look at the way to a place that was found: every
other place on it is that of a directory (`FileSystem.Comes.hasDirectory_or_eq`).
-/

namespace SymbolIndex.FileSystem

variable {fs fs' : FileSystem} {here l m : Location} {name : Name} {rest s t u : List Step}
  {target : Path} {n : Nat}

/-! ### One step -/

section
variable {followLast : Bool} {onLink : Location → List Step → Except IoCause Target}

theorem HasDirectory.allows (h : fs.HasDirectory here) (step : Step) : fs.Allows here step := by
  obtain ⟨es, hes⟩ := h
  exact .directory hes step

theorem follow_stay (h : fs.Allows here .stay) :
    fs.follow followLast onLink here (.stay :: rest) = fs.follow followLast onLink here rest := by
  cases h with
  | directory hes => rw [follow, hes]

theorem follow_slash (h : fs.Allows here .slash) :
    fs.follow followLast onLink here (.slash :: rest) = fs.follow followLast onLink here rest := by
  cases h with
  | directory hes => rw [follow, hes]
  | closed hclosed =>
    rw [follow, hclosed]
    exact if_pos rfl

theorem follow_up (h : fs.Allows here .up) :
    fs.follow followLast onLink here (.up :: rest) =
      fs.follow followLast onLink here.dropLast rest := by
  cases h with
  | directory hes => rw [follow, hes]

theorem follow_into {e : Entry} (he : fs.entry? (here ++ [name]) = some e)
    (hlink : ∀ target, e ≠ .link target) :
    fs.follow followLast onLink here (.into name :: rest) =
      fs.follow followLast onLink (here ++ [name]) rest := by
  obtain ⟨es, hes⟩ := hasDirectory_of_concat he
  rw [entry?_concat hes] at he
  rw [follow, hes]
  dsimp only [Option.bind_some, Entry.entries?]
  rw [he]
  cases e with
  | file _ | directory _ | closed _ | device => rfl
  | link target => exact absurd rfl (hlink target)

/-- What is told where no step is possible. -/
def obstacle (fs : FileSystem) (here : Location) : IoCause :=
  match fs.entry? here with
  | some (.closed cause) => cause
  | _ => .notDirectory

theorem follow_of_not_allows {step : Step} (h : ¬fs.Allows here step) :
    fs.follow followLast onLink here (step :: rest) = .error (fs.obstacle here) := by
  rw [follow, obstacle]
  cases hhere : fs.entry? here with
  | none => rfl
  | some e =>
    cases e with
    | file _ | link _ | device => rfl
    | directory es => exact absurd (.directory hhere step) h
    | closed cause =>
      refine if_neg fun hslash => h ?_
      subst hslash
      exact .closed hhere

/-- Nothing follows where only slashes can be passed. -/
theorem eq_existing_of_closed {cause : IoCause} {result : Target}
    (hclosed : fs.entry? here = some (.closed cause))
    (h : fs.follow followLast onLink here s = .ok result) : result = .existing here := by
  induction s with
  | nil =>
    rw [follow] at h
    exact (Except.ok.inj h).symm
  | cons step s ih =>
    rw [follow, hclosed] at h
    dsimp only at h
    split_ifs at h
    exact ih h

/-- Whether a missing name makes a difference depends on what comes behind it. -/
theorem follow_missing (hhere : fs.HasDirectory here) (he : fs.entry? (here ++ [name]) = none) :
    fs.follow followLast onLink here (.into name :: rest) =
      if rest = [] then .ok (.absent here name false)
      else if rest = [.slash] then .ok (.absent here name true)
      else .error .notFound := by
  obtain ⟨es, hes⟩ := hhere
  rw [entry?_concat hes] at he
  rw [follow, hes]
  dsimp only [Option.bind_some, Entry.entries?]
  rw [he]

theorem follow_emptyLink (he : fs.entry? (here ++ [name]) = some (.link target))
    (htarget : target.bytes.isEmpty = true) :
    fs.follow true onLink here (.into name :: rest) = .error .notFound := by
  obtain ⟨es, hes⟩ := hasDirectory_of_concat he
  rw [entry?_concat hes] at he
  rw [follow, hes]
  dsimp only [Option.bind_some, Entry.entries?]
  rw [he]
  simp [htarget]

theorem follow_link (he : fs.entry? (here ++ [name]) = some (.link target))
    (htarget : target.bytes.isEmpty = false) :
    fs.follow true onLink here (.into name :: rest) =
      onLink (if target.isAbsolute then [] else here) (target.steps ++ rest) := by
  obtain ⟨es, hes⟩ := hasDirectory_of_concat he
  rw [entry?_concat hes] at he
  rw [follow, hes]
  dsimp only [Option.bind_some, Entry.entries?]
  rw [he]
  simp [htarget]

end

/-- How a link is followed when `n` more of them may be. -/
def onLink (fs : FileSystem) : (links : Nat) → Location → List Step → Except IoCause Target
  | 0 => fun _ _ => .error .tooManyLinks
  | n + 1 => fs.followThrough true n

theorem followThrough_eq (fs : FileSystem) (n : Nat) :
    fs.followThrough true n = fs.follow true (fs.onLink n) := by
  cases n <;> rfl

theorem followThrough_nil (fs : FileSystem) (n : Nat) (here : Location) :
    fs.followThrough true n here [] = .ok (.existing here) := by
  rw [followThrough_eq, follow]

/-! ### Places on the way -/

/-- Taking the first step from a place leads on to another one, with the given steps still to do. -/
inductive Goes (fs : FileSystem) : Location → List Step → Location → List Step → Prop
  | stay {here : Location} {rest : List Step} (hhere : fs.Allows here .stay) :
      Goes fs here (.stay :: rest) here rest
  | slash {here : Location} {rest : List Step} (hhere : fs.Allows here .slash) :
      Goes fs here (.slash :: rest) here rest
  | up {here : Location} {rest : List Step} (hhere : fs.Allows here .up) :
      Goes fs here (.up :: rest) here.dropLast rest
  | into {here : Location} {rest : List Step} {name : Name} {e : Entry}
      (he : fs.entry? (here ++ [name]) = some e) (hlink : ∀ target, e ≠ .link target) :
      Goes fs here (.into name :: rest) (here ++ [name]) rest
  | link {here : Location} {rest : List Step} {name : Name} {target : Path}
      (he : fs.entry? (here ++ [name]) = some (.link target))
      (htarget : target.bytes.isEmpty = false) :
      Goes fs here (.into name :: rest) (if target.isAbsolute then [] else here)
        (target.steps ++ rest)

/-- Following steps from a place comes to another one, with the given steps still to do. -/
inductive Comes (fs : FileSystem) : Location → List Step → Location → List Step → Prop
  | here (l : Location) (s : List Step) : Comes fs l s l s
  | goes {here m l : Location} {s u t : List Step} (first : fs.Goes here s m u)
      (h : Comes fs m u l t) : Comes fs here s l t

/-- The first of several steps is the same whatever comes behind them. -/
theorem Goes.exists_of_append (h : fs.Goes here (s ++ u) l t) (hs : s ≠ []) :
    ∃ t', t = t' ++ u ∧ fs.Goes here s l t' := by
  obtain ⟨step, s, rfl⟩ := List.exists_cons_of_ne_nil hs
  rw [List.cons_append] at h
  cases h with
  | stay hhere => exact ⟨s, rfl, .stay hhere⟩
  | slash hhere => exact ⟨s, rfl, .slash hhere⟩
  | up hhere => exact ⟨s, rfl, .up hhere⟩
  | into he hlink => exact ⟨s, rfl, .into he hlink⟩
  | link he htarget => exact ⟨_, (List.append_assoc ..).symm, .link he htarget⟩

/-- One step: what is left to do is done from where it leads, with one link less if it is a link. -/
theorem Goes.followThrough_append (h : fs.Goes here s l t) (n : Nat) :
    (∀ u, fs.followThrough true n here (s ++ u) = fs.followThrough true n l (t ++ u)) ∨
      ∀ u, fs.followThrough true n here (s ++ u) = fs.onLink n l (t ++ u) := by
  simp only [followThrough_eq]
  cases h with
  | stay hhere => exact .inl fun u => follow_stay hhere
  | slash hhere => exact .inl fun u => follow_slash hhere
  | up hhere => exact .inl fun u => follow_up hhere
  | into he hlink => exact .inl fun u => follow_into he hlink
  | link he htarget =>
    refine .inr fun u => ?_
    rw [List.cons_append, follow_link he htarget, List.append_assoc]

/-- **Following a path is going on from any place on the way**, with some number of links left; or
there are too many links before it, whatever the path goes on with. -/
theorem Comes.followThrough_append (h : fs.Comes here s l t) (n : Nat) :
    (∃ k, ∀ u, fs.followThrough true n here (s ++ u) = fs.followThrough true k l (t ++ u)) ∨
      ∀ u, fs.followThrough true n here (s ++ u) = .error .tooManyLinks := by
  induction h generalizing n with
  | here l s => exact .inl ⟨n, fun u => rfl⟩
  | @goes here m l s v t first _ ih =>
    -- The rest is followed with `k` links if the first step leaves as many.
    have hrest : ∀ k, (∀ u, fs.followThrough true n here (s ++ u) =
        fs.followThrough true k m (v ++ u)) →
        (∃ k, ∀ u, fs.followThrough true n here (s ++ u) = fs.followThrough true k l (t ++ u)) ∨
          ∀ u, fs.followThrough true n here (s ++ u) = .error .tooManyLinks := by
      intro k hfirst
      obtain ⟨k', hk⟩ | herror := ih k
      · exact .inl ⟨k', fun u => (hfirst u).trans (hk u)⟩
      · exact .inr fun u => (hfirst u).trans (herror u)
    obtain hfirst | hlink := first.followThrough_append n
    · exact hrest n hfirst
    · cases n with
      | zero => exact .inr hlink
      | succ n => exact hrest n hlink

/-- What a path leads to, following it comes to. -/
theorem comes_of_followThrough (h : fs.followThrough true n here s = .ok (.existing m)) :
    fs.Comes here s m [] := by
  induction n using Nat.strong_induction_on generalizing here s with
  | _ n ihn =>
    induction s generalizing here with
    | nil =>
      rw [followThrough_nil] at h
      cases h
      exact .here _ _
    | cons step rest ih =>
      rw [followThrough_eq] at h ih
      obtain ⟨hhere, hpasses⟩ := follow_cons_eq_ok_iff.mp h
      cases hpasses with
      | stay hrest => exact .goes (.stay hhere) (ih hrest)
      | slash hrest => exact .goes (.slash hhere) (ih hrest)
      | up hrest => exact .goes (.up hhere) (ih hrest)
      | into he hlink hrest => exact .goes (.into he hlink) (ih hrest)
      | link he _ htarget hrest =>
        cases n with
        | zero => cases hrest
        | succ n => exact .goes (.link he htarget) (ihn n (Nat.lt_succ_self n) hrest)
      | lastLink _ hlast _ => simp at hlast
      | missing _ _ _ heq => cases heq

/-- Following two paths in a row, a place is on the first, or on the second from where the first
leads. -/
theorem Comes.append_cases (h : fs.Comes here (s ++ u) l t) :
    (∃ t', t = t' ++ u ∧ fs.Comes here s l t') ∨
      ∃ m, fs.Comes here s m [] ∧ fs.Comes m u l t := by
  generalize hsu : s ++ u = su at h
  induction h generalizing s with
  | here l su =>
    subst hsu
    exact .inl ⟨s, rfl, .here _ _⟩
  | @goes here m l su v t first h ih =>
    by_cases hs : s = []
    · subst hs
      subst hsu
      exact .inr ⟨here, .here _ _, .goes first h⟩
    · subst hsu
      obtain ⟨v', rfl, hfirst⟩ := first.exists_of_append hs
      obtain ⟨t', ht, hs⟩ | ⟨m', hs, hu⟩ := ih rfl
      · exact .inl ⟨t', ht, .goes hfirst hs⟩
      · exact .inr ⟨m', .goes hfirst hs, hu⟩

/-- A name that is no link is all of its way. -/
theorem Comes.of_into (h : fs.Comes here [.into name] l t) {e : Entry}
    (he : fs.entry? (here ++ [name]) = some e) (hlink : ∀ target, e ≠ .link target) :
    l = here ∨ l = here ++ [name] := by
  cases h with
  | here => exact .inl rfl
  | goes first hrest =>
    cases first with
    | into _ _ =>
      cases hrest with
      | here => exact .inr rfl
      | goes first _ => cases first
    | link he' _ =>
      rw [he] at he'
      cases he'
      exact absurd rfl (hlink _)

/-- The way of a link is that of its target. -/
theorem Comes.of_link (h : fs.Comes here [.into name] l t)
    (he : fs.entry? (here ++ [name]) = some (.link target)) :
    l = here ∨ fs.Comes (if target.isAbsolute then [] else here) target.steps l t := by
  cases h with
  | here => exact .inl rfl
  | goes first hrest =>
    cases first with
    | into he' hlink =>
      rw [he] at he'
      cases he'
      exact absurd rfl (hlink _)
    | link he' _ =>
      rw [he] at he'
      cases he'
      rw [List.append_nil] at hrest
      exact .inr hrest

/-- A path that fails for another reason than its links leads nowhere. -/
theorem not_comes_of_error {cause : IoCause} (h : fs.followThrough true n here s = .error cause)
    (hcause : cause ≠ .tooManyLinks) : ¬fs.Comes here s l [] := by
  intro hcomes
  obtain ⟨k, hk⟩ | herror := hcomes.followThrough_append n
  · have hl := hk []
    rw [List.append_nil, h, List.append_nil, followThrough_nil] at hl
    cases hl
  · have hnone := herror []
    rw [List.append_nil, h] at hnone
    cases hnone
    exact hcause rfl

/-- A path leads to one place only, if there are not too many links on the way. -/
theorem Comes.eq_of_followThrough (h : fs.Comes here s l [])
    (hs : fs.followThrough true n here s = .ok (.existing m)) : l = m := by
  obtain ⟨k, hk⟩ | herror := h.followThrough_append n
  · have hl := hk []
    rw [List.append_nil, hs, List.append_nil, followThrough_nil] at hl
    exact (Target.existing.inj (Except.ok.inj hl)).symm
  · have hnone := herror []
    rw [List.append_nil, hs] at hnone
    cases hnone

/-- What is left to do on the way to a place can be done. -/
theorem Comes.exists_followThrough (h : fs.Comes here s l t)
    (hs : fs.followThrough true n here s = .ok (.existing m)) :
    ∃ k, fs.followThrough true k l t = .ok (.existing m) := by
  obtain ⟨k, hk⟩ | herror := h.followThrough_append n
  · have hl := hk []
    rw [List.append_nil, hs, List.append_nil] at hl
    exact ⟨k, hl.symm⟩
  · have hnone := herror []
    rw [List.append_nil, hs] at hnone
    cases hnone

/-- On the way to a place every other one is that of a directory. -/
theorem Comes.hasDirectory_or_eq (h : fs.Comes here s l t)
    (hs : fs.followThrough true n here s = .ok (.existing m)) : fs.HasDirectory l ∨ l = m := by
  obtain ⟨k, hk⟩ := h.exists_followThrough hs
  cases t with
  | nil =>
    rw [followThrough_nil] at hk
    cases hk
    exact .inr rfl
  | cons step t =>
    rw [followThrough_eq] at hk
    cases (follow_cons_eq_ok_iff.mp hk).1 with
    | directory hes => exact .inl ⟨_, hes⟩
    | closed hclosed =>
      cases eq_existing_of_closed hclosed hk
      exact .inr rfl

/-! ### Two file systems -/

/-- At a place there is the same in both file systems, but for the entries in directories. -/
def Alike (fs fs' : FileSystem) (l : Location) : Prop :=
  (fs'.entry? l).map Entry.bare = (fs.entry? l).map Entry.bare

/-- Every directory and every link of the first file system is one of the second. -/
structure Mirrors (fs fs' : FileSystem) : Prop where
  workingDirectory : fs'.workingDirectory = fs.workingDirectory
  directory : ∀ l, fs.HasDirectory l → fs'.HasDirectory l
  link : ∀ l target, fs.entry? l = some (.link target) → fs'.entry? l = some (.link target)

theorem Alike.symm (h : fs.Alike fs' l) : fs'.Alike fs l := Eq.symm h

theorem Alike.hasDirectory (h : fs.Alike fs' l) (hl : fs.HasDirectory l) : fs'.HasDirectory l := by
  obtain ⟨es, hes⟩ := hl
  rw [Alike, hes] at h
  obtain ⟨e, he, heq⟩ := Option.map_eq_some_iff.mp h
  cases e with
  | directory es' => exact ⟨es', he⟩
  | file _ | link _ | closed _ | device => cases heq

/-- What is no directory is the same. -/
theorem Alike.entry? {e : Entry} (h : fs.Alike fs' l) (hl : fs.entry? l = some e)
    (hentries : e.entries? = none) : fs'.entry? l = some e := by
  rw [Alike, hl] at h
  obtain ⟨e', he', heq⟩ := Option.map_eq_some_iff.mp h
  cases e with
  | directory es => cases hentries
  | file _ | link _ | closed _ | device =>
    cases e' with
    | directory _ => cases heq
    | file _ | link _ | closed _ | device =>
      cases heq <;> exact he'

theorem Alike.notLink {e : Entry} (h : fs.Alike fs' l) (hl : fs.entry? l = some e)
    (hlink : ∀ target, e ≠ .link target) :
    ∃ e', fs'.entry? l = some e' ∧ ∀ target, e' ≠ .link target := by
  cases e with
  | file _ | closed _ | device => exact ⟨_, h.entry? hl rfl, hlink⟩
  | link target => exact absurd rfl (hlink target)
  | directory es =>
    obtain ⟨es', hes'⟩ := h.hasDirectory ⟨es, hl⟩
    exact ⟨_, hes', fun target => Entry.noConfusion⟩

/-- There is the same in both file systems, or a directory in both. -/
theorem Alike.cases (h : fs.Alike fs' l) :
    fs'.entry? l = fs.entry? l ∨ fs.HasDirectory l ∧ fs'.HasDirectory l := by
  cases hl : fs.entry? l with
  | none =>
    rw [Alike, hl] at h
    exact .inl (Option.map_eq_none_iff.mp h)
  | some e =>
    cases e with
    | directory es => exact .inr ⟨⟨es, hl⟩, h.hasDirectory ⟨es, hl⟩⟩
    | file _ | link _ | closed _ | device => exact .inl (h.entry? hl rfl)

theorem Alike.allows (h : fs.Alike fs' here) {step : Step} (hstep : fs.Allows here step) :
    fs'.Allows here step := by
  cases hstep with
  | directory hes => exact (h.hasDirectory ⟨_, hes⟩).allows step
  | closed hclosed => exact .closed (h.entry? hclosed rfl)

theorem Alike.directoryAt (h : fs.Alike fs' l) (hl : fs.DirectoryAt l) : fs'.DirectoryAt l := by
  obtain hdir | ⟨cause, hclosed⟩ := hl.cases
  · exact (h.hasDirectory hdir).directoryAt
  · exact ⟨_, h.entry? hclosed rfl, rfl⟩

/-- What is in the way is the same. -/
theorem Alike.obstacle (h : fs.Alike fs' here) : fs'.obstacle here = fs.obstacle here := by
  rw [FileSystem.obstacle, FileSystem.obstacle]
  obtain heq | ⟨⟨es, hes⟩, es', hes'⟩ := h.cases
  · rw [heq]
  · rw [hes, hes']

theorem alike_of_hasDirectory (h : fs.HasDirectory l) (h' : fs'.HasDirectory l) :
    fs.Alike fs' l := by
  obtain ⟨es, hes⟩ := h
  obtain ⟨es', hes'⟩ := h'
  rw [Alike, hes, hes']
  rfl

/-- **Where everything on the way is alike, a path is followed in the same way**, as long as names
that are missing on the way are missing in both file systems. -/
theorem Mirrors.followThrough (h : fs.Mirrors fs')
    (hcomes : ∀ l t, fs.Comes here s l t → fs.Alike fs' l)
    (hmissing : ∀ l name t, fs.Comes here s l (.into name :: t) →
      fs.entry? (l ++ [name]) = none → fs'.entry? (l ++ [name]) = none) :
    fs'.followThrough true n here s = fs.followThrough true n here s := by
  induction n using Nat.strong_induction_on generalizing here s with
  | _ n ihn =>
    induction s generalizing here with
    | nil => rw [followThrough_nil, followThrough_nil]
    | cons step rest ih =>
      -- What the first step leads to is on the way, too.
      have hlater : ∀ {m u}, fs.Goes here (step :: rest) m u →
          (∀ l t, fs.Comes m u l t → fs.Alike fs' l) ∧
          ∀ l name t, fs.Comes m u l (.into name :: t) →
            fs.entry? (l ++ [name]) = none → fs'.entry? (l ++ [name]) = none := by
        intro m u hfirst
        exact ⟨fun l t hrest => hcomes l t (.goes hfirst hrest),
          fun l name t hrest => hmissing l name t (.goes hfirst hrest)⟩
      have hnext : ∀ {m}, fs.Goes here (step :: rest) m rest →
          fs'.follow true (fs'.onLink n) m rest = fs.follow true (fs.onLink n) m rest := by
        intro m hfirst
        have hrest := ih (hlater hfirst).1 (hlater hfirst).2
        rwa [followThrough_eq, followThrough_eq] at hrest
      have hhere : fs.Alike fs' here := hcomes here _ (.here _ _)
      rw [followThrough_eq, followThrough_eq]
      by_cases hstep : fs.Allows here step
      · have hstep' := hhere.allows hstep
        cases step with
        | stay => rw [follow_stay hstep, follow_stay hstep', hnext (.stay hstep)]
        | slash => rw [follow_slash hstep, follow_slash hstep', hnext (.slash hstep)]
        | up => rw [follow_up hstep, follow_up hstep', hnext (.up hstep)]
        | into name =>
          have hdir : fs.HasDirectory here := hstep.exists_of_into
          cases he : fs.entry? (here ++ [name]) with
          | none =>
            have he' := hmissing here name rest (.here _ _) he
            rw [follow_missing hdir he, follow_missing (hhere.hasDirectory hdir) he']
          | some e =>
            by_cases hlink : ∃ target, e = .link target
            · obtain ⟨target, rfl⟩ := hlink
              have he' := h.link _ _ he
              cases htarget : target.bytes.isEmpty with
              | true => rw [follow_emptyLink he htarget, follow_emptyLink he' htarget]
              | false =>
                rw [follow_link he htarget, follow_link he' htarget]
                have hgo := hlater (.link he htarget)
                cases n with
                | zero => rfl
                | succ n => exact ihn n (Nat.lt_succ_self n) hgo.1 hgo.2
            · have hlink : ∀ target, e ≠ .link target := fun target heq => hlink ⟨target, heq⟩
              have hgo : fs.Goes here (.into name :: rest) (here ++ [name]) rest := .into he hlink
              obtain ⟨e', he', hlink'⟩ := ((hlater hgo).1 _ _ (.here _ _)).notLink he hlink
              rw [follow_into he hlink, follow_into he' hlink', hnext hgo]
      · have hstep' : ¬fs'.Allows here step := fun h => hstep (hhere.symm.allows h)
        rw [follow_of_not_allows hstep, follow_of_not_allows hstep', hhere.obstacle]

/-- On the way to a place that is alike every other one is that of a directory, so it is alike. -/
theorem Mirrors.alike_of_comes (h : fs.Mirrors fs')
    (hs : fs.followThrough true n here s = .ok (.existing m)) (hm : fs.Alike fs' m)
    (hl : fs.Comes here s l t) : fs.Alike fs' l := by
  obtain hdir | rfl := hl.hasDirectory_or_eq hs
  · exact alike_of_hasDirectory hdir (h.directory l hdir)
  · exact hm

/-- What leads to a place leads to it in the other file system, if it is alike. -/
theorem Mirrors.followThrough_of_alike (h : fs.Mirrors fs')
    (hs : fs.followThrough true n here s = .ok (.existing m)) (hm : fs.Alike fs' m) :
    fs'.followThrough true n here s = .ok (.existing m) := by
  refine (h.followThrough (fun l t => h.alike_of_comes hs hm) fun l name t hl hnone => ?_).trans hs
  -- No name on the way is missing.
  obtain ⟨k, hk⟩ := hl.exists_followThrough hs
  rw [followThrough_eq] at hk
  have hdir : fs.HasDirectory l := (follow_cons_eq_ok_iff.mp hk).1.exists_of_into
  rw [follow_missing hdir hnone] at hk
  split_ifs at hk
  · cases hk
  · cases hk

/-! ### Paths of entries -/

/-- Where following a path starts. -/
def start (fs : FileSystem) (p : Path) : Location :=
  if p.isAbsolute then [] else fs.workingDirectory

variable {p : Path}

theorem resolve_eq (fs : FileSystem) (h : p.bytes ≠ []) :
    fs.resolve true p = fs.followThrough true linkLimit (fs.start p) p.steps := by
  rw [resolve, if_neg (by simpa using h), start]

theorem resolve_nil (fs : FileSystem) (h : p.bytes = []) :
    fs.resolve true p = .error .notFound := by
  rw [resolve, if_pos (by simpa using h)]

theorem locate_eq_ok_iff :
    fs.locate p = .ok l ↔ p.bytes ≠ [] ∧
      fs.followThrough true linkLimit (fs.start p) p.steps = .ok (.existing l) := by
  rw [locate]
  by_cases hempty : p.bytes = []
  · rw [fs.resolve_nil hempty]
    constructor
    · intro h
      cases h
    · intro h
      exact absurd hempty h.1
  · rw [fs.resolve_eq hempty]
    cases fs.followThrough true linkLimit (fs.start p) p.steps with
    | error cause => simp [bind, Except.bind]
    | ok t => cases t <;> simp [bind, Except.bind, hempty]

theorem start_join (hempty : p.bytes ≠ []) (hname : Path.Ordinary name) :
    fs.start (p.join ⟨name⟩) = fs.start p := by
  have hbase : p.base.head? = p.bytes.head? := by
    obtain ⟨b, r, hbytes⟩ := List.exists_cons_of_ne_nil hempty
    rw [Path.base]
    split_ifs
    · rfl
    · rw [hbytes]
      rfl
  have hne : p.base ≠ [] := by
    intro hnil
    rw [hnil, List.head?_nil] at hbase
    exact hempty (List.head?_eq_none_iff.mp hbase.symm)
  have habsolute : (p.join ⟨name⟩).isAbsolute = p.isAbsolute := by
    rw [Path.isAbsolute, Path.isAbsolute, Path.bytes_join hname.1.2,
      List.head?_append_of_ne_nil _ hne, hbase]
  rw [start, start, habsolute]

/-- On the way to a place, the last slash of a path makes no difference. -/
theorem comes_of_locate (h : fs.locate p = .ok l) : fs.Comes (fs.start p) p.moves l [] := by
  have hsteps := comes_of_followThrough (locate_eq_ok_iff.mp h).2
  obtain heq | heq := p.steps_cases
  · exact heq ▸ hsteps
  · rw [heq] at hsteps
    obtain ⟨t', ht, -⟩ | ⟨m, hm, hslash⟩ := hsteps.append_cases
    · exact absurd ht.symm (by simp)
    · cases hslash with
      | goes first hrest =>
        cases first with
        | slash _ =>
          cases hrest with
          | here => exact hm
          | goes first _ => cases first

/-- What a path goes on with is followed from where the path leads. -/
theorem exists_followThrough_of_locate (h : fs.locate p = .ok l) :
    ∃ k, ∀ u, fs.followThrough true linkLimit (fs.start p) (p.moves ++ u) =
      fs.followThrough true k l u := by
  have hsteps := (locate_eq_ok_iff.mp h).2
  obtain hk | herror := (comes_of_locate h).followThrough_append linkLimit
  · exact hk
  · -- There are not too many links, since the path leads somewhere.
    obtain heq | heq := p.steps_cases
    · have hnone := herror []
      rw [List.append_nil, ← heq, hsteps] at hnone
      cases hnone
    · have hnone := herror [.slash]
      rw [← heq, hsteps] at hnone
      cases hnone

theorem bytes_join_ne_nil (hname : Path.Ordinary name) : (p.join ⟨name⟩).bytes ≠ [] := by
  rw [Path.bytes_join hname.1.2]
  exact List.append_ne_nil_of_right_ne_nil _ hname.1.1

theorem exists_resolve_join (h : fs.locate p = .ok l) (hname : Path.Ordinary name) :
    ∃ k, fs.resolve true (p.join ⟨name⟩) = fs.followThrough true k l [.into name] := by
  obtain ⟨k, hk⟩ := exists_followThrough_of_locate h
  obtain ⟨hempty, -⟩ := locate_eq_ok_iff.mp h
  refine ⟨k, ?_⟩
  rw [fs.resolve_eq (bytes_join_ne_nil hname), Path.steps_join hname, start_join hempty hname, hk]

/-- The place of an entry is one that following its name comes to. -/
theorem comes_of_locate_join (h : fs.locate p = .ok l) (hname : Path.Ordinary name)
    (hm : fs.locate (p.join ⟨name⟩) = .ok m) : fs.Comes l [.into name] m [] := by
  obtain ⟨k, hk⟩ := exists_resolve_join h hname
  obtain ⟨-, hsteps⟩ := locate_eq_ok_iff.mp hm
  rw [← fs.resolve_eq (bytes_join_ne_nil hname), hk] at hsteps
  exact comes_of_followThrough hsteps

/-- The path of an entry that is no link leads to the entry. -/
theorem resolve_join_of_notLink (h : fs.locate p = .ok l) (hname : Path.Ordinary name) {e : Entry}
    (he : fs.entry? (l ++ [name]) = some e) (hlink : ∀ target, e ≠ .link target) :
    fs.resolve true (p.join ⟨name⟩) = .ok (.existing (l ++ [name])) := by
  obtain ⟨k, hk⟩ := exists_resolve_join h hname
  rw [hk, followThrough_eq, follow_into he hlink, follow]

theorem locate_of_resolve (h : fs.resolve true p = .ok (.existing l)) : fs.locate p = .ok l := by
  rw [locate, h]
  rfl

/-- A path that leads to a place leads to it in the other file system, if it is alike. -/
theorem Mirrors.locate (h : fs.Mirrors fs') (hp : fs.locate p = .ok l) (hl : fs.Alike fs' l) :
    fs'.locate p = .ok l := by
  obtain ⟨hempty, hsteps⟩ := locate_eq_ok_iff.mp hp
  have hstart : fs'.start p = fs.start p := by
    rw [start, start, h.workingDirectory]
  refine locate_eq_ok_iff.mpr ⟨hempty, ?_⟩
  rw [hstart]
  exact h.followThrough_of_alike hsteps hl

/-- **The path of an entry is resolved in the same way** in a file system that is alike wherever the
name of the entry comes, and that has nothing new. -/
theorem Mirrors.resolve_join (h : fs.Mirrors fs')
    (hnew : ∀ l, fs.entry? l = none → fs'.entry? l = none) (hp : fs.locate p = .ok l)
    (hl : fs.HasDirectory l) (hname : Path.Ordinary name)
    (hcomes : ∀ m t, fs.Comes l [.into name] m t → fs.Alike fs' m) :
    fs'.resolve true (p.join ⟨name⟩) = fs.resolve true (p.join ⟨name⟩) := by
  obtain ⟨hempty, hsteps⟩ := locate_eq_ok_iff.mp hp
  obtain ⟨k, hk⟩ := exists_followThrough_of_locate hp
  have hmoves : fs.followThrough true linkLimit (fs.start p) p.moves = .ok (.existing l) := by
    rw [← List.append_nil p.moves, hk, followThrough_nil]
  have hway : ∀ m t, fs.Comes (fs.start p) (p.moves ++ [.into name]) m t → fs.Alike fs' m := by
    intro m t hm
    obtain ⟨t', -, hm⟩ | ⟨m', hm', hm⟩ := hm.append_cases
    · exact h.alike_of_comes hmoves (alike_of_hasDirectory hl (h.directory l hl)) hm
    · rw [hm'.eq_of_followThrough hmoves] at hm
      exact hcomes m t hm
  have hstart : fs'.start p = fs.start p := by
    rw [start, start, h.workingDirectory]
  have hjoin : (p.join ⟨name⟩).bytes ≠ [] := bytes_join_ne_nil hname
  rw [fs.resolve_eq hjoin, fs'.resolve_eq hjoin, Path.steps_join hname, start_join hempty hname,
    start_join hempty hname, hstart]
  exact h.followThrough hway fun m name _ _ hnone => hnew (m ++ [name]) hnone

/-! ### What a path leads to -/

/-- The path leads to one place in both file systems, and what is there is alike. -/
structure AgreeAt (fs fs' : FileSystem) (p : Path) : Prop where
  locate : fs'.locate p = fs.locate p
  alike : ∀ l, fs.locate p = .ok l → fs.Alike fs' l

theorem agreeAt_of_resolve (h : fs'.resolve true p = fs.resolve true p)
    (halike : ∀ l, fs.locate p = .ok l → fs.Alike fs' l) : fs.AgreeAt fs' p where
  locate := by rw [FileSystem.locate, FileSystem.locate, h]
  alike := halike

/-- What a path leads to is the same, or a directory. -/
theorem AgreeAt.stat_cases (h : fs.AgreeAt fs' p) :
    fs'.stat p = fs.stat p ∨
      ∃ es es', fs.stat p = .ok (.directory es) ∧ fs'.stat p = .ok (.directory es') := by
  rw [stat, stat, h.locate]
  cases hl : fs.locate p with
  | error cause => exact .inl rfl
  | ok l =>
    dsimp only [bind, Except.bind]
    obtain heq | ⟨⟨es, hes⟩, es', hes'⟩ := (h.alike l hl).cases
    · exact .inl (by rw [heq])
    · rw [hes, hes']
      exact .inr ⟨es, es', rfl, rfl⟩

theorem AgreeAt.read (h : fs.AgreeAt fs' p) : fs'.read p = fs.read p := by
  rw [FileSystem.read, FileSystem.read]
  obtain heq | ⟨es, es', hes, hes'⟩ := h.stat_cases
  · rw [heq]
  · rw [hes, hes']
    rfl

/-- A link is the same for a walk. -/
theorem AgreeAt.follow {d : Station} (h : fs.AgreeAt fs' (d.entryPath name)) :
    d.follow fs' name = d.follow fs name := by
  rw [Station.follow, Station.follow, h.locate]
  cases hl : fs.locate (d.entryPath name) with
  | error cause => rfl
  | ok l =>
    dsimp only
    obtain heq | ⟨⟨es, hes⟩, es', hes'⟩ := (h.alike l hl).cases
    · rw [heq]
    · rw [hes, hes']

end SymbolIndex.FileSystem

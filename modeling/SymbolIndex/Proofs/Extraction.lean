import SymbolIndex.Extraction
import SymbolIndex.Proofs.Log
import SymbolIndex.Proofs.Syntax.Declaration
import SymbolIndex.Proofs.Syntax.Traversal

/-!
# A stream finds the symbols of a tree in order

A `SymbolStream` is suspended between two calls of `next` with a queue of symbols that are found and
not handed out, and with a traversal that is suspended too. What it will hand out is the queue and
then what the remaining declarations give, one after the other (`SymbolStream.remaining`). What it
tells depends on how far it has to look for that: a call looks into no declaration while the queue
lasts, and otherwise into as few as it can.

- `Declaration.symbols`, `Declaration.omissions`: what a single declaration gives, and what is told
  about it.
- `SymbolStream.queueMethods_eq`: queueing the methods of a class adds exactly these.
- `SymbolStream.calls_refine_declarations`: what any number of calls hand out, and what they tell.
-/

namespace SymbolIndex

open Syntax

/-! ### What a declaration gives -/

namespace Syntax

section
variable (options : ExtractOptions) (path : Path) (c : ClassDeclaration)

/-- The symbol that a member of the class `c` gives: methods with plain or private names give one,
but for constructors that are not wanted. -/
def Member.symbol? : Member → Option Symbol
  | .other => none
  | .method m => match m.key with
    | .identifier name | .privateName name =>
      if m.kind = .constructor ∧ options.includeConstructors = false then none
      else some (.method name c.name m.isStatic c.superclass path)
    | .literal _ | .computed _ => none

/-- What is told about a member of the class `c`: a method whose key is a literal or computed gives
no symbol. -/
def Member.omission? : Member → Option Event
  | .other => none
  | .method m => match m.key with
    | .identifier _ | .privateName _ => none
    | .literal _ | .computed _ => some (.memberSkipped m.key c.name path m.line)

end

/-- The symbols that a declaration gives, in order. -/
def Declaration.symbols (options : ExtractOptions) (path : Path) : Declaration → List Symbol
  | .functionDeclaration f => [.function f.name path]
  | .classDeclaration c => c.members.filterMap (Member.symbol? options path c)
  | .malformed .. => []

/-- What is told about a declaration, in order. -/
def Declaration.omissions (path : Path) : Declaration → List Event
  | .functionDeclaration _ => []
  | .classDeclaration c => c.members.filterMap (Member.omission? path c)
  | .malformed kind nameless line => [.declarationSkipped kind nameless path line]

end Syntax

/-! ### All findings at once -/

theorem Finding.symbol?_ofMember? (options : ExtractOptions) (path : Path) (c : ClassDeclaration)
    (member : Member) :
    (Finding.ofMember? options path c member).bind Finding.symbol? =
      member.symbol? options path c := by
  cases member with
  | other => rfl
  | method m =>
    rw [Finding.ofMember?, Finding.isExcluded, Member.symbol?, Method.simpleName?]
    by_cases hkind : m.kind = .constructor <;> cases hoption : options.includeConstructors <;>
      cases m.key <;> simp [hkind, Finding.symbol?]

/-- The symbols among the findings in a declaration are the symbols that it gives. -/
theorem Finding.filterMap_symbol?_ofDeclaration (options : ExtractOptions) (path : Path)
    (d : Declaration) :
    (Finding.ofDeclaration options path d).filterMap Finding.symbol? =
      d.symbols options path := by
  cases d with
  | functionDeclaration f => rfl
  | malformed kind nameless line => rfl
  | classDeclaration c =>
    have hevents : ∀ found : List Finding,
        (found.filter (·.event?.isSome)).filterMap Finding.symbol? = [] := by
      intro found
      rw [List.filterMap_eq_nil_iff]
      intro f hf
      have := (List.mem_filter.mp hf).2
      cases f with
      | symbol s => cases this
      | skipped e => rfl
    have hsymbols : ∀ found : List Finding,
        (found.filter (·.symbol?.isSome)).filterMap Finding.symbol? =
          found.filterMap Finding.symbol? := by
      intro found
      rw [List.filterMap_filter]
      refine congrArg (found.filterMap ·) (funext fun f => ?_)
      cases f <;> rfl
    rw [Finding.ofDeclaration, List.filterMap_append, hevents, hsymbols, List.filterMap_filterMap,
      List.nil_append]
    exact congrArg (c.members.filterMap ·) (funext fun member =>
      symbol?_ofMember? options path c member)

/-- The symbols of a tree are those that its declarations give. -/
theorem Syntax.SyntaxTree.symbols_eq_flatMap (t : SyntaxTree) (options : ExtractOptions) :
    t.symbols options = t.declarations.flatMap (Declaration.symbols options t.path) := by
  rw [symbols, findings, List.filterMap_flatMap]
  exact congrArg (t.declarations.flatMap ·) (funext fun d =>
    Finding.filterMap_symbol?_ofDeclaration options t.path d)

/-- The symbol of a member is the method under the name by which it is known. -/
theorem Syntax.Member.eq_of_symbol? {options : ExtractOptions} {path : Path}
    {c : ClassDeclaration} {member : Member} {s : Symbol}
    (h : member.symbol? options path c = some s) :
    ∃ m name, member = .method m ∧ m.simpleName? = some name ∧
      s = .method name c.name m.isStatic c.superclass path := by
  cases member with
  | other => cases h
  | method m =>
    rw [Member.symbol?] at h
    split at h
    · rename_i name hkey
      split at h <;> cases h
      exact ⟨m, name, rfl, by rw [Method.simpleName?, hkey], rfl⟩
    · rename_i name hkey
      split at h <;> cases h
      exact ⟨m, name, rfl, by rw [Method.simpleName?, hkey], rfl⟩
    · cases h
    · cases h

/-- A symbol of a tree belongs to the file of the tree. -/
theorem Syntax.SyntaxTree.path_of_mem_symbols {t : SyntaxTree} {options : ExtractOptions}
    {s : Symbol} (h : s ∈ t.symbols options) : s.path = t.path := by
  rw [symbols_eq_flatMap] at h
  obtain ⟨d, -, hs⟩ := List.mem_flatMap.mp h
  cases d with
  | functionDeclaration f =>
    rw [List.mem_singleton.mp hs]
    rfl
  | malformed kind nameless line => cases hs
  | classDeclaration c =>
    obtain ⟨member, -, hmember⟩ := List.mem_filterMap.mp hs
    obtain ⟨m, name, -, -, rfl⟩ := Member.eq_of_symbol? hmember
    rfl

namespace SymbolStream

/-! ### The queue of a class -/

/-- A member is queued or told of, or neither. A constructor that is left out has a plain name, so
nothing would have been told of it. -/
theorem queueMember_eq (c : ClassDeclaration) (s : SymbolStream) (member : Member)
    (hnamed : ∀ m, member = .method m → m.kind = .constructor →
      m.simpleName? = some "constructor") :
    queueMember c s member =
      ⟨{ s with pending := s.pending ++ (member.symbol? s.options s.path c).toList },
        (member.omission? s.path c).toList⟩ := by
  cases member with
  | other =>
    show (⟨s, []⟩ : Logged SymbolStream) = ⟨{ s with pending := s.pending ++ [] }, []⟩
    rw [List.append_nil]
  | method m =>
    have hplain := hnamed m rfl
    rw [queueMember, Finding.isExcluded, Member.symbol?, Member.omission?]
    rw [Method.simpleName?] at hplain ⊢
    cases hkey : m.key with
    | identifier name | privateName name =>
      by_cases hkind : m.kind = .constructor
      · cases hoption : s.options.includeConstructors with
        | false => simp [hkind, pure]
        | true => simp [hkind, pure]
      · simp [hkind, pure]
    | literal text | computed text =>
      -- The key of a constructor is a name, so no option has a say here.
      have hkind : m.kind ≠ .constructor := by
        intro hkind
        have := hplain hkind
        rw [hkey] at this
        cases this
      simp [hkind]

theorem foldlM_queueMember (c : ClassDeclaration) (members : List Member) (s : SymbolStream)
    (hnamed : ConstructorsNamed members) :
    members.foldlM (queueMember c) s =
      ⟨{ s with pending := s.pending ++ members.filterMap (Member.symbol? s.options s.path c) },
        members.filterMap (Member.omission? s.path c)⟩ := by
  induction members generalizing s with
  | nil =>
    show (⟨s, []⟩ : Logged SymbolStream) = ⟨{ s with pending := s.pending ++ [] }, []⟩
    rw [List.append_nil]
  | cons member members ih =>
    have hmember := queueMember_eq c s member
      (fun m hm => hnamed m (hm ▸ List.mem_cons_self))
    have hmembers : ConstructorsNamed members := fun m hm => hnamed m (List.mem_cons_of_mem _ hm)
    rw [List.foldlM_cons, hmember]
    refine Logged.ext ?_ ?_
    · rw [Logged.value_bind, ih _ hmembers]
      cases h : member.symbol? s.options s.path c with
      | none => simp [List.filterMap_cons_none h]
      | some found => simp [List.filterMap_cons_some h]
    · rw [Logged.events_bind, ih _ hmembers]
      cases h : member.omission? s.path c with
      | none => simp [List.filterMap_cons_none h]
      | some e => simp [List.filterMap_cons_some h]

/-- Queueing the methods of a class adds the symbols that the class gives, and tells what is told
about the class. -/
theorem queueMethods_eq (s : SymbolStream) (c : ClassDeclaration)
    (hnamed : ConstructorsNamed c.members) :
    s.queueMethods c =
      ⟨{ s with
          pending := s.pending ++ (Declaration.classDeclaration c).symbols s.options s.path },
        (Declaration.classDeclaration c).omissions s.path⟩ :=
  foldlM_queueMember c c.members s hnamed

/-! ### One call -/

/-- The symbols that are still to be handed out, in order. -/
def remaining (s : SymbolStream) : List Symbol :=
  s.pending ++ s.traversal.remaining.flatMap (Declaration.symbols s.options s.path)

/-- Once the queue is empty, the symbols of the next declaration come first. -/
theorem remaining_of_next_eq_some {s : SymbolStream} {d : Declaration} {t : Traversal}
    (hpending : s.pending = []) (hnext : s.traversal.next = (some d, t)) :
    s.remaining = d.symbols s.options s.path
      ++ t.remaining.flatMap (Declaration.symbols s.options s.path) := by
  rw [remaining, hpending, Traversal.remaining_of_next_eq_some hnext, List.flatMap_cons]
  rfl

theorem remaining_of_next_eq_none {s : SymbolStream} {t : Traversal}
    (hpending : s.pending = []) (hnext : s.traversal.next = (none, t)) : s.remaining = [] := by
  rw [remaining, hpending, (Traversal.remaining_of_next_eq_none hnext).1]
  rfl

/-- The classes that a traversal finds have named constructors, so their queues are as they
should be. -/
theorem queueMethods_of_next_eq_some {s : SymbolStream} {c : ClassDeclaration} {t : Traversal}
    (hpending : s.pending = [])
    (hnext : s.traversal.next = (some (.classDeclaration c), t)) :
    queueMethods { s with traversal := t } c =
      ⟨{ s with
          traversal := t
          pending := (Declaration.classDeclaration c).symbols s.options s.path },
        (Declaration.classDeclaration c).omissions s.path⟩ := by
  have hmem : .classDeclaration c ∈ s.traversal.remaining := by
    rw [Traversal.remaining_of_next_eq_some hnext]
    exact List.mem_cons_self
  obtain ⟨v, -, hv⟩ := List.mem_filterMap.mp hmem
  rw [queueMethods_eq _ c (Declaration.constructorsNamed_of_ofNode? hv), hpending]
  rfl

/-- A call hands out the first of the remaining symbols, if there is one, and leaves the others. -/
theorem value_next (s : SymbolStream) :
    s.next.value.1 = s.remaining.head? ∧ s.next.value.2.remaining = s.remaining.tail := by
  fun_induction next s with
  | case1 s found rest hpending =>
    rw [remaining, hpending]
    exact ⟨rfl, rfl⟩
  | case2 s hpending t hnext =>
    rw [remaining_of_next_eq_none hpending hnext]
    refine ⟨rfl, ?_⟩
    show s.pending ++ t.remaining.flatMap (Declaration.symbols s.options s.path) = []
    rw [hpending, (Traversal.remaining_of_next_eq_none hnext).2]
    rfl
  | case3 s hpending f t hnext =>
    rw [remaining_of_next_eq_some hpending hnext]
    refine ⟨rfl, ?_⟩
    show s.pending ++ t.remaining.flatMap (Declaration.symbols s.options s.path) = _
    rw [hpending]
    rfl
  | case4 s hpending c t hnext queued later ih =>
    have hqueued : queued.value.remaining = s.remaining := by
      rw [remaining_of_next_eq_some hpending hnext]
      show (queueMethods { s with traversal := t } c).value.remaining = _
      rw [queueMethods_of_next_eq_some hpending hnext]
      rfl
    rw [← hqueued]
    exact ih
  | case5 s hpending kind nameless line t hnext later ih =>
    have hlater : ({ s with traversal := t } : SymbolStream).remaining = s.remaining := by
      rw [remaining_of_next_eq_some hpending hnext, remaining, hpending]
      rfl
    rw [← hlater]
    exact ih

/-! ### Many calls -/

/-- The answers to the next `n` calls of `next`, and what they tell. -/
def calls : Nat → SymbolStream → Logged (List (Option Symbol))
  | 0, _ => pure []
  | n + 1, s => do
    let answer ← s.next
    let others ← calls n answer.2
    pure (answer.1 :: others)

theorem value_calls_succ (n : Nat) (s : SymbolStream) :
    (s.calls (n + 1)).value = s.next.value.1 :: (s.next.value.2.calls n).value := rfl

theorem events_calls_succ (n : Nat) (s : SymbolStream) :
    (s.calls (n + 1)).events = s.next.events ++ (s.next.value.2.calls n).events := by
  show s.next.events ++ ((s.next.value.2.calls n).events ++ []) = _
  rw [List.append_nil]

/-- The calls hand out the remaining symbols one by one, and none after the last. -/
theorem value_calls (n : Nat) (s : SymbolStream) :
    (s.calls n).value = (List.range n).map fun i => s.remaining[i]? := by
  induction n generalizing s with
  | zero => rfl
  | succ n ih =>
    obtain ⟨hanswer, hrest⟩ := value_next s
    rw [value_calls_succ, ih, hanswer, hrest, Traversal.map_getElem?_range_succ]

/-- How many of the declarations have to be looked into for `n` symbols. -/
def needed (options : ExtractOptions) (path : Path) : Nat → List Declaration → Nat
  | 0, _ => 0
  | _ + 1, [] => 0
  | n + 1, d :: ds => needed options path (n + 1 - (d.symbols options path).length) ds + 1

/-- What is told about the declarations that have to be looked into for `n` symbols. -/
def toldFor (options : ExtractOptions) (path : Path) (n : Nat) (ds : List Declaration) :
    List Event :=
  (ds.take (needed options path n ds)).flatMap (Declaration.omissions path)

theorem toldFor_nil (options : ExtractOptions) (path : Path) (n : Nat) :
    toldFor options path n [] = [] := by
  rw [toldFor, List.take_nil]
  rfl

theorem toldFor_succ_cons (options : ExtractOptions) (path : Path) (n : Nat) (d : Declaration)
    (ds : List Declaration) :
    toldFor options path (n + 1) (d :: ds) = d.omissions path
      ++ toldFor options path (n + 1 - (d.symbols options path).length) ds := by
  rw [toldFor, needed, List.take_succ_cons, List.flatMap_cons]
  rfl

/-- The calls tell about the declarations that they have to look into, and about no others. Queued
symbols are handed out without looking any further. -/
theorem events_calls (n : Nat) (s : SymbolStream) :
    (s.calls n).events =
      toldFor s.options s.path (n - s.pending.length) s.traversal.remaining := by
  induction n generalizing s with
  | zero =>
    rw [Nat.zero_sub, toldFor, needed, List.take_zero]
    rfl
  | succ n ihn =>
    rw [events_calls_succ]
    -- The inner induction is over the declarations that the first call looks into; `ihn` is about
    -- the calls after it.
    fun_induction next s with
    | case1 s found rest hpending =>
      rw [hpending, List.length_cons, Nat.add_sub_add_right]
      exact ihn { s with pending := rest }
    | case2 s hpending t hnext =>
      obtain ⟨hnone, hrest⟩ := Traversal.remaining_of_next_eq_none hnext
      rw [hnone, toldFor_nil]
      show ((SymbolStream.mk t s.path s.options s.pending).calls n).events = []
      rw [ihn, hrest, toldFor_nil]
    | case3 s hpending f t hnext =>
      rw [Traversal.remaining_of_next_eq_some hnext, hpending]
      show ((SymbolStream.mk t s.path s.options []).calls n).events = _
      rw [ihn]
      exact (toldFor_succ_cons s.options s.path n (.functionDeclaration f) t.remaining).symm
    | case4 s hpending c t hnext queued later ih =>
      have hqueued : queued = _ := queueMethods_of_next_eq_some hpending hnext
      rw [Traversal.remaining_of_next_eq_some hnext, hpending]
      show (queued.events ++ later.events) ++ (later.value.2.calls n).events = _
      rw [List.append_assoc]
      show queued.events ++ (later.events ++ (later.value.2.calls n).events) = _
      rw [ih, hqueued]
      exact (toldFor_succ_cons s.options s.path n (.classDeclaration c) t.remaining).symm
    | case5 s hpending kind nameless line t hnext later ih =>
      rw [Traversal.remaining_of_next_eq_some hnext, hpending]
      show .declarationSkipped kind nameless s.path line ::
        (later.events ++ (later.value.2.calls n).events) = _
      rw [ih, hpending]
      exact (toldFor_succ_cons s.options s.path n (.malformed kind nameless line)
        t.remaining).symm

/-- A call without an answer has looked into all there is. -/
theorem traversal_next_of_none {s : SymbolStream} (h : s.next.value.1 = none) :
    s.next.value.2.traversal.remaining = [] := by
  fun_induction next s with
  | case1 s found rest hpending => cases h
  | case2 s hpending t hnext => exact (Traversal.remaining_of_next_eq_none hnext).2
  | case3 s hpending f t hnext => cases h
  | case4 s hpending c t hnext queued later ih => exact ih h
  | case5 s hpending kind nameless line t hnext later ih => exact ih h

/-- Taking symbols stops at the first call without one, and misses nothing by that: all other calls
would tell nothing. -/
theorem take_eq (n : Nat) (s : SymbolStream) :
    s.take n = ⟨s.remaining.take n, (s.calls n).events⟩ := by
  induction n generalizing s with
  | zero => rfl
  | succ n ih =>
    have hvalue := value_next s
    have hnone := traversal_next_of_none (s := s)
    rw [events_calls_succ, take]
    show Logged.andThen s.next _ = _
    rw [Logged.andThen]
    -- Only these two facts about the call matter from here on.
    generalize s.next = call at hvalue hnone ⊢
    obtain ⟨⟨answer, rest⟩, events⟩ := call
    cases answer with
    | none =>
      have hnil : s.remaining = [] := List.head?_eq_none_iff.mp hvalue.1.symm
      have hsilent : (rest.calls n).events = [] := by
        rw [events_calls, hnone rfl, toldFor_nil]
      show (⟨[], events ++ []⟩ : Logged (List Symbol)) = _
      rw [hnil, hsilent, List.take_nil]
    | some found =>
      have hcons : s.remaining = found :: rest.remaining := by
        obtain ⟨others, hothers⟩ := List.head?_eq_some_iff.mp hvalue.1.symm
        rw [hothers] at hvalue ⊢
        rw [hvalue.2]
        rfl
      show (⟨found :: (rest.take n).value, events ++ ((rest.take n).events ++ [])⟩ :
        Logged (List Symbol)) = _
      rw [ih, hcons, List.take_succ_cons, List.append_nil]

/-! ### The fewest declarations for a number of symbols -/

/-- The first `k` of the declarations are the fewest that give `n` symbols, or all of them if they
give fewer than that. -/
structure FewestFor (options : ExtractOptions) (path : Path) (n : Nat) (ds : List Declaration)
    (k : Nat) : Prop where
  enough : n ≤ ((ds.take k).flatMap (Declaration.symbols options path)).length ∨ k = ds.length
  least : ∀ j < k, ((ds.take j).flatMap (Declaration.symbols options path)).length < n

theorem fewestFor_needed (options : ExtractOptions) (path : Path) (n : Nat)
    (ds : List Declaration) : FewestFor options path n ds (needed options path n ds) := by
  fun_induction needed options path n ds with
  | case1 ds => exact ⟨.inl (Nat.zero_le _), fun j hj => absurd hj (Nat.not_lt_zero j)⟩
  | case2 n => exact ⟨.inr rfl, fun j hj => absurd hj (Nat.not_lt_zero j)⟩
  | case3 n d ds ih =>
    refine ⟨?_, fun j hj => ?_⟩
    · -- What `d` gives is taken off the number of symbols that the others have to give.
      rw [List.take_succ_cons, List.flatMap_cons, List.length_append, List.length_cons]
      rcases ih.enough with h | h
      · left
        omega
      · right
        rw [h]
    · cases j with
      | zero => simp
      | succ j =>
        have hleast := ih.least j (by omega)
        rw [List.take_succ_cons, List.flatMap_cons, List.length_append]
        omega

/-! ### A whole tree -/

theorem remaining_ofTree (t : SyntaxTree) (options : ExtractOptions) :
    (ofTree t options).remaining =
      t.declarations.flatMap (Declaration.symbols options t.path) := by
  show (Traversal.ofTree t).remaining.flatMap (Declaration.symbols options t.path) = _
  rw [Traversal.remaining_ofTree]

/-- **A stream refines extraction declaration by declaration**: the calls on a tree hand out what
its declarations give, in order, one by one and none after the last; and they tell what there is to
tell about the fewest declarations that give as many symbols as were asked for. -/
theorem calls_refine_declarations (t : SyntaxTree) (options : ExtractOptions) (n : Nat) :
    ((ofTree t options).calls n).value = (List.range n).map (fun i =>
        (t.declarations.flatMap (Declaration.symbols options t.path))[i]?) ∧
      ((ofTree t options).take n).value =
        (t.declarations.flatMap (Declaration.symbols options t.path)).take n ∧
      ((ofTree t options).take n).events = ((ofTree t options).calls n).events ∧
      ∃ k, FewestFor options t.path n t.declarations k ∧
        ((ofTree t options).calls n).events =
          (t.declarations.take k).flatMap (Declaration.omissions t.path) := by
  have hvalue := value_calls n (ofTree t options)
  rw [remaining_ofTree] at hvalue
  refine ⟨hvalue, ?_, ?_, needed options t.path n t.declarations,
    fewestFor_needed options t.path n t.declarations, ?_⟩
  · rw [take_eq, remaining_ofTree]
  · rw [take_eq]
  · rw [events_calls]
    show toldFor options t.path (n - 0) (Traversal.ofTree t).remaining = _
    rw [Traversal.remaining_ofTree, Nat.sub_zero, toldFor]

end SymbolStream

end SymbolIndex

import Aquila.Graph
import Aquila.Net

/-! Entry routes. A span has an entry exactly if the way up its parents ends at a root and passes a routed server. -/

namespace Aquila.Graph
open Ingest (Span)

/-! ### Ways up -/

/-- The ids that are met on the way from `id` up to a root. -/
inductive Line (t : Trace) : String → List String → Prop where
  | root : Line t "" []
  | link {id : String} {span : Span} {chain : List String} :
    t.get id = some span → Line t span.parentSpanID chain → Line t id (id :: chain)

/-- The ids that are met on the way from one id up to another, without it. -/
inductive Links (t : Trace) : String → List String → String → Prop where
  | refl (id : String) : Links t id [] id
  | link {id last : String} {span : Span} {chain : List String} :
    t.get id = some span → Links t span.parentSpanID chain last → Links t id (id :: chain) last

section
variable {t : Trace} {id last : String} {span : Span} {chain chain' : List String}

theorem Trace.get_eq_some_iff : t.get id = some span ↔ (id, span) ∈ t.spans := by
  constructor
  · intro h
    obtain ⟨p, found, rfl⟩ := Option.map_eq_some_iff.mp h
    obtain ⟨mem, rfl⟩ := Keyed.get_eq_some found
    exact mem
  · intro mem
    rw [get, find, Keyed.get_of_mem t.distinct mem]
    rfl

theorem Trace.mem_ids (h : t.get id = some span) : id ∈ t.ids := List.mem_map_of_mem (get_eq_some_iff.mp h)

theorem Trace.exists_get (h : id ∈ t.ids) : ∃ span, t.get id = some span := by
  obtain ⟨p, mem, rfl⟩ := List.mem_map.mp h
  exact ⟨p.2, get_eq_some_iff.mpr mem⟩

theorem Trace.length_le (nodup : chain.Nodup) (sub : ∀ x ∈ chain, x ∈ t.ids) : chain.length ≤ t.spans.length := by
  have short := (List.subperm_of_subset nodup sub).length_le
  rwa [ids, List.length_map] at short

theorem Trace.get_ne (h : t.get id = some span) : id ≠ "" := by
  rintro rfl
  exact t.named (mem_ids h)

theorem Trace.get_empty (t : Trace) : t.get "" = none := by
  by_contra some'
  obtain ⟨span, found⟩ := Option.ne_none_iff_exists'.mp some'
  exact get_ne found rfl

theorem Links.unique {last' : String} (h : Links t id chain last) (h' : Links t id chain' last')
    (out : t.get last = none)
    (out' : t.get last' = none) : chain = chain' := by
  induction h generalizing chain' with
  | refl id =>
    cases h' with
    | refl => rfl
    | link found _ => exact absurd (out.symm.trans found) nofun
  | link found _ ih =>
    cases h' with
    | refl => exact absurd (out'.symm.trans found) nofun
    | link found' up =>
      cases found.symm.trans found'
      rw [ih up out]

theorem Links.of_mem (h : Links t id chain last) {x : String} (hx : x ∈ chain) :
    ∃ below above, chain = below ++ x :: above ∧ Links t x (x :: above) last := by
  induction h with
  | refl id => cases hx
  | link found up ih =>
    rcases List.mem_cons.mp hx with rfl | hx
    · exact ⟨[], _, rfl, .link found up⟩
    · obtain ⟨below, above, rfl, rest⟩ := ih hx
      exact ⟨_ :: below, above, rfl, rest⟩

theorem Links.nodup (h : Links t id chain last) (out : t.get last = none) : chain.Nodup := by
  induction h with
  | refl id => exact List.nodup_nil
  | link found up ih =>
    refine List.nodup_cons.mpr ⟨fun again => ?_, ih out⟩
    obtain ⟨below, above, split, rest⟩ := up.of_mem again
    have same := congrArg List.length ((Links.link found up).unique rest out out)
    rw [split] at same
    simp at same
    omega

theorem Line.links (h : Line t id chain) : Links t id chain "" := by
  induction h with
  | root => exact .refl ""
  | link found _ ih => exact .link found ih

theorem Line.unique (h : Line t id chain) (h' : Line t id chain') : chain = chain' :=
  h.links.unique h'.links t.get_empty t.get_empty

theorem Links.snoc (h : Links t id chain last) (found : t.get last = some span) :
    Links t id (chain ++ [last]) span.parentSpanID := by
  induction h with
  | refl id => exact .link found (.refl _)
  | link found' _ ih => exact .link found' (ih found)

theorem Links.line (h : Links t id chain last) (up : Line t id chain') : ∃ above, chain' = chain ++ above ∧
    Line t last above := by
  induction h generalizing chain' with
  | refl id => exact ⟨chain', rfl, up⟩
  | link found _ ih =>
    cases up with
    | root => exact absurd rfl (Trace.get_ne found)
    | link found' up =>
      cases found.symm.trans found'
      obtain ⟨above, rfl, rest⟩ := ih up
      exact ⟨above, rfl, rest⟩

theorem Links.not_line_of_mem (h : Links t id chain last) (loop : last ∈ chain) : ¬Line t last chain' := by
  have back : ∃ again ≠ [], Links t last again last := by
    induction h with
    | refl id => cases loop
    | link found rest ih =>
      rcases List.mem_cons.mp loop with rfl | loop
      · exact ⟨_, List.cons_ne_nil _ _, .link found rest⟩
      · exact ih loop
  obtain ⟨again, ne, back⟩ := back
  intro up
  obtain ⟨above, split, up'⟩ := back.line up
  have same := up.unique up'
  rw [same] at split
  exact ne (List.self_eq_append_left.mp split)

theorem Links.subset (h : Links t id chain last) : ∀ x ∈ chain, x ∈ t.ids := by
  induction h with
  | refl id => simp
  | link found _ ih => exact List.forall_mem_cons.mpr ⟨Trace.mem_ids found, ih⟩

theorem Line.nodup (h : Line t id chain) : chain.Nodup := h.links.nodup t.get_empty

end

/-! ### The table -/

section
variable (lib : Lib) (traceID : String) (t : Trace)

/-- The entry that a span makes. -/
def entryAt (id : String) (span : Span) : EntryRoute :=
  { traceID, spanID := id, method := span.httpMethod, route := span.httpRoute }

/-- The entry of a way up: the routed server closest to the root. -/
def topEntry : List String → EntryRoute
  | [] => {}
  | id :: chain =>
    match t.get id with
    | some span => if (topEntry chain).spanID = "" && routedServer lib span then entryAt traceID id span
    else topEntry chain
    | none => topEntry chain

/-- What the ancestry of a span is. -/
def Right (id : String) (a : Ancestry) : Prop :=
  (∃ chain, Line t id chain ∧ a = { complete := true, entry := topEntry lib traceID t chain }) ∨
    (∀ chain, ¬Line t id chain) ∧ a = {}

/-- The invariant of the table: every entry in it is right. -/
structure Good (resolved : List (String × Ancestry)) : Prop where
  distinct : (resolved.map (·.1)).Nodup
  right : ∀ id a, find resolved id = some a → Right lib traceID t id a

variable {lib traceID t} {resolved : List (String × Ancestry)}

theorem walk_spec (good : Good lib traceID t resolved) {first : String} (fuel : Nat) {cursor : String}
    {chain : List String}
    (links : Links t first chain cursor) (nodup : chain.Nodup) (named : cursor ≠ "")
    (enough : t.spans.length < fuel + chain.length) :
    ∃ up last a, walk t resolved fuel cursor chain = some (chain ++ up, a) ∧ Links t cursor up last ∧
    Right lib traceID t last a ∧
      (t.get cursor = none ∨ cursor ∈ chain ∨ cursor ∈ up ∨ ∃ a, find resolved cursor = some a) := by
  induction fuel generalizing cursor chain with
  | zero =>
    have short := Trace.length_le nodup links.subset
    omega
  | succ fuel ih =>
    rw [walk]
    cases cached : find resolved cursor with
    | some a => exact ⟨[], cursor, a, by simp, .refl _, good.right cursor a cached, .inr (.inr (.inr ⟨a, rfl⟩))⟩
    | none =>
      cases found : t.get cursor with
      | none =>
        refine ⟨[], cursor, {}, by simp, .refl _, .inr ⟨fun above up => ?_, rfl⟩, .inl rfl⟩
        cases up with
        | root => exact named rfl
        | link found' _ => rw [found] at found'; cases found'
      | some span =>
        dsimp only
        split_ifs with seen root
        · exact ⟨[], cursor, {}, by simp, .refl _, .inr ⟨fun above => links.not_line_of_mem seen, rfl⟩,
            .inr (.inl seen)⟩
        · refine ⟨[cursor], span.parentSpanID, _, rfl, .link found (.refl _), .inl ⟨[], ?_, rfl⟩,
            .inr (.inr (.inl (by simp)))⟩
          rw [root]
          exact .root
        · have nodup' : (chain ++ [cursor]).Nodup := by
            rw [List.nodup_append]
            exact ⟨nodup, List.nodup_singleton _, by rintro x hx y hy rfl; exact seen (List.mem_singleton.mp hy ▸ hx)⟩
          obtain ⟨up, last, a, ran, rest, right, -⟩ :=
            ih (links.snoc found) nodup' root (by rw [List.length_append]; simp; omega)
          exact ⟨cursor :: up, last, a, by rw [ran]; simp, .link found rest, right, .inr (.inr (.inl (by simp)))⟩

theorem Right.settle {id : String} {span : Span} {a : Ancestry} (found : t.get id = some span)
    (right : Right lib traceID t span.parentSpanID a) :
    Right lib traceID t id (settle lib traceID t (a, resolved) id).1 := by
  rcases right with ⟨chain, up, rfl⟩ | ⟨none, rfl⟩
  · refine .inl ⟨id :: chain, .link found up, ?_⟩
    simp only [Graph.settle, topEntry, found, Bool.true_and, entryAt]
    split_ifs <;> rfl
  · refine .inr ⟨fun chain up => ?_, ?_⟩
    · cases up with
      | root => exact Trace.get_ne found rfl
      | link found' up =>
        cases found.symm.trans found'
        exact none _ up
    · simp [Graph.settle, found]

theorem find_put (id id' : String) (a : Ancestry) :
    find (Keyed.put (·.1) resolved (id, a)) id' = if id' = id then some a else find resolved id' := by
  have self : Keyed.get (·.1) (Keyed.put (·.1) resolved (id, a)) id = some (id, a) := Keyed.get_put_self
  split_ifs with same
  · rw [same, find, self]
    rfl
  · rw [find, Keyed.get_put_of_ne same, find]

theorem settle_run (good : Good lib traceID t resolved) {id last : String} {chain : List String} {a : Ancestry}
    (links : Links t id chain last) (right : Right lib traceID t last a) {known : Ancestry × List (String × Ancestry)}
    (ran : chain.reverse.foldl (settle lib traceID t) (a, resolved) = known) :
    Right lib traceID t id known.1 ∧ Good lib traceID t known.2 ∧
      ∀ x, x ∈ chain ∨ (find resolved x).isSome → (find known.2 x).isSome := by
  induction links generalizing known with
  | refl id =>
    cases ran
    exact ⟨right, good, fun x hx => hx.resolve_left List.not_mem_nil⟩
  | @link id last span chain found rest ih =>
    obtain ⟨right', good', filled⟩ := ih right rfl
    rw [List.reverse_cons, List.foldl_append, List.foldl_cons, List.foldl_nil] at ran
    have here : Right lib traceID t id known.1 := by
      rw [← ran]
      exact right'.settle found
    have table : known.2 = Keyed.put (·.1) (chain.reverse.foldl (settle lib traceID t) (a, resolved)).2 (id,
      known.1) := by
      rw [← ran]
      rfl
    refine ⟨here, ⟨table ▸ Keyed.nodup_put good'.distinct, fun x b hx => ?_⟩, fun x hx => ?_⟩
    · rw [table, find_put] at hx
      split_ifs at hx with same
      · cases hx
        exact same ▸ here
      · exact good'.right x b hx
    · rw [table, find_put]
      split_ifs with same
      · rfl
      · refine filled x (hx.imp_left fun mem => ?_)
        exact (List.mem_cons.mp mem).resolve_left same

theorem resolve_spec (good : Good lib traceID t resolved) {id : String} (mem : id ∈ t.ids) :
    ∃ resolved', resolve lib traceID t resolved id = some resolved' ∧ Good lib traceID t resolved' ∧
      ∀ x, x = id ∨ (find resolved x).isSome → (find resolved' x).isSome := by
  obtain ⟨span, found⟩ := Trace.exists_get mem
  obtain ⟨up, last, a, ran, links, right, met⟩ :=
    walk_spec good (t.spans.length + 1) (.refl id) List.nodup_nil (Trace.get_ne found) (by simp)
  obtain ⟨-, good', filled⟩ := settle_run good links right rfl
  refine ⟨_, by rw [resolve, ran]; rfl, good', ?_⟩
  rintro x (rfl | known)
  · rcases met with none | seen | mem | known
    · rw [found] at none
      cases none
    · cases seen
    · exact filled x (.inl mem)
    · exact filled x (.inr (Option.isSome_iff_exists.mpr known))
  · exact filled x (.inr known)

theorem resolve_run (good : Good lib traceID t resolved) {order : List String} (mem : ∀ id ∈ order, id ∈ t.ids) :
    ∃ resolved', order.foldlM (resolve lib traceID t) resolved = some resolved' ∧ Good lib traceID t resolved' ∧
      ∀ x, x ∈ order ∨ (find resolved x).isSome → (find resolved' x).isSome := by
  induction order generalizing resolved with
  | nil => exact ⟨resolved, rfl, good, fun x hx => hx.resolve_left List.not_mem_nil⟩
  | cons id order ih =>
    obtain ⟨head, tail⟩ := List.forall_mem_cons.mp mem
    obtain ⟨middle, first, good', filled⟩ := resolve_spec good head
    obtain ⟨resolved', rest, good'', filled'⟩ := ih good' tail
    refine ⟨resolved', ?_, good'', fun x hx => filled' x ?_⟩
    · rw [List.foldlM_cons, first]
      exact rest
    · rcases hx with hx | known
      · exact (List.mem_cons.mp hx).symm.imp_right fun same => filled x (.inl same)
      · exact .inr (filled x (.inr known))

/-! ### Entries -/

variable (lib traceID t) in
/-- The routed server of a way up that is closest to the root. -/
def ClosestToRoot (chain : List String) (e : EntryRoute) : Prop :=
  ∃ below id above span, chain = below ++ id :: above ∧ t.get id = some span ∧ routedServer lib span = true ∧
    (∀ x ∈ above, ∀ span, t.get x = some span → routedServer lib span = false) ∧ e = entryAt traceID id span

theorem topEntry_empty_iff {chain : List String} : (topEntry lib traceID t chain).spanID = "" ↔
    ∀ x ∈ chain, ∀ span, t.get x = some span → routedServer lib span = false := by
  induction chain with
  | nil => simp [topEntry]
  | cons id chain ih =>
    rw [topEntry, List.forall_mem_cons, ← ih]
    cases found : t.get id with
    | none => simp
    | some span =>
      have named := Trace.get_ne found
      by_cases empty : (topEntry lib traceID t chain).spanID = ""
      · cases routed : routedServer lib span <;> simp [empty, routed, entryAt, named]
      · simp [empty]

theorem closestToRoot_iff {chain : List String} {e : EntryRoute} : ClosestToRoot lib traceID t chain e ↔
    topEntry lib traceID t chain = e ∧ e.spanID ≠ "" := by
  induction chain with
  | nil =>
    constructor
    · rintro ⟨below, id, above, span, split, -⟩
      simp at split
    · rintro ⟨rfl, named⟩
      exact absurd rfl named
  | cons x chain ih =>
    have skip : ClosestToRoot lib traceID t chain e → ClosestToRoot lib traceID t (x :: chain) e := by
      rintro ⟨below, id, above, span, rfl, rest⟩
      exact ⟨x :: below, id, above, span, rfl, rest⟩
    constructor
    · rintro ⟨below, id, above, span, split, found, routed, clear, rfl⟩
      refine ⟨?_, Trace.get_ne found⟩
      cases below with
      | nil =>
        obtain ⟨rfl, rfl⟩ := List.cons.inj split
        rw [topEntry, found]
        simp [topEntry_empty_iff.mpr clear, routed]
      | cons y below =>
        obtain ⟨rfl, rfl⟩ := List.cons.inj split
        obtain ⟨top, named⟩ := ih.mp ⟨below, id, above, span, rfl, found, routed, clear, rfl⟩
        rw [topEntry, top]
        cases t.get x <;> simp [named]
    · rintro ⟨top, named⟩
      rw [topEntry] at top
      cases found : t.get x with
      | none =>
        rw [found] at top
        exact skip (ih.mpr ⟨top, named⟩)
      | some span =>
        rw [found] at top
        dsimp only at top
        split_ifs at top with here
        · rw [Bool.and_eq_true, decide_eq_true_eq] at here
          exact ⟨[], x, chain, span, rfl, found, here.2, topEntry_empty_iff.mp here.1, top.symm⟩
        · exact skip (ih.mpr ⟨top, named⟩)

theorem find_filterMap {m : List (String × Ancestry)} (distinct : (m.map (·.1)).Nodup)
    (f : Ancestry → Option EntryRoute) (id : String) :
    find (m.filterMap fun p => (f p.2).map fun e => (p.1, e)) id = (find m id).bind f := by
  induction m with
  | nil => rfl
  | cons p m ih =>
    rw [List.map_cons, List.nodup_cons] at distinct
    have later := ih distinct.2
    by_cases same : p.1 = id
    · have gone : find m id = none := by
        rw [find, Keyed.get_eq_none_iff.mpr (same ▸ distinct.1)]
        rfl
      rw [gone] at later
      cases kept : f p.2 with
      | none => simp_all [find, Keyed.get]
      | some e => simp [find, Keyed.get, kept, same]
    · cases kept : f p.2 with
      | none => simp_all [find, Keyed.get]
      | some e => simp_all [find, Keyed.get]

end

/-- The entries of a trace are exact, in whatever order its spans are visited. -/
theorem traceEntries_exact (lib : Lib) (traceID : String) (t : Trace) (order : List String) (perm : order.Perm t.ids) :
    ∃ entries, traceEntries lib traceID t order = some entries ∧ ∀ s e, find entries s = some e ↔
      ∃ chain, Line t s chain ∧ chain.Nodup ∧ ClosestToRoot lib traceID t chain e := by
  have start : Good lib traceID t [] := ⟨by simp, by simp [find, Keyed.get]⟩
  obtain ⟨resolved, ran, good, filled⟩ := resolve_run start fun id (mem : id ∈ order) => perm.mem_iff.mp mem
  let listed : Ancestry → Option EntryRoute := fun a => if a.complete && a.entry.spanID ≠ "" then some a.entry else none
  refine ⟨resolved.filterMap fun p => (listed p.2).map fun e => (p.1, e), ?_, fun s e => ?_⟩
  · rw [traceEntries, ran, Option.map_some]
    refine congrArg some (List.filterMap_congr fun p _ => ?_)
    dsimp only [listed]
    split_ifs <;> rfl
  · rw [find_filterMap good.distinct, Option.bind_eq_some_iff]
    constructor
    · rintro ⟨a, found, kept⟩
      dsimp only [listed] at kept
      split_ifs at kept with complete
      cases kept
      rcases good.right s a found with ⟨chain, up, rfl⟩ | ⟨-, rfl⟩
      · exact ⟨chain, up, up.nodup, closestToRoot_iff.mpr ⟨rfl, by simpa using complete⟩⟩
      · simp at complete
    · rintro ⟨chain, up, -, closest⟩
      obtain ⟨top, named⟩ := closestToRoot_iff.mp closest
      have mem : s ∈ order := by
        cases up with
        | root => exact absurd (top ▸ rfl) named
        | link found _ => exact perm.mem_iff.mpr (Trace.mem_ids found)
      obtain ⟨a, found⟩ := Option.isSome_iff_exists.mp (filled s (.inl mem))
      refine ⟨a, found, ?_⟩
      rcases good.right s a found with ⟨chain', up', rfl⟩ | ⟨none, -⟩
      · rw [up'.unique up, top]
        simp [listed, named]
      · exact absurd up (none chain)

/-! ### The spans of entries -/

theorem mem_entriesOf {lib : Lib} {traceID id : String} {t : Trace} {e : EntryRoute}
    (h : (id, e) ∈ entriesOf lib traceID t) :
    ∃ x span, t.get x = some span ∧ e = entryAt traceID x span := by
  have start : Good lib traceID t [] := ⟨by simp, by simp [find, Keyed.get]⟩
  obtain ⟨resolved, ran, good, _⟩ := resolve_run start fun id (mem : id ∈ t.ids) => mem
  rw [entriesOf, traceEntries, ran, Option.map_some, Option.getD_some] at h
  obtain ⟨⟨x, a⟩, listed, kept⟩ := List.mem_filterMap.mp h
  dsimp only at kept
  split_ifs at kept with complete
  obtain ⟨rfl, rfl⟩ := Prod.mk.inj (Option.some.inj kept)
  have found : find resolved x = some a := by rw [find, Keyed.get_of_mem good.distinct listed]; rfl
  rcases good.right x a found with ⟨chain, _, rfl⟩ | ⟨_, rfl⟩
  · obtain ⟨_, y, _, span, _, here, _, _, entry⟩ := closestToRoot_iff.mpr ⟨rfl, by simpa using complete⟩
    exact ⟨y, span, here, entry⟩
  · simp at complete

theorem mem_of_mem_group {spans : List Span} : ∀ p ∈ group spans, ∀ q ∈ p.2.spans, q.2 ∈ spans := by
  unfold group
  induction spans using List.reverseRecOn with
  | nil => simp
  | append_singleton spans s ih =>
    rw [List.foldl_append, List.foldl_cons, List.foldl_nil]
    generalize spans.foldl _ [] = traces at ih ⊢
    intro p hp q hq
    split_ifs at hp with named
    · exact List.mem_append_left _ (ih p hp q hq)
    · rcases Keyed.mem_or_eq_of_mem_put hp with old | rfl
      · exact List.mem_append_left _ (ih p old q hq)
      · rcases Keyed.mem_or_eq_of_mem_put hq with old | rfl
        · cases known : find traces s.traceID with
          | none => rw [known] at old; exact absurd old List.not_mem_nil
          | some t =>
            rw [known, Option.getD_some] at old
            obtain ⟨pair, found, rfl⟩ := Option.map_eq_some_iff.mp known
            exact List.mem_append_left _ (ih pair (Keyed.get_eq_some found).1 q old)
        · exact List.mem_append_right _ (List.mem_singleton_self s)

theorem span_of_entryForSpan {lib : Lib} {spans : List Span} {traceID spanID : String} {e : EntryRoute}
    (h : (build lib spans).entryForSpan traceID spanID = some e) : ∃ s ∈ spans, e.method = s.httpMethod ∧
    e.route = s.httpRoute := by
  obtain ⟨pair, found, rfl⟩ := Option.map_eq_some_iff.mp h
  obtain ⟨⟨id, t⟩, listed, hpair⟩ := List.mem_flatMap.mp (Keyed.get_eq_some found).1
  obtain ⟨⟨x, e⟩, hentry, rfl⟩ := List.mem_map.mp hpair
  obtain ⟨y, span, got, rfl⟩ := mem_entriesOf hentry
  exact ⟨span, mem_of_mem_group _ listed _ (Trace.get_eq_some_iff.mp got), rfl, rfl⟩

namespace Sample

def trace : Trace where
  spans := [("b", { parentSpanID := "a", kind := "client" }),
    ("a", { kind := "Server", httpMethod := "GET", httpRoute := "/pay" }),
    ("c", { parentSpanID := "x", kind := "server", httpMethod := "GET", httpRoute := "/lost" }),
    ("d", { parentSpanID := "e", kind := "server", httpMethod := "GET", httpRoute := "/loop" }),
      ("e", { parentSpanID := "d" })]
  distinct := by decide
  named := by decide

end Sample

theorem traceEntries_exact_sample : ["d", "c", "b", "a", "e"].Perm Sample.trace.ids ∧
    ∃ entries, traceEntries Lib.plain "t" Sample.trace ["d", "c", "b", "a", "e"] = some entries ∧
    ∀ s e, find entries s = some e ↔
      ∃ chain, Line Sample.trace s chain ∧ chain.Nodup ∧ ClosestToRoot Lib.plain "t" Sample.trace chain e :=
  ⟨by decide, traceEntries_exact Lib.plain "t" Sample.trace ["d", "c", "b", "a", "e"] (by decide)⟩

example : traceEntries Lib.plain "t" Sample.trace ["d", "c", "b", "a", "e"] =
    some [("a", ⟨"t", "a", "GET", "/pay"⟩), ("b", ⟨"t", "a", "GET", "/pay"⟩)] := by decide +kernel

end Aquila.Graph

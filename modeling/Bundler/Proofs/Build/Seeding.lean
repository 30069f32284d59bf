import Bundler.Proofs.Build.Closed
import Bundler.Proofs.Build.Repeat

/-!
# Entries

What becomes of an entry depends on where its specifier leads: to a module inside, or to an error.
-/

namespace Bundler

namespace Resolution

/-- The module of an entry. -/
def entryId? (r : Resolution) : Option ModuleId :=
  match r.outcome with
  | .ok t => if t.external then none else some t.id
  | .error _ => none

/-- The error of an entry. -/
def entryError? (root : Path) (specifier : String) (r : Resolution) : Option BuildError :=
  match r.outcome with
  | .ok t =>
    if t.external then some (.resolve root.text specifier "entry cannot be external") else none
  | .error e => some e.toBuildError

theorem Tells.entry {r told : Resolution} (h : r.Tells told) (root : Path) (specifier : String) :
    told.entryId? = r.entryId? ∧
      Option.Rel BuildError.Tells (r.entryError? root specifier) (told.entryError? root specifier) := by
  rcases h with rfl | ⟨e, he, rfl⟩
  · refine ⟨rfl, ?_⟩
    cases told.entryError? root specifier with
    | none => exact .none
    | some e => exact .some (.refl e)
  · unfold entryId? entryError?
    rw [he]
    exact ⟨rfl, .some (.inr ⟨_, _, _, rfl, rfl⟩)⟩

theorem entryId?_eq_none {r : Resolution} {root : Path} {specifier : String} {e : BuildError}
    (h : r.entryError? root specifier = some e) : r.entryId? = none := by
  obtain ⟨outcome, hookError⟩ := r
  cases outcome with
  | error e => rfl
  | ok t =>
    by_cases hx : t.external = true
    · exact if_pos hx
    · exact nomatch (if_neg hx).symm.trans h

end Resolution

namespace Pass

/-! ## Seeding -/

section
variable (p : Pass) (root : Path) (c : Bool)

theorem get?_entries_seed (name specifier : String) (r : Resolution) (n : String) :
    (p.seed root c name specifier r).graph.entries.get? n =
        (if n = name then r.entryId? else p.graph.entries.get? n) ∧
      (p.seed root c name specifier r).graph.entryErrors.get? n =
        if n = name then r.entryError? root specifier else p.graph.entryErrors.get? n := by
  have herror : ∀ e, (p.graph.setEntryError name e).entries.get? n =
        (if n = name then none else p.graph.entries.get? n) ∧
      (p.graph.setEntryError name e).entryErrors.get? n =
        if n = name then some e else p.graph.entryErrors.get? n :=
    fun e => ⟨Table.get?_erase .., Table.get?_insert ..⟩
  obtain ⟨outcome, hookError⟩ := r
  cases outcome with
  | error e => exact herror _
  | ok t =>
    unfold Pass.seed Resolution.entryId? Resolution.entryError?
    dsimp only
    by_cases hx : t.external = true
    · rw [if_pos hx, if_pos hx, if_pos hx]
      exact herror _
    · rw [if_neg hx, if_neg hx, if_neg hx]
      obtain ⟨h1, h2⟩ := entries_enqueue { p with graph := p.graph.setEntry name t.id } c t.id
      rw [h1, h2]
      exact ⟨Table.get?_insert .., Table.get?_erase ..⟩

theorem get?_entries_seeds {rs : List ((String × String) × Resolution)}
    (hn : (rs.map (·.1.1)).Nodup) (n : String) :
    (∀ e ∈ rs, e.1.1 = n →
      (rs.foldl (fun p e => p.seed root c e.1.1 e.1.2 e.2) p).graph.entries.get? n =
          e.2.entryId? ∧
        (rs.foldl (fun p e => p.seed root c e.1.1 e.1.2 e.2) p).graph.entryErrors.get? n =
          e.2.entryError? root e.1.2) ∧
    (n ∉ rs.map (·.1.1) →
      (rs.foldl (fun p e => p.seed root c e.1.1 e.1.2 e.2) p).graph.entries.get? n =
          p.graph.entries.get? n ∧
        (rs.foldl (fun p e => p.seed root c e.1.1 e.1.2 e.2) p).graph.entryErrors.get? n =
          p.graph.entryErrors.get? n) := by
  induction rs generalizing p with
  | nil => exact ⟨fun _ h => (nomatch h), fun _ => ⟨rfl, rfl⟩⟩
  | cons x rs ih =>
    rw [List.map_cons, List.nodup_cons] at hn
    obtain ⟨i1, i2⟩ := ih (p.seed root c x.1.1 x.1.2 x.2) hn.2
    obtain ⟨h1, h2⟩ := p.get?_entries_seed root c x.1.1 x.1.2 x.2 n
    refine ⟨fun e he hen => ?_, fun hnot => ?_⟩
    · rcases List.mem_cons.mp he with rfl | he
      · obtain ⟨j1, j2⟩ := i2 (hen ▸ hn.1)
        rw [if_pos hen.symm] at h1 h2
        exact ⟨j1.trans h1, j2.trans h2⟩
      · exact i1 e he hen
    · rw [List.map_cons, List.mem_cons, not_or] at hnot
      obtain ⟨j1, j2⟩ := i2 hnot.2
      rw [if_neg hnot.1] at h1 h2
      exact ⟨j1.trans h1, j2.trans h2⟩

/-- Takes in resolved entries, one after the other. -/
def sow (rs : List ((String × String) × Resolution)) : Pass :=
  rs.foldl (fun p e => p.seed root false e.1.1 e.1.2 e.2) p

theorem get?_entries_sow {rs : List ((String × String) × Resolution)}
    (hn : (rs.map (·.1.1)).Nodup) (n : String) :
    (∀ e ∈ rs, e.1.1 = n → (p.sow root rs).graph.entries.get? n = e.2.entryId? ∧
      (p.sow root rs).graph.entryErrors.get? n = e.2.entryError? root e.1.2) ∧
    (n ∉ rs.map (·.1.1) → (p.sow root rs).graph.entries.get? n = p.graph.entries.get? n ∧
      (p.sow root rs).graph.entryErrors.get? n = p.graph.entryErrors.get? n) :=
  p.get?_entries_seeds root false hn n

end

end Pass

/-! ## Entries that are up to date -/

/-- The specifier of an entry as it is resolved, and where it leads. -/
def Project.entry (p : Project) (w : World) (limit : Option Nat) (specifier : String) :
    String × Resolution :=
  let s := Pass.entrySpecifier w.files p.resolver.root specifier
  (s, p.resolver.ideal w limit s none p.resolver.root)

/-- An entry stands in a graph as its specifier leads. -/
structure ModuleGraph.Seats (p : Project) (w : World) (limit : Option Nat) (g : ModuleGraph)
    (name specifier : String) : Prop where
  entry : g.entries.get? name = (p.entry w limit specifier).2.entryId?
  error : Option.Rel BuildError.Tells
    ((p.entry w limit specifier).2.entryError? p.resolver.root (p.entry w limit specifier).1)
    (g.entryErrors.get? name)
  loaded : ∀ id, g.entries.get? name = some id → ∃ m, g.get? id = some m ∧ m.isLazy = false

theorem ModuleGraph.Seats.markStale {p : Project} {w : World} {limit : Option Nat}
    {g : ModuleGraph} {name specifier : String} (h : g.Seats p w limit name specifier)
    (files : FileTree) (path : Path) :
    (g.markStale files path).1.Seats p w limit name specifier where
  entry := by rw [entries_markStale]; exact h.entry
  error := by rw [entryErrors_markStale]; exact h.error
  loaded id hid := by
    rw [entries_markStale] at hid
    exact (g.sameBare_markStale files path).loaded (h.loaded id hid)

/-- A graph that is up to date, with its entries. -/
structure ModuleGraph.Current (p : Project) (w : World) (limit : Option Nat)
    (eager : List ModuleId) (entries : Table String String) (g : ModuleGraph) : Prop where
  mirrors : g.Mirrors p w limit eager []
  seats : ∀ name specifier, entries.get? name = some specifier → g.Seats p w limit name specifier
  others : ∀ name, entries.get? name = none →
    g.entries.get? name = none ∧ g.entryErrors.get? name = none

namespace ModuleGraph.Current

variable {p : Project} {w : World} {limit : Option Nat} {eager : List ModuleId}
  {entries : Table String String} {g h : ModuleGraph}

theorem settle_prune (hg : g.Current p w limit eager entries) :
    g.prune.1.settle.Current p w limit eager entries := by
  refine ⟨hg.mirrors.settle_prune, fun name specifier hn => ?_, fun name hn => ?_⟩
  · have hs := hg.seats name specifier hn
    refine ⟨?_, ?_, fun id hid => ?_⟩
    · rw [entries_settle, entries_prune]
      exact hs.entry
    · rw [entryErrors_settle, entryErrors_prune]
      exact hs.error
    · rw [entries_settle, entries_prune] at hid
      obtain ⟨m, hget, hl⟩ := hs.loaded id hid
      refine ⟨m.settled, ?_, by rw [Module.settled_isLazy, hl]⟩
      rw [get?_settle, get?_prune_of_reached (.entry hid), hget]
      rfl
  · rw [entries_settle, entries_prune, entryErrors_settle, entryErrors_prune]
    exact hg.others name hn

end ModuleGraph.Current

namespace Pass

variable {project : Project} {w : World} {limit : Option Nat} {D : Path → Prop}

/-- What an operation seeds its pass with: each entry, and what its resolution told. -/
structure Sowing (project : Project) (w : World) (limit : Option Nat)
    (entries : Table String String) (rs : List ((String × String) × Resolution)) : Prop where
  names : rs.map (·.1.1) = entries.keys
  tells : ∀ e ∈ rs, ∃ specifier, entries.get? e.1.1 = some specifier ∧
    e.1.2 = (project.entry w limit specifier).1 ∧ (project.entry w limit specifier).2.Tells e.2

theorem seedEntries_sowing (hw : w.Answers) (hroot : D project.resolver.root) {i : Inquiries}
    (hi : i.Steady limit D ⟨w.files, project.resolver.extensions⟩) (p : Pass)
    (entries : Table String String) :
    ∃ rs j, Sowing project w limit entries rs ∧
      p.seedEntries project w i entries = (j, .ok (p.sow project.resolver.root rs)) ∧
      j.Steady limit D ⟨w.files, project.resolver.extensions⟩ := by
  unfold seedEntries
  dsimp only
  obtain ⟨h1, rs, ho, h2, h3⟩ :=
    @Resolver.resolveTogether_tells _ _ _ _ _ (fun e : String × String => e.2) none _ hw hroot
      (entries.toList.map fun e => (e.1, entrySpecifier w.files project.resolver.root e.2)) _ hi
  refine ⟨rs, _, ⟨?_, fun e he => ?_⟩, ?_, h1⟩
  · have h3 := congrArg (List.map (·.1)) h3
    rw [List.map_map, List.map_map] at h3
    exact h3
  · have hmem : e.1 ∈ entries.toList.map fun e =>
        (e.1, entrySpecifier w.files project.resolver.root e.2) := h3 ▸ List.mem_map_of_mem he
    obtain ⟨x, hx, hxe⟩ := List.mem_map.mp hmem
    refine ⟨x.2, ?_, ?_, ?_⟩
    · rw [← hxe]
      exact Table.mem_toList.mp hx
    · rw [← hxe]
      rfl
    · have ht := h2 e he
      rw [← hxe] at ht
      exact ht
  · rw [ho, h1.bridge.cancelled]
    rfl

/-! ## Whole passes -/

/-- The pass that an operation starts with. -/
def start (project : Project) (g : ModuleGraph) (eager : List ModuleId) (seeds : Seeds) : Pass :=
  seeds.reprocessed.foldl (fun p id => p.reprocess false id)
    (sow { graph := g, eager } project.resolver.root seeds.entries)

theorem begins_start (project : Project) (w : World) (limit : Option Nat) (g : ModuleGraph)
    (eager : List ModuleId) (seeds : Seeds) :
    Begins (project.rules w limit) project.resolver.root seeds { graph := g, eager }
      (start project g eager seeds) := by
  have hfalse : (project.rules w limit).seen false := rfl
  exact .intro (.foldl hfalse _ _) (.foldl hfalse _ _)

theorem entries_start (project : Project) (g : ModuleGraph) (eager : List ModuleId)
    (seeds : Seeds) :
    (start project g eager seeds).graph.entries =
        (sow { graph := g, eager } project.resolver.root seeds.entries).graph.entries ∧
      (start project g eager seeds).graph.entryErrors =
        (sow { graph := g, eager } project.resolver.root seeds.entries).graph.entryErrors := by
  unfold start
  generalize sow _ _ _ = p
  induction seeds.reprocessed generalizing p with
  | nil => exact ⟨rfl, rfl⟩
  | cons id ids ih =>
    obtain ⟨h1, h2⟩ := ih (p.reprocess false id)
    obtain ⟨h3, h4⟩ := entries_reprocess p false id
    exact ⟨h1.trans h3, h2.trans h4⟩

/-- How a pass that ran to its end stands to its plan. -/
structure Ends (project : Project) (w : World) (limit : Option Nat) (g : ModuleGraph)
    (eager : List ModuleId) (seeds : Seeds) (q : Pass) : Prop where
  runs : Runs (project.rules w limit) (start project g eager seeds) q
  advanced : q.Advanced (project.plan w limit g eager seeds) (project.rules w limit).output []
  sown : q.Sown (project.plan w limit g eager seeds)
  rest : q.outstanding = []

variable {g : ModuleGraph} {eager : List ModuleId} {seeds : Seeds}

theorem dir_of_outstanding_start
    (hn : ∀ id, (project.plan w limit g eager seeds).Needed id → D id.dir) :
    ∀ id ∈ (start project g eager seeds).outstanding, D id.dir := fun id hid => by
  have hb : (project.plan w limit g eager seeds).Binds (project.rules w limit) :=
    Project.plan_binds g eager seeds
  have ha := (Begun.begins hb (begins_start project w limit g eager seeds)).1.toAdvanced
  exact hn id (ha.needed id (ha.started id hid))

theorem ends_of_run (hw : w.Answers) (hc : project.Closed w limit D)
    (hn : ∀ id, (project.plan w limit g eager seeds).Needed id → D id.dir) {i j : Inquiries}
    (hi : i.Steady limit D ⟨w.files, project.resolver.extensions⟩) {fuel : Nat} {q : Pass}
    (h : (start project g eager seeds).run project w fuel i = some (q, j)) :
    Ends project w limit g eager seeds q ∧
      j.Steady limit D ⟨w.files, project.resolver.extensions⟩ := by
  have hb : (project.plan w limit g eager seeds).Binds (project.rules w limit) :=
    Project.plan_binds g eager seeds
  have hstart := begins_start project w limit g eager seeds
  obtain ⟨hbegun, hsown⟩ := Begun.begins hb hstart
  obtain ⟨hruns, hrest, hj⟩ := run_runs (Project.discipline hw hc) h hi hbegun.toTidy
    (dir_of_outstanding_start hn)
  exact ⟨⟨hruns, hbegun.toAdvanced.runs hb hruns, hsown.runs hruns, hrest⟩, hj⟩

theorem run_start_rests (hw : w.Answers) (hc : project.Closed w limit D)
    (hn : ∀ id, (project.plan w limit g eager seeds).Needed id → D id.dir)
    {ids : List ModuleId} (hids : ∀ id, (project.plan w limit g eager seeds).Needed id → id ∈ ids)
    {i : Inquiries} (hi : i.Steady limit D ⟨w.files, project.resolver.extensions⟩) :
    ∃ N, ∀ fuel ≥ N, ∃ res, (start project g eager seeds).run project w fuel i = some res := by
  have hb : (project.plan w limit g eager seeds).Binds (project.rules w limit) :=
    Project.plan_binds g eager seeds
  have hstart := begins_start project w limit g eager seeds
  exact run_rests hw hc hb hids (Begun.begins hb hstart).1.toAdvanced (Counted.begins hb hstart)
    (dir_of_outstanding_start hn) hi

namespace Ends

variable {q : Pass}

theorem entries_eq (h : Ends project w limit g eager seeds q) (hn : (seeds.entries.map (·.1.1)).Nodup)
    (n : String) :
    (∀ e ∈ seeds.entries, e.1.1 = n → q.graph.entries.get? n = e.2.entryId? ∧
      q.graph.entryErrors.get? n = e.2.entryError? project.resolver.root e.1.2) ∧
    (n ∉ seeds.entries.map (·.1.1) → q.graph.entries.get? n = g.entries.get? n ∧
      q.graph.entryErrors.get? n = g.entryErrors.get? n) := by
  obtain ⟨h1, h2⟩ := h.runs.entries_eq
  obtain ⟨h3, h4⟩ := entries_start project g eager seeds
  rw [h1, h2, h3, h4]
  exact get?_entries_sow { graph := g, eager } project.resolver.root hn n

theorem loaded_of_sown (h : Ends project w limit g eager seeds q)
    {e : (String × String) × Resolution} (he : e ∈ seeds.entries) {id : ModuleId}
    (hid : e.2.entryId? = some id) : ∃ m, q.graph.get? id = some m ∧ m.isLazy = false := by
  refine h.advanced.loaded h.rest ?_
  unfold Resolution.entryId? at hid
  cases ho : e.2.outcome with
  | error err =>
    rw [ho] at hid
    cases hid
  | ok t =>
    rw [ho] at hid
    by_cases hx : t.external = true
    · exact nomatch (if_pos hx).symm.trans hid
    obtain rfl : t.id = id := Option.some.inj ((if_neg hx).symm.trans hid)
    -- The seed has a task, unless its module is loaded already.
    refine (h.sown.entries e he t ho (eq_false_of_ne_true hx)).imp_right fun hno => ?_
    by_contra hnl
    refine hno fun m hm => ?_
    by_contra hl
    exact hnl ⟨m, hm, eq_false_of_ne_true hl⟩

theorem seats (h : Ends project w limit g eager seeds q) {entries : Table String String}
    (hs : Sowing project w limit entries seeds.entries) {name specifier : String}
    (hsame : entries.get? name = none → g.Seats project w limit name specifier)
    (hname : ∀ s, entries.get? name = some s → s = specifier) :
    q.graph.Seats project w limit name specifier := by
  have hnodup : (seeds.entries.map (·.1.1)).Nodup := hs.names ▸ entries.keys_nodup
  obtain ⟨hin, hout⟩ := h.entries_eq hnodup name
  cases he : entries.get? name with
  | some s =>
    have hmem : name ∈ seeds.entries.map (·.1.1) := by
      rw [hs.names]
      exact Table.mem_keys.mpr (Table.contains_iff.mpr ⟨s, he⟩)
    obtain ⟨e, hmem, hen⟩ := List.mem_map.mp hmem
    have hen : e.1.1 = name := hen
    obtain ⟨s', hs', hspec, htells⟩ := hs.tells e hmem
    obtain rfl := hname s' (hen ▸ hs')
    obtain ⟨h1, h2⟩ := hin e hmem hen
    obtain ⟨t1, t2⟩ := htells.entry project.resolver.root e.1.2
    exact ⟨h1.trans t1, by rw [h2, ← hspec]; exact t2, fun id hid => h.loaded_of_sown hmem (h1 ▸ hid)⟩
  | none =>
    have hnot : name ∉ seeds.entries.map (·.1.1) := by
      rw [hs.names, Table.mem_keys, Table.contains_iff]
      rintro ⟨s, hs⟩
      exact nomatch he.symm.trans hs
    obtain ⟨h1, h2⟩ := hout hnot
    have hseat := hsame he
    refine ⟨h1.trans hseat.entry, by rw [h2]; exact hseat.error, fun id hid => ?_⟩
    exact h.advanced.loaded h.rest (.inr (hseat.loaded id (h1 ▸ hid)))

/-- A pass brings the entries up to date that it sows, and keeps the others so. -/
theorem current (h : Ends project w limit g eager seeds q) {sown entries : Table String String}
    (hs : Sowing project w limit sown seeds.entries) (hm : q.graph.Mirrors project w limit eager [])
    (hsub : ∀ name s, sown.get? name = some s → entries.get? name = some s)
    (hseats : ∀ name s, entries.get? name = some s → sown.get? name = none →
      g.Seats project w limit name s)
    (hothers : ∀ name, entries.get? name = none →
      g.entries.get? name = none ∧ g.entryErrors.get? name = none) :
    q.graph.Current project w limit eager entries := by
  refine ⟨hm, fun name specifier hn => ?_, fun name hn => ?_⟩
  · exact h.seats hs (hseats name specifier hn) fun s hx =>
      Option.some.inj ((hsub name s hx).symm.trans hn)
  · have hnot : name ∉ seeds.entries.map (·.1.1) := by
      rw [hs.names, Table.mem_keys, Table.contains_iff]
      rintro ⟨s, hx⟩
      exact nomatch hn.symm.trans (hsub name s hx)
    obtain ⟨h1, h2⟩ := (h.entries_eq (hs.names ▸ sown.keys_nodup) name).2 hnot
    rw [h1, h2]
    exact hothers name hn

end Ends

end Pass

end Bundler

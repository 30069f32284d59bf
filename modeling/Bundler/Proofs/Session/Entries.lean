import Bundler.Proofs.Build.Notice
import Bundler.Proofs.Chunk.Members
import Bundler.Proofs.Session.Repeat

/-!
# Entries and their chunks

Over any history of requests, in whatever worlds they are made, the entry chunks of a result are
chunks of its entries, with their names and modules. All entries have one when the chunks were
formed anew. A rebuild that forms none hands the entry chunks on, so an entry that it resolves has
no chunk.
-/

namespace Bundler

/-! ## The entry chunks of a partition -/

/-- The entry chunks among some, by name, with the modules that they start from. -/
def entryChunks (cs : List Chunk) : List (String × Option ModuleId) :=
  (cs.filter (·.kind = .entry)).map fun c => (c.name, c.entry)

/-- The entries of a graph, as their chunks show them. -/
def entryPairs (entries : Table String ModuleId) : List (String × Option ModuleId) :=
  entries.toList.map fun e => (e.1, some e.2)

theorem mem_entryPairs {entries : Table String ModuleId} {e : String × Option ModuleId} :
    e ∈ entryPairs entries ↔ ∃ id, e.2 = some id ∧ entries.get? e.1 = some id := by
  unfold entryPairs
  rw [List.mem_map]
  constructor
  · rintro ⟨x, hx, rfl⟩
    exact ⟨x.2, rfl, Table.mem_toList.mp hx⟩
  · rintro ⟨id, he, hget⟩
    have hmem : (e.1, id) ∈ entries.toList := Table.mem_toList.mpr hget
    exact ⟨(e.1, id), hmem, Prod.ext rfl he.symm⟩

namespace Partition

theorem entryChunks_append (cs cs' : List Chunk) :
    entryChunks (cs ++ cs') = entryChunks cs ++ entryChunks cs' := by
  unfold entryChunks
  rw [List.filter_append, List.map_append]

theorem entryChunks_map {f : Chunk → Chunk}
    (hf : ∀ c, (f c).kind = c.kind ∧ (f c).name = c.name ∧ (f c).entry = c.entry)
    (cs : List Chunk) : entryChunks (cs.map f) = entryChunks cs := by
  unfold entryChunks
  rw [List.filter_map, List.map_map]
  have hkind : ((fun c : Chunk => decide (c.kind = .entry)) ∘ f) = fun c => decide (c.kind = .entry) :=
    funext fun c => congrArg (fun k => decide (k = ChunkKind.entry)) (hf c).1
  rw [hkind]
  exact List.map_congr_left fun c _ => Prod.ext (hf c).2.1 (hf c).2.2

theorem entryChunks_regroup (group : CacheGroup) (moved : List ModuleId) (cs : List Chunk) :
    entryChunks (regroup group moved cs) = entryChunks cs := by
  unfold regroup
  rw [entryChunks_map fun c => ⟨kind_passOn c, name_passOn c, entry_passOn c⟩]
  unfold withChunkOf
  split
  next => rfl
  next => rw [entryChunks_append]; exact List.append_nil _

theorem entryChunks_entries (g : ModuleGraph) (dynamic : Bool) :
    entryChunks (g.entries.toList.map (entryChunk g dynamic)) = entryPairs g.entries := by
  unfold entryChunks entryPairs
  rw [List.filter_eq_self.mpr, List.map_map]
  · rfl
  · intro c hc
    obtain ⟨e, -, rfl⟩ := List.mem_map.mp hc
    rfl

theorem entryChunks_splitChunks (g : ModuleGraph) :
    entryChunks (splitChunks g) = entryPairs g.entries := by
  obtain ⟨made, hmade, hplain, -, -⟩ := splitChunks_spec g
  have hp : ∀ cs : List Chunk, entryChunks (cs.map plain) = entryChunks cs :=
    entryChunks_map fun c => ⟨rfl, rfl, rfl⟩
  have hnone : entryChunks made = [] := by
    unfold entryChunks
    rw [List.map_eq_nil_iff, List.filter_eq_nil_iff]
    intro c hc
    obtain ⟨t, -, he⟩ := hmade c hc
    rw [he]
    exact Bool.false_ne_true
  calc entryChunks (splitChunks g)
    _ = entryChunks ((splitChunks g).map plain) := (hp _).symm
    _ = entryChunks (g.entries.toList.map (entryChunk g false) ++ made) := by rw [hplain, hp]
    _ = entryPairs g.entries := by
      rw [entryChunks_append, hnone, List.append_nil, entryChunks_entries]

/-- The entry chunks of a partition are those of the entries, in their order. -/
theorem entryChunks_chunks (g : ModuleGraph) (o : SplitOptions) :
    entryChunks (chunks g o) = entryPairs g.entries :=
  chunks_keep (P := fun cs => entryChunks cs = entryPairs g.entries) (entryChunks_entries g true)
    (entryChunks_splitChunks g) (fun _ _ _ h => (entryChunks_regroup ..).trans h) o

end Partition

/-! ## Entries that were seeded -/

namespace ModuleGraph

/-- No entry has a module and an error. -/
def EntriesApart (g : ModuleGraph) : Prop :=
  ∀ name, g.entryErrors.contains name = true → g.entries.get? name = none

/-- Entries with a module stay as they are. -/
def KeepsEntries (g h : ModuleGraph) : Prop :=
  ∀ name id, g.entries.get? name = some id → h.entries.get? name = some id

end ModuleGraph

namespace Pass

theorem entriesApart_seed {p : Pass} (h : p.graph.EntriesApart) (root : Path) (c : Bool)
    (name specifier : String) (r : Resolution) :
    (p.seed root c name specifier r).graph.EntriesApart := by
  intro n hn
  obtain ⟨h1, h2⟩ := p.get?_entries_seed root c name specifier r n
  obtain ⟨e, he⟩ := Table.contains_iff.mp hn
  rw [h1]
  rw [h2] at he
  split at he
  next hname => rw [if_pos hname, Resolution.entryId?_eq_none he]
  next hname =>
    rw [if_neg hname]
    exact h n (Table.contains_iff.mpr ⟨e, he⟩)

theorem seedEntries_entries {project : Project} {w : World} {i j : Inquiries}
    {entries : Table String String} {p p' : Pass}
    (h : p.seedEntries project w i entries = (j, .ok p')) (hp : p.graph.EntriesApart)
    (hf : ∀ name x, entries.get? name = some x → p.graph.entries.get? name = none) :
    p'.graph.EntriesApart ∧ p.graph.KeepsEntries p'.graph := by
  obtain ⟨resolved, hresolved, rfl⟩ := seedEntries_eq_ok h
  have hseeds : Each (fun _ => True) (fun c q (e : (String × String) × Resolution) =>
    q.seed project.resolver.root c e.1.1 e.1.2 e.2) p resolved _ :=
    .foldl (c := j.bridge.cancelled) trivial p _
  have hsub := Resolver.sublist_resolveTogether (congrArg Prod.snd hresolved)
  refine hseeds.keeps (I := fun q => q.graph.EntriesApart ∧ p.graph.KeepsEntries q.graph)
    (fun c _ e he q hq => ?_) ⟨hp, fun _ _ h => h⟩
  refine ⟨fun n => entriesApart_seed hq.1 _ c e.1.1 e.1.2 e.2 n, fun name id hid => ?_⟩
  rw [(q.get?_entries_seed _ c e.1.1 e.1.2 e.2 name).1, if_neg ?_]
  · exact hq.2 name id hid
  · -- The entry that is seeded is one that failed.
    intro hname
    obtain ⟨x, hx, hxe⟩ := List.mem_map.mp (hsub.subset (List.mem_map_of_mem he))
    have hx : entries.get? e.1.1 = some x.2 := hxe ▸ Table.mem_toList.mp hx
    rw [← hname] at hx
    exact nomatch hid.symm.trans (hf _ _ hx)

theorem entries_reprocessAll (p : Pass) (c : Bool) (ids : List ModuleId) :
    (ids.foldl (fun p id => p.reprocess c id) p).graph.entries = p.graph.entries ∧
      (ids.foldl (fun p id => p.reprocess c id) p).graph.entryErrors = p.graph.entryErrors := by
  induction ids generalizing p with
  | nil => exact ⟨rfl, rfl⟩
  | cons id ids ih =>
    obtain ⟨h₁, h₂⟩ := p.entries_reprocess c id
    exact ⟨(ih _).1.trans h₁, (ih _).2.trans h₂⟩

end Pass

/-! ## Entries and chunks that match -/

/-- The entry chunks of a result, by name, with the modules that they start from. -/
def BuildResult.entryChunks (r : BuildResult) : List (String × Option ModuleId) :=
  (r.chunks.filter (·.kind = .entry)).map fun c => (c.name, c.entry)

theorem BuildResult.entryChunks_assemble (g : ModuleGraph) (chunks : ChunkGraph)
    (rendered : List RenderedChunk) :
    (assemble g chunks rendered).entryChunks = Bundler.entryChunks chunks.chunks := by
  unfold BuildResult.entryChunks Bundler.entryChunks assemble
  rw [List.filter_map, List.map_map]
  rfl

/-- Every chunk is that of an entry, and every entry has one, but for late ones. -/
structure MatchesEntries (cs : List (String × Option ModuleId)) (entries : Table String ModuleId)
    (late : String → Prop) : Prop where
  nodup : (cs.map (·.1)).Nodup
  entry : ∀ e ∈ cs, e ∈ entryPairs entries
  chunk : ∀ e ∈ entryPairs entries, e ∈ cs ∨ late e.1

namespace MatchesEntries

variable {cs : List (String × Option ModuleId)} {entries : Table String ModuleId}
  {late late' : String → Prop}

theorem all (entries : Table String ModuleId) (late : String → Prop) :
    MatchesEntries (entryPairs entries) entries late where
  nodup := by
    unfold entryPairs
    rw [List.map_map]
    exact Table.keys_nodup entries
  entry _ h := h
  chunk _ h := .inl h

theorem mono (h : MatchesEntries cs entries late) (hl : ∀ name, late name → late' name) :
    MatchesEntries cs entries late' :=
  ⟨h.nodup, h.entry, fun e he => (h.chunk e he).imp_right (hl e.1)⟩

/-- Entries that are added without a chunk are late. -/
theorem add {g t : ModuleGraph} (h : MatchesEntries cs g.entries late) (hk : g.KeepsEntries t)
    (hn : ∀ name id, t.entries.get? name = some id → g.entries.get? name = none → late name) :
    MatchesEntries cs t.entries late where
  nodup := h.nodup
  entry e he := by
    obtain ⟨id, hid, hget⟩ := mem_entryPairs.mp (h.entry e he)
    exact mem_entryPairs.mpr ⟨id, hid, hk e.1 id hget⟩
  chunk e he := by
    obtain ⟨id, hid, hget⟩ := mem_entryPairs.mp he
    cases hg : g.entries.get? e.1 with
    | none => exact .inr (hn e.1 id hget hg)
    | some id' =>
      obtain rfl : id' = id := Option.some.inj ((hk e.1 id' hg).symm.trans hget)
      exact h.chunk e (mem_entryPairs.mpr ⟨id', hid, hg⟩)

end MatchesEntries

namespace Session

/-! ## Requests -/

/-- What a session can be asked for that comes to a result. -/
inductive Request
  | build
  | rebuild (changed : Path)
  | compileLazy (id : ModuleId)

def perform (s : Session) (w : World) (fuel : Nat) : Request → Option Report
  | .build => s.build w fuel
  | .rebuild changed => s.rebuild w changed fuel
  | .compileLazy id => s.compileLazy w id fuel

/-- What a request comes to, as far as entries and chunks are concerned. -/
inductive Answers (s : Session) (w : World) (req : Request) : Report → Prop
  /-- Nothing was done, and a result is the last one. -/
  | idle {rep : Report} (inquiries : Inquiries) (hs : rep.session = { s with inquiries })
      (ho : ∀ r, rep.outcome = .ok r → req ≠ .build ∧ r = s.last) : Answers s w req rep
  /-- Everything was built anew. -/
  | anew {t : Session} {q : Pass} (stale : List ModuleId) (started : List ProgressEvent)
      (hlast : t.last = s.last) (hb : t.bundle = {}) (ha : q.graph.EntriesApart) :
      Answers s w req (t.finish w.files q stale started)
  /-- A pass went on from the graph and the chunks that were there, and tells of new modules. -/
  | further {t : Session} {q : Pass} (stale : List ModuleId) (started : List ProgressEvent)
      (hreq : req ≠ .build) (hlast : t.last = s.last) (hb : t.bundle = s.bundle)
      (ha : s.graph.EntriesApart → q.graph.EntriesApart ∧ s.graph.KeepsEntries q.graph)
      (hn : ∀ id, q.graph.contains id = true →
        s.graph.contains id = true ∨ q.delta.topologyChanged = true) :
      Answers s w req (t.finish w.files q stale started)

section
variable {s : Session} {w : World} {fuel : Nat} {rep : Report}

theorem answers_refused {req : Request} {e : Error} :
    Answers s w req (s.report w.files (.error e)) :=
  .idle s.inquiries rfl fun _ h => nomatch h

theorem fullBuild_answers (req : Request) (h : s.fullBuild w fuel = some rep) :
    Answers s w req rep := by
  obtain ⟨p, i, q, inquiries, hp, hq, rfl⟩ := fullBuild_eq_some h
  obtain ⟨entries, hb⟩ := begins_of_seedEntries hp false []
  have hr := (runs_of_run hb hq).1.entries_eq
  have ha := (Pass.seedEntries_entries hp (fun _ h => nomatch h) fun _ _ _ => rfl).1
  refine .anew [] _ rfl rfl fun name hn => ?_
  rw [hr.2] at hn
  rw [hr.1]
  exact ha name hn

theorem seedEntries_failed (ha : s.graph.EntriesApart) {changed : Path} {i j : Inquiries}
    {p : Pass} (hp : (s.newPass (s.graph.markStale w.files changed).1).seedEntries s.project w i
      s.failedEntries = (j, .ok p)) :
    p.graph.EntriesApart ∧ s.graph.KeepsEntries p.graph := by
  have he : (s.newPass (s.graph.markStale w.files changed).1).graph.entries = s.graph.entries :=
    s.graph.entries_markStale w.files changed
  have hx : (s.newPass (s.graph.markStale w.files changed).1).graph.entryErrors =
      s.graph.entryErrors := s.graph.entryErrors_markStale w.files changed
  obtain ⟨h₁, h₂⟩ := Pass.seedEntries_entries hp
    (fun name hn => by rw [he]; exact ha name (hx ▸ hn))
    fun name x hn => by
      rw [get?_failedEntries] at hn
      rw [he]
      exact ha name (Option.filter_eq_some_iff.mp hn).2
  exact ⟨h₁, fun name id hn => h₂ name id (he ▸ hn)⟩

theorem incrementalBuild_answers {changed : Path} {req : Request} (hreq : req ≠ .build)
    (h : s.incrementalBuild w changed fuel = some rep) : Answers s w req rep := by
  rcases incrementalBuild_eq_some h with ⟨-, rfl⟩ | ⟨p, i, q, inquiries, hp, hq, rfl⟩
  · exact .idle { s.inquiries with cache := {} } rfl fun r hr => ⟨hreq, (Except.ok.inj hr).symm⟩
  obtain ⟨entries, hb⟩ := begins_of_seedEntries hp i.bridge.cancelled _
  have hr := (runs_of_run hb hq).1.entries_eq
  obtain ⟨hr₁, hr₂⟩ := Pass.entries_reprocessAll p i.bridge.cancelled
    (s.graph.markStale w.files changed).2
  refine .further _ _ hreq rfl rfl (fun ha => ?_) fun id hid => ?_
  · obtain ⟨ha', hk⟩ := seedEntries_failed ha hp
    refine ⟨fun name hn => ?_, fun name id hn => ?_⟩
    · rw [hr.2, hr₂] at hn
      rw [hr.1, hr₁]
      exact ha' name hn
    · rw [hr.1, hr₁]
      exact hk name id hn
  · exact ((completes_of_run hb hq).notices.contains hid).imp_left ModuleGraph.contains_markStale.mp

theorem rebuild_answers {changed : Path} (h : s.rebuild w changed fuel = some rep) :
    Answers s w (.rebuild changed) rep := by
  unfold rebuild at h
  split at h
  · cases h
    exact answers_refused
  · split at h
    · exact incrementalBuild_answers (fun he => nomatch he) h
    · exact fullBuild_answers _ h

theorem compileLazy_answers {id : ModuleId} (h : s.compileLazy w id fuel = some rep) :
    Answers s w (.compileLazy id) rep := by
  unfold compileLazy at h
  split at h
  · cases h
    exact answers_refused
  · split at h
    next hid =>
      obtain ⟨q, inquiries, hq, rfl⟩ := complete_eq_some h
      have hb : Pass.Begins s.rules s.project.resolver.root { reprocessed := [id] }
          { graph := s.graph, eager := (s.compiled.add id).ids }
          (Pass.reprocess { graph := s.graph, eager := (s.compiled.add id).ids } s.cancelled id) :=
        .intro (.nil _) (.cons _ trivial (.nil _))
      have hr := (runs_of_run hb hq).1.entries_eq
      have hp := Pass.entries_reprocess { graph := s.graph, eager := (s.compiled.add id).ids }
        s.cancelled id
      refine .further [] [] (fun he => nomatch he) rfl rfl (fun ha => ⟨fun name hn => ?_,
        fun name x hn => ?_⟩) fun _ => (completes_of_run hb hq).notices.contains
      · rw [hr.2, hp.2] at hn
        rw [hr.1, hp.1]
        exact ha name hn
      · rw [hr.1, hp.1]
        exact hn
    · cases h
      exact answers_refused

theorem perform_answers {req : Request} (h : s.perform w fuel req = some rep) :
    Answers s w req rep := by
  cases req with
  | build =>
    have h : s.build w fuel = some rep := h
    unfold build at h
    split at h
    · cases h
      exact answers_refused
    · exact fullBuild_answers _ h
  | rebuild changed => exact rebuild_answers h
  | compileLazy id => exact compileLazy_answers h

end

/-! ## Histories -/

/-- An entry that a call resolves, after it had failed, to a module that was loaded already. -/
def Late (s t : Session) (name : String) : Prop :=
  s.graph.entries.get? name = none ∧
    ∃ id, t.graph.entries.get? name = some id ∧ s.graph.contains id = true

/-- The late entries after a request. A build that returns a result leaves none. -/
def lateAfter (s : Session) (req : Request) (rep : Report) (late : String → Prop)
    (name : String) : Prop :=
  (req = .build → ∀ r, rep.outcome ≠ .ok r) ∧ (late name ∨ s.Late rep.session name)

/-- What comes of a new session by requests and questions in whatever worlds, with the entries that
are late. -/
inductive History : Session → (String → Prop) → Prop
  | create {o : Options} {files : FileTree} {transforms : Loader → Transform} {minifier : Minifier}
      {s : Session} (h : Session.create o files transforms minifier = .ok s) :
      History s fun _ => False
  | request {s : Session} {late : String → Prop} (h : History s late) {w : World} {fuel : Nat}
      {req : Request} {rep : Report} (hrep : s.perform w fuel req = some rep) :
      History rep.session (s.lateAfter req rep late)
  | resolve {s : Session} {late : String → Prop} (h : History s late) (w : World)
      (specifier : String) (dir : Path) : History (s.resolve w specifier dir).1 late
  | cancel {s : Session} {late : String → Prop} (h : History s late) : History s.cancel late

/-- The chunks that a session keeps, and those of its last result, match the entries. -/
structure Chunked (s : Session) (late : String → Prop) : Prop where
  wellFormed : s.graph.WellFormed
  apart : s.graph.EntriesApart
  kept : MatchesEntries (entryChunks s.bundle.chunks.chunks) s.graph.entries late
  last : MatchesEntries s.last.entryChunks s.last.entries late

section
variable {s : Session} {w : World} {fuel : Nat} {req : Request} {rep : Report}
  {late : String → Prop}

theorem perform_call (h : s.perform w fuel req = some rep) : s.Call rep.session := by
  cases req with
  | build => exact build_call h
  | rebuild changed => exact rebuild_call h
  | compileLazy id => exact compileLazy_call h

theorem last_finish (t : Session) (files : FileTree) (q : Pass) (stale : List ModuleId)
    (started : List ProgressEvent) :
    (t.finish files q stale started).session.last = t.finalResult q ∧
        (∀ r, (t.finish files q stale started).outcome = .ok r → r = t.finalResult q) ∨
      (t.finish files q stale started).session.last = t.last ∧
        ∃ e, (t.finish files q stale started).outcome = .error e := by
  cases hw : t.write files (t.finalResult q) with
  | mk f o =>
    cases o with
    | ok u =>
      obtain ⟨h1, -, h2⟩ := t.finish_of_write files q stale started hw
      exact .inl ⟨h1, fun r hr => answer_eq_ok (h2.symm.trans hr)⟩
    | error e => exact .inr ⟨(finish_of_write_error hw).1, e, (finish_of_write_error hw).2⟩

theorem ok_last_finish {t : Session} {files : FileTree} {q : Pass} {stale : List ModuleId}
    {started : List ProgressEvent} {r : BuildResult}
    (h : (t.finish files q stale started).outcome = .ok r) :
    r = (t.finish files q stale started).session.last := by
  rcases t.last_finish files q stale started with ⟨hl, ho⟩ | ⟨-, e, he⟩
  · exact (ho r h).trans hl.symm
  · exact nomatch he.symm.trans h

theorem entryChunks_finalBundle {t : Session} {q : Pass}
    (h : t.bundle.mustRepartition (finalDelta q) = true) :
    entryChunks (t.finalBundle q).chunks.chunks = entryPairs q.graph.entries := by
  have hchunks : (t.finalBundle q).chunks =
      .partition q.graph.prune.1.settle t.options.splitOptions := if_pos h
  rw [hchunks]
  exact (Partition.entryChunks_chunks _ _).trans (congrArg entryPairs (ModuleGraph.entries_prune _))

theorem lateAfter_of_ne (hreq : req ≠ .build) {name : String}
    (h : late name ∨ s.Late rep.session name) : s.lateAfter req rep late name :=
  ⟨fun he => absurd he hreq, h⟩

/-- A pass whose chunks match its entries leaves a session behind in which they match. -/
theorem Chunked.finish (h : s.Chunked late) {t : Session} {q : Pass} {stale : List ModuleId}
    {started : List ProgressEvent} (hlast : t.last = s.last)
    (hwf : (t.finish w.files q stale started).session.graph.WellFormed)
    (ha : q.graph.EntriesApart)
    (hm : MatchesEntries (entryChunks (t.finalBundle q).chunks.chunks) q.graph.entries
      (s.lateAfter req (t.finish w.files q stale started) late)) :
    Chunked (t.finish w.files q stale started).session
      (s.lateAfter req (t.finish w.files q stale started) late) where
  wellFormed := hwf
  apart := by
    rw [finish_graph]
    intro name hn
    rw [ModuleGraph.entryErrors_settle, ModuleGraph.entryErrors_prune] at hn
    rw [ModuleGraph.entries_settle, ModuleGraph.entries_prune]
    exact ha name hn
  kept := by
    rw [finish_graph, (t.finished_finish w.files q stale started).bundle, ModuleGraph.entries_settle,
      ModuleGraph.entries_prune]
    exact hm
  last := by
    rcases t.last_finish w.files q stale started with ⟨hl, -⟩ | ⟨hl, e, he⟩
    · have hentries : (t.finalResult q).entries = q.graph.entries :=
        (ModuleGraph.entries_settle _).trans (ModuleGraph.entries_prune _)
      rw [hl, hentries]
      unfold finalResult
      rw [BuildResult.entryChunks_assemble]
      exact hm
    · rw [hl, hlast]
      exact h.last.mono fun name hn => ⟨fun _ r hr => (nomatch he.symm.trans hr), .inl hn⟩

theorem Answers.chunked (h : s.Chunked late) (ha : Answers s w req rep)
    (hwf : rep.session.graph.WellFormed) : rep.session.Chunked (s.lateAfter req rep late) ∧
      ∀ r, rep.outcome = .ok r → r = rep.session.last := by
  cases ha with
  | idle inquiries hs ho =>
    have hlate : ∀ name, late name → s.lateAfter req rep late name := fun name hn =>
      ⟨fun hreq r hr => (ho r hr).1 hreq, .inl hn⟩
    rw [hs] at hwf ⊢
    exact ⟨⟨hwf, h.apart, h.kept.mono hlate, h.last.mono hlate⟩, fun r hr => (ho r hr).2⟩
  | @anew t q stale started hlast hb ha =>
    refine ⟨h.finish hlast hwf ha ?_, fun r => ok_last_finish⟩
    rw [entryChunks_finalBundle (by rw [hb]; exact Bool.or_true _)]
    exact .all _ _
  | @further t q stale started hreq hlast hb ha hn =>
    obtain ⟨hapart, hkeeps⟩ := ha h.apart
    refine ⟨h.finish hlast hwf hapart ?_, fun r => ok_last_finish⟩
    cases hmust : t.bundle.mustRepartition (finalDelta q) with
    | true =>
      rw [entryChunks_finalBundle hmust]
      exact .all _ _
    | false =>
      -- The chunks stay, and match all entries but those that were added.
      have hchunks : (t.finalBundle q).chunks = s.bundle.chunks :=
        (if_neg (by rw [hmust]; decide)).trans (congrArg Bundle.chunks hb)
      rw [hchunks]
      refine (h.kept.mono fun name hl => lateAfter_of_ne hreq (.inl hl)).add hkeeps
        fun name id hid hnone => ?_
      have hid' : q.graph.prune.1.settle.entries.get? name = some id := by
        rw [ModuleGraph.entries_settle, ModuleGraph.entries_prune]
        exact hid
      rw [finish_graph] at hwf
      refine lateAfter_of_ne hreq (.inr ⟨hnone, id, by rw [finish_graph]; exact hid', ?_⟩)
      -- The module was there before, or the pass would have told of it.
      refine (hn id (ModuleGraph.contains_settle_prune.mp (hwf.entry name id hid')).2).resolve_right
        fun ht => ?_
      exact nomatch ht.symm.trans (mustRepartition_eq_false.mp hmust).1

theorem Chunked.create {o : Options} {files : FileTree} {transforms : Loader → Transform}
    {minifier : Minifier} (h : Session.create o files transforms minifier = .ok s) :
    s.Chunked fun _ => False := by
  obtain ⟨-, root, -, rfl⟩ := create_eq_ok.mp h
  exact ⟨.empty, fun _ h => (nomatch h), .all {} _, .all {} _⟩

theorem History.chunked (h : s.History late) : s.Chunked late := by
  induction h with
  | create h => exact .create h
  | request h hrep ih =>
    have hwf := (perform_call hrep).keeps_wellFormed ih.wellFormed
    exact ((perform_answers hrep).chunked ih hwf).1
  | resolve h w specifier dir ih => exact ⟨ih.wellFormed, ih.apart, ih.kept, ih.last⟩
  | cancel h ih => exact ⟨ih.wellFormed, ih.apart, ih.kept, ih.last⟩

/-- In every result that a request returns, entry chunks have different names, each is the chunk of
an entry of that name and starts from its module, and each entry has one: but for entries that were
resolved, after they had failed, to modules that were loaded already, and that no build has
followed. -/
theorem History.entry_chunks (h : s.History late) (hrep : s.perform w fuel req = some rep)
    {r : BuildResult} (hr : rep.outcome = .ok r) :
    MatchesEntries r.entryChunks r.entries (s.lateAfter req rep late) := by
  have hwf := (perform_call hrep).keeps_wellFormed h.chunked.wellFormed
  obtain ⟨hc, hlast⟩ := (perform_answers hrep).chunked h.chunked hwf
  rw [hlast r hr]
  exact hc.last

end

/-! ## An entry that is late -/

def lateSession : Session :=
  new { entries := .ofList [("main", "./a.js"), ("page", "./d")], root := ⟨"/"⟩ } ⟨"/"⟩
    (fun _ => Transform.builtin) minifyBlanks

/-- The second entry is a directory, and the first one imports a file in it. -/
def lateFiles (others : List (String × Node)) : World :=
  ⟨⟨.dir [("a.js", .file (Text.Utf8.encode "import \"./d/lib.js\";")),
      ("d", .dir (("lib.js", .file (Text.Utf8.encode "1")) :: others))], []⟩, none⟩

/-- A manifest, by which the directory is resolved to that file. -/
def lateManifest : String × Node :=
  ("package.json", .file (Text.Utf8.encode "\x7b\"main\":\"lib.js\"\x7d"))

/-- The second entry has failed. -/
def LateStart (x : Pass × Inquiries) : Prop :=
  MainImports ⟨"/a.js"⟩ ⟨"/d/lib.js"⟩ x.1.graph ∧ x.1.graph.entries.toList = [("main", ⟨"/a.js"⟩)] ∧
    (lateSession.afterBuild x).failedEntries.isEmpty = false ∧ x.2.bridge.cancelled = false

/-- The second entry has its module. -/
def LateEnd (y : Pass × Inquiries) : Prop :=
  MainImports ⟨"/a.js"⟩ ⟨"/d/lib.js"⟩ y.1.graph ∧
    y.1.graph.entries.toList = [("main", ⟨"/a.js"⟩), ("page", ⟨"/d/lib.js"⟩)] ∧
    y.1.delta.topologyChanged = false ∧ y.1.delta.sizeChanged = false

instance (x : Pass × Inquiries) : Decidable (LateStart x) :=
  inferInstanceAs (Decidable (_ ∧ _ ∧ _ ∧ _))

instance (y : Pass × Inquiries) : Decidable (LateEnd y) :=
  inferInstanceAs (Decidable (_ ∧ _ ∧ _ ∧ _))

theorem create_late : create lateSession.options (lateFiles []).files (fun _ => Transform.builtin)
    minifyBlanks = .ok lateSession :=
  create_eq_ok.mpr ⟨rfl, ⟨"/"⟩, by decide +kernel, rfl⟩

set_option maxRecDepth 10000 in
theorem late_passes : (lateSession.fullPass (lateFiles []) 5).any (fun x =>
    decide (LateStart x) && ((lateSession.afterBuild x).rebuildPass (lateFiles [lateManifest])
      ⟨"/d/package.json"⟩ 5).any fun y => decide (LateEnd y)) = true := by
  decide +kernel

/-- An entry fails in the first build. A rebuild resolves it to a module that was loaded already, and
returns a result with this entry and without a chunk of it. -/
theorem entry_chunks_of_late_entry : ∃ (rep rep' : Report) (r : BuildResult),
    lateSession.perform (lateFiles []) 5 .build = some rep ∧
      rep.session.perform (lateFiles [lateManifest]) 5 (.rebuild ⟨"/d/package.json"⟩) = some rep' ∧
      rep'.outcome = .ok r ∧ r.entries.get? "page" = some ⟨"/d/lib.js"⟩ ∧
      r.entryChunks = [("main", some ⟨"/a.js"⟩)] ∧
      MatchesEntries r.entryChunks r.entries (· = "page") := by
  obtain ⟨⟨p, i⟩, hp, hlate⟩ := (Option.any_eq_true _ _).mp late_passes
  obtain ⟨hstart, hlate⟩ := Bool.and_eq_true_iff.mp hlate
  obtain ⟨⟨q, j⟩, hq, hend⟩ := (Option.any_eq_true _ _).mp hlate
  obtain ⟨hmodules, hentries, hfailed, hcancelled⟩ : LateStart (p, i) := of_decide_eq_true hstart
  obtain ⟨hmodules', hentries', htopology, hsize⟩ : LateEnd (q, j) := of_decide_eq_true hend
  obtain ⟨rep, hbuild, hf, -, -, hout⟩ := exists_build (s := lateSession) rfl rfl hp
  have hgraph : rep.session.graph = p.graph.settle := by rw [hf.graph, hmodules.prune_eq]
  have hchunks : entryChunks rep.session.bundle.chunks.chunks = [("main", some ⟨"/a.js"⟩)] := by
    have hmust : Bundle.mustRepartition {} (finalDelta p) = true := Bool.or_true _
    rw [hf.bundle, entryChunks_finalBundle hmust, entryPairs, hentries]
    rfl
  -- The rebuild has nothing to process, but an entry to resolve.
  have hleft : rep.session.failedEntries.isEmpty = false := by
    rw [← hfailed, failedEntries, hf.options, hgraph]
    rfl
  have habs : rep.session.absolute ⟨"/d/package.json"⟩ = ⟨"/d/package.json"⟩ :=
    absolute_of_isAbsolute (by decide)
  have hpass : rep.session.rebuildPass (lateFiles [lateManifest])
      (rep.session.absolute ⟨"/d/package.json"⟩) 5 = some (q, j) := by
    rw [← hq, habs]
    exact hf.rebuildPass_eq rfl hmodules.prune_eq _ _ _
  obtain ⟨rep', hrebuild, hf', -, hlast, hout'⟩ := exists_rebuild
    (by rw [hf.options]; rfl) (by rw [cancelled, hf.inquiries]; exact hcancelled) hf.built
    (fun h => nomatch hleft.symm.trans h.2) hpass
  have hanswer : ∀ r, rep.session.answer r = .ok r := by
    intro r
    rw [answer, hf.options]
    rfl
  rw [hanswer] at hout'
  have hlastEntries : rep'.session.last.entries = q.graph.entries := by
    rw [hlast]
    exact (ModuleGraph.entries_settle _).trans (ModuleGraph.entries_prune _)
  have hlastChunks : rep'.session.last.entryChunks = [("main", some ⟨"/a.js"⟩)] := by
    have hempty : rep.session.bundle.chunks.isEmpty = false := by
      refine eq_false_of_ne_true fun h => ?_
      rw [List.isEmpty_iff.mp h] at hchunks
      cases hchunks
    have hmust := mustRepartition_eq_false.mpr
      ⟨htopology, congrArg Prod.snd hmodules'.prune_eq, hsize, hempty⟩
    rw [hlast, finalResult, BuildResult.entryChunks_assemble, ← hchunks]
    exact congrArg (fun c : ChunkGraph => entryChunks c.chunks) (if_neg (by rw [hmust]; decide))
  have hperform : lateSession.perform (lateFiles []) 5 .build = some rep := hbuild
  have hperform' : rep.session.perform (lateFiles [lateManifest]) 5
      (.rebuild ⟨"/d/package.json"⟩) = some rep' := hrebuild
  have hmatches := ((History.create create_late).request hperform).entry_chunks hperform' hout'
  refine ⟨rep, rep', _, hperform, hperform', hout', ?_, hlastChunks, hmatches.mono ?_⟩
  · rw [hlastEntries]
    exact Table.mem_toList.mp (hentries' ▸ List.mem_cons_of_mem _ (List.mem_singleton_self _))
  · rintro name ⟨-, ⟨hnone, -⟩ | ⟨hnone, id, hid, -⟩⟩
    · exact absurd hout (hnone rfl _)
    · rw [hf'.graph, ModuleGraph.entries_settle, ModuleGraph.entries_prune] at hid
      have hmem : (name, id) ∈ q.graph.entries.toList := Table.mem_toList.mpr hid
      rw [show q.graph.entries.toList = _ from hentries'] at hmem
      simp only [List.mem_cons, Prod.mk.injEq, List.not_mem_nil, or_false] at hmem
      rcases hmem with ⟨rfl, -⟩ | ⟨rfl, -⟩
      · rw [hgraph, ModuleGraph.entries_settle, hmodules.1] at hnone
        cases hnone
      · rfl

end Session

end Bundler

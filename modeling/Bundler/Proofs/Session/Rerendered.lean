import Bundler.Proofs.Build.Nodes
import Bundler.Proofs.Build.Notice
import Bundler.Proofs.Session.Standing

/-!
# Which chunks are rendered again

Where chunks are not split and nothing is left for later, the effects of a pass are contained: of the
chunks whose entry was there before, those are rendered again that have a touched member. An untouched
member leads to the same modules as before and is live if and only if it was, so a chunk without
touched members collects what it collected.
-/

namespace Bundler

namespace Pass

/-! ## Modules outside -/

/-- The modules outside the bundle. -/
def outsideOf (g : ModuleGraph) : ModuleGraph :=
  { modules := g.modules.filter fun _ m => m.external }

theorem get?_outsideOf {g : ModuleGraph} {id : ModuleId} {m : Module} :
    (outsideOf g).get? id = some m ↔ g.get? id = some m ∧ m.external = true := by
  unfold outsideOf
  exact (congrArg (· = some m) (Table.get?_filter g.modules _ id)).to_iff.trans
    Option.filter_eq_some_iff

theorem Spares.begins {g : ModuleGraph} {r : Rules} {root : Path} {seeds : Seeds} {p q : Pass}
    (h : p.Spares g)
    (hre : ∀ id ∈ seeds.reprocessed, ∀ m, g.get? id = some m → m.isLazy = true)
    (hb : Begins r root seeds p q) : q.Spares g := by
  obtain ⟨he, hr⟩ := hb
  refine hr.keeps (I := Spares g) (fun c _ id hid s hs => ?_)
    (he.keeps (I := Spares g) (fun c _ e _ s hs => ?_) h)
  · exact reprocess_keeps hs c id fun _ => hs.spawn c (hre id hid)
  · refine seed_keeps root c _ _ _ (fun _ => hs) fun id => ?_
    have hs' : Spares g { s with graph := s.graph.setEntry e.1.1 id } := hs
    exact enqueue_keeps hs' c id fun _ hl => hs'.spawn c (hs'.lazy_of hl)

section
variable {r : Rules} {root : Path} {g : ModuleGraph} {eager : List ModuleId} {seeds : Seeds}
  {q : Pass}

/-- A module outside stays as it is, if it is not reprocessed. -/
theorem Completes.get?_outside (hout : ∀ id m, r.output id m → m.IsOutput id)
    (h : Completes r root g eager seeds q) (hg : ∀ id, NotLazy (g.get? id))
    (hx : ∀ id ∈ seeds.reprocessed, ∀ m, g.get? id = some m → m.external = false) {id : ModuleId}
    {m : Module} (hm : g.get? id = some m) (he : m.external = true) :
    q.graph.get? id = some m := by
  obtain ⟨p, hb, hruns, -⟩ := h
  have hnew : Spares (outsideOf g) { graph := g, eager } := fun id m hm _ =>
    ⟨(get?_outsideOf.mp hm).1, List.not_mem_nil⟩
  have hre : ∀ id ∈ seeds.reprocessed, ∀ m, (outsideOf g).get? id = some m → m.isLazy = true := by
    intro id hid m hm
    obtain ⟨hm, he⟩ := get?_outsideOf.mp hm
    exact nomatch he.symm.trans (hx id hid m hm)
  exact ((hnew.begins hre hb).runs hout hruns id m (get?_outsideOf.mpr ⟨hm, he⟩) (hg id m hm)).1

/-- So no module comes to be live in a pass that was not. -/
theorem Completes.isLive_of_get? (hout : ∀ id m, r.output id m → m.IsOutput id)
    (h : Completes r root g eager seeds q) (hg : ∀ id, NotLazy (g.get? id))
    (hx : ∀ id ∈ seeds.reprocessed, ∀ m, g.get? id = some m → m.external = false) {id : ModuleId}
    (hl : q.graph.isLive id = true) {m : Module} (hm : g.get? id = some m) : m.isLive = true := by
  refine Module.isLive_iff.mpr ⟨eq_false_of_ne_true fun he => ?_, hg id m hm⟩
  obtain ⟨m', hm', hl'⟩ := ModuleGraph.isLive_iff.mp hl
  obtain rfl := Option.some.inj (hm'.symm.trans (h.get?_outside hout hg hx hm he))
  exact nomatch he.symm.trans (Module.isLive_iff.mp hl').1

end

/-! ## Passes that leave nothing for later -/

/-- No id stands for a module that is compiled later. -/
def Compiled (p : Pass) : Prop := ∀ id, NotLazy (p.graph.get? id)

namespace Compiled

variable {p : Pass}

theorem record (h : p.Compiled) {m : Module} (hm : m.isLazy = false) : (p.record m).Compiled := by
  intro id m' hm'
  rw [get?_record] at hm'
  split at hm'
  · exact Option.some.inj hm' ▸ hm
  · exact h id m' hm'

theorem spawn (h : p.Compiled) (c : Bool) (id : ModuleId) : (p.spawn c id).Compiled := by
  cases c with
  | true =>
    have hv : Compiled { p with visited := id :: p.visited } := h
    exact hv.record rfl
  | false =>
    intro x m hm
    rw [spawn_false, ModuleGraph.get?_setState] at hm
    split at hm
    · obtain ⟨m', -, rfl⟩ := Option.map_eq_some_iff.mp hm
      rfl
    · exact h x m hm

theorem enqueue (h : p.Compiled) (c : Bool) (id : ModuleId) : (p.enqueue c id).Compiled :=
  enqueue_keeps h c id fun _ _ => h.spawn c id

theorem follow (h : p.Compiled) (c : Bool) (d : Dependency) : (p.follow false c d).Compiled := by
  unfold Pass.follow
  split
  next => exact h
  next t _ =>
    rw [Bool.false_and, Bool.false_and, if_neg Bool.false_ne_true]
    split
    · split
      · exact h
      · exact h.record rfl
    · exact h.enqueue c t

theorem begins {r : Rules} {root : Path} {seeds : Seeds} {q : Pass} (h : p.Compiled)
    (hb : Begins r root seeds p q) : q.Compiled := by
  obtain ⟨he, hr⟩ := hb
  refine hr.keeps (I := Compiled) (fun c _ id _ s hs => ?_)
    (he.keeps (I := Compiled) (fun c _ e _ s hs => ?_) h)
  · exact reprocess_keeps hs c id fun _ => hs.spawn c id
  · refine seed_keeps root c _ _ _ (fun _ => hs) fun id => ?_
    have hs' : Compiled { s with graph := s.graph.setEntry e.1.1 id } := hs
    exact hs'.enqueue c id

theorem delivers {r : Rules} {q : Pass} (hl : r.lazyCompilation = false)
    (hout : ∀ id m, r.output id m → m.IsOutput id) (h : p.Compiled) (hd : Delivers r p q) :
    q.Compiled := by
  cases hd with
  | @intro s id m _ hm hf =>
    have hs : s.Compiled := hf.keeps (I := Compiled)
      (fun c _ d _ s hs => by rw [hl]; exact hs.follow c d) (h : Compiled (p.takeIn id))
    have hs' : Compiled
        { s with delta := { s.delta with processed := s.delta.processed ++ [m.id] } } := hs
    exact hs'.record (hout id m hm).2.2

end Compiled

theorem Completes.compiled {r : Rules} {root : Path} {g : ModuleGraph} {eager : List ModuleId}
    {seeds : Seeds} {q : Pass} (hl : r.lazyCompilation = false)
    (hout : ∀ id m, r.output id m → m.IsOutput id) (h : Completes r root g eager seeds q)
    (hg : ∀ id, NotLazy (g.get? id)) : q.Compiled := by
  obtain ⟨p, hb, hruns, -⟩ := h
  have hnew : Compiled { graph := g, eager } := hg
  have hp := hnew.begins hb
  induction hruns with
  | refl => exact hp
  | tail _ hd ih => exact ih.delivers hl hout hd

end Pass

theorem Partition.chunks_of_codeSplitting_eq_false {g : ModuleGraph} {split : SplitOptions}
    (h : split.codeSplitting = false) :
    chunks g split = g.entries.toList.map (entryChunk g true) := by
  unfold chunks
  rw [h, if_neg Bool.false_ne_true]

namespace Bundle

open Session (finalDelta)

section
variable {b : Bundle} {g : ModuleGraph} {split : SplitOptions} {r : Renderer} {rules : Pass.Rules}
  {root : Path} {eager : List ModuleId} {seeds : Pass.Seeds} {q : Pass}

/-! ## Chunks that stay -/

/-- A chunk is rendered again if no rendering of it is kept. -/
theorem Paired.mem_rerendered (hb : b.Paired) {d : Delta} {stale pruned : List ModuleId} {c : Chunk}
    (hc : c ∈ (b.nextChunks g split d).chunks) :
    c.name ∈ (b.stats g split d stale pruned).rerendered ↔ b.kept? d.touched c = none := by
  constructor
  · intro hmem
    obtain ⟨c', hc', hname⟩ := List.mem_map.mp hmem
    obtain ⟨hc', hnone⟩ := List.mem_filter.mp hc'
    rw [← List.inj_on_of_nodup_map (hb.nodup_nextChunks g split d) hc' hc hname]
    exact Option.isNone_iff_eq_none.mp hnone
  · intro hnone
    exact List.mem_map_of_mem (List.mem_filter.mpr ⟨hc, Option.isNone_iff_eq_none.mpr hnone⟩)

/-- The chunks that are rendered again are those that a rendering is made of; for any other, one is
taken from before. -/
theorem Paired.exists_mem_renderAll (hb : b.Paired) (r : Renderer) {d : Delta}
    {stale pruned : List ModuleId} {c : Chunk} (hc : c ∈ (b.nextChunks g split d).chunks) :
    ∃ x ∈ b.renderAll r g d.touched (b.nextChunks g split d), x.name = c.name ∧
      (c.name ∈ (b.stats g split d stale pruned).rerendered →
        x = r.renderChunk g (b.nextChunks g split d) c) ∧
      (c.name ∉ (b.stats g split d stale pruned).rerendered → x ∈ b.rendered) := by
  rw [hb.mem_rerendered hc]
  refine ⟨_, List.mem_map_of_mem hc, ?_⟩
  cases hk : b.kept? d.touched c with
  | none => exact ⟨rfl, fun _ => rfl, fun h => absurd rfl h⟩
  | some x => exact ⟨name_of_kept? hk, nofun, fun _ => mem_of_kept? hk⟩

/-- The chunk of an entry stays as it is if what is in it depends on the same modules as before. -/
theorem collect_settle_prune (hout : ∀ id m, rules.output id m → m.IsOutput id)
    (hq : Pass.Completes rules root g eager seeds q) (hg : ∀ id, NotLazy (g.get? id))
    (hx : ∀ id ∈ seeds.reprocessed, ∀ m, g.get? id = some m → m.external = false) {name : String}
    {e : ModuleId} (he : q.graph.entries.get? name = some e)
    (hdeps : ∀ id ∈ q.graph.prune.1.settle.collect e true, ∀ m, q.graph.get? id = some m →
      ∃ m₀, g.get? id = some m₀ ∧ m₀.dependencyIds = m.dependencyIds) :
    q.graph.prune.1.settle.collect e true = g.collect e true := by
  refine ModuleGraph.collect_congr (fun id m hp hm => ?_) (fun id m hp hm t ht hl => ?_) fun hl => ?_
  · obtain ⟨-, m, hm', rfl⟩ := ModuleGraph.get?_settle_prune.mp hm
    obtain ⟨m₀, hm₀, hids⟩ := hdeps id (ModuleGraph.mem_collect.mpr hp) m hm'
    have hlive : q.graph.isLive id = true :=
      ModuleGraph.isLive_iff.mpr ⟨m, hm', m.settled_isLive ▸ hp.live_of_get? hm⟩
    refine ⟨m₀, hm₀, hq.isLive_of_get? hout hg hx hlive hm₀, ?_⟩
    unfold ModuleGraph.followed
    rw [if_pos rfl, if_pos rfl, Module.settled_targets]
    exact hids
  · obtain ⟨hreach, m, hm', rfl⟩ := ModuleGraph.get?_settle_prune.mp hm
    have ht := ModuleGraph.mem_targets_of_mem_followed ht
    rw [Module.settled_targets] at ht
    exact ModuleGraph.isLive_settle_prune (hreach.step ⟨m, hm', ht⟩) (hq.isLive hout hl)
  · exact ModuleGraph.isLive_settle_prune (.entry he) (hq.isLive hout hl)

/-- Without code splitting and placeholders, those of the chunks whose entry was there before are
rendered again that have a touched member, and the pass leaves no placeholder. The chunks that are
said to be rendered again are those that are; the files of all others are taken from before. -/
theorem Fits.rerendered_iff (hb : b.Fits g split r) (hsplit : split.codeSplitting = false)
    (hlazy : rules.lazyCompilation = false) (hg : ∀ id, NotLazy (g.get? id))
    (hout : ∀ id m, rules.output id m → m.IsOutput id)
    (hq : Pass.Completes rules root g eager seeds q)
    (hx : ∀ id ∈ seeds.reprocessed, ∀ m, g.get? id = some m → m.external = false)
    (stale : List ModuleId) :
    let h := q.graph.prune.1.settle
    let d := finalDelta q
    (∀ id, NotLazy (h.get? id)) ∧
      (∀ c ∈ (ChunkGraph.partition h split).chunks, g.entries.get? c.name = c.entry →
        (c.name ∈ (b.stats h split d stale q.graph.prune.2).rerendered ↔
          ∃ id ∈ c.modules, d.touched.contains id = true)) ∧
      ∀ c ∈ (b.nextChunks h split d).chunks,
        ∃ x ∈ b.renderAll r h d.touched (b.nextChunks h split d), x.name = c.name ∧
          (c.name ∈ (b.stats h split d stale q.graph.prune.2).rerendered →
            x = r.renderChunk h (b.nextChunks h split d) c) ∧
          (c.name ∉ (b.stats h split d stale q.graph.prune.2).rerendered → x ∈ b.rendered) := by
  intro h d
  refine ⟨fun id m hm => ?_, fun c hc hentry => ?_, fun c hc => hb.paired.exists_mem_renderAll r hc⟩
  · obtain ⟨-, m, hm', rfl⟩ := ModuleGraph.get?_settle_prune.mp hm
    exact m.settled_isLazy.trans (hq.compiled hlazy hout hg id m hm')
  have hc' : c ∈ Partition.chunks h split := hc
  rw [Partition.chunks_of_codeSplitting_eq_false hsplit] at hc'
  obtain ⟨⟨name, e⟩, he, rfl⟩ := List.mem_map.mp hc'
  have he : h.entries.get? name = some e := Table.mem_toList.mp he
  rw [ModuleGraph.entries_settle, ModuleGraph.entries_prune] at he
  -- If its members depend on the same modules, the chunk was there before.
  have hold : (∀ id ∈ h.collect e true, ∀ m, q.graph.get? id = some m →
      ∃ m₀, g.get? id = some m₀ ∧ m₀.dependencyIds = m.dependencyIds) →
      Partition.entryChunk h true (name, e) ∈ b.chunks.chunks := by
    intro hdeps
    have hmem : (name, e) ∈ g.entries.toList := Table.mem_toList.mpr hentry
    have hcollect := collect_settle_prune hout hq hg hx he hdeps
    have hsame : Partition.entryChunk h true (name, e) = Partition.entryChunk g true (name, e) := by
      unfold Partition.entryChunk
      rw [hcollect]
    rw [hb.chunks, hsame]
    show _ ∈ Partition.chunks g split
    rw [Partition.chunks_of_codeSplitting_eq_false hsplit]
    exact List.mem_map_of_mem hmem
  have hnext : Partition.entryChunk h true (name, e) ∈ (b.nextChunks h split d).chunks := by
    unfold nextChunks
    split
    next => exact hc
    next hm =>
      have htopology := (Session.mustRepartition_eq_false.mp (eq_false_of_ne_true hm)).1
      exact hold fun id _ m hm => (hq.notices id m hm).dependencies htopology
  rw [hb.paired.mem_rerendered hnext]
  by_cases ht : ∀ id ∈ h.collect e true, d.touched.contains id = false
  · have hin := hold fun id hid m hm => by
      obtain ⟨m₀, hm₀, hids, -⟩ := (hq.notices id m hm).content (ht id hid)
      exact ⟨m₀, hm₀, hids⟩
    rw [hb.kept?_eq hin ht]
    exact iff_of_false (fun hk => nomatch hk)
      fun ⟨id, hid, htouched⟩ => nomatch htouched.symm.trans (ht id hid)
  · obtain ⟨id, hid, htouched⟩ := not_forall₂.mp ht
    refine ⟨fun _ => ⟨id, hid, eq_true_of_ne_false htouched⟩, fun _ => ?_⟩
    cases hk : b.kept? d.touched (Partition.entryChunk h true (name, e)) with
    | none => rfl
    | some x => exact absurd ((hb.of_kept? hk).2.1 id hid) htouched

end

/-! ## A part of one page -/

def homeId : ModuleId := ⟨"/p/home.js"⟩

def partId : ModuleId := ⟨"/p/part.js"⟩

def aboutId : ModuleId := ⟨"/p/about.js"⟩

def homeModule : Module where
  id := homeId
  fingerprint := some ⟨#[]⟩
  dependencies := [⟨"./part.js", .staticImport, 1, some partId, false⟩]
  state := .fresh

/-- A module without dependencies. -/
def leafModule (id : ModuleId) (fingerprint : Fingerprint) : Module where
  id
  fingerprint := some fingerprint
  state := .fresh

/-- Two pages, of which the first has a part. -/
def pages : ModuleGraph :=
  ((((ModuleGraph.insert {} homeModule).insert (leafModule partId ⟨#[]⟩)).insert
    (leafModule aboutId ⟨#[]⟩)).setEntry "home" homeId).setEntry "about" aboutId

/-- The pass in which the part comes to have another content. -/
def pagesPass : Pass :=
  (Pass.reprocess { graph := pages } false partId).deliver false false partId
    (leafModule partId ⟨#[1]⟩)

def pagesRules : Pass.Rules := ⟨false, Module.IsOutput, fun _ => True⟩

def pagesRenderer : Renderer := { options := { root := ⟨"/p"⟩ } }

def pagesBundle : Bundle := Bundle.update {} pages {} pagesRenderer {}

theorem completes_pages :
    Pass.Completes pagesRules ⟨"/p"⟩ pages [] { reprocessed := [partId] } pagesPass := by
  have hid : partId ∈ (Pass.reprocess { graph := pages } false partId).outstanding :=
    List.mem_singleton.mpr rfl
  exact ⟨_, .intro (.nil _) (.cons false trivial (.nil _)),
    .single (.of_deliver hid ⟨rfl, rfl, rfl⟩ trivial), rfl⟩

/-- What the pages and their pass hold. -/
theorem pages_hold :
    (pages.ids = [aboutId, homeId, partId] ∧
      ∀ id ∈ pages.ids, ∀ m ∈ pages.get? id, m.isLazy = false ∧ m.external = false) ∧
    (pages.entries.get? "home" = some homeId ∧ pages.entries.get? "about" = some aboutId) ∧
    (pagesPass.graph.ids = pages.ids ∧ pagesPass.graph.entries.get? "home" = some homeId ∧
      pagesPass.graph.entries.get? "about" = some aboutId) ∧
    (pagesPass.graph.get? homeId = some homeModule ∧
      pagesPass.graph.get? partId = some (leafModule partId ⟨#[1]⟩) ∧
      pagesPass.graph.get? aboutId = some (leafModule aboutId ⟨#[]⟩)) ∧
    (finalDelta pagesPass).touched.contains partId = true ∧
      (finalDelta pagesPass).touched.contains aboutId = false := by
  decide +kernel

theorem pages_kept : (∀ id, NotLazy (pages.get? id)) ∧
    ∀ id m, pages.get? id = some m → m.external = false := by
  obtain ⟨⟨-, hall⟩, -⟩ := pages_hold
  exact ⟨fun id m hm => (hall id (ModuleGraph.mem_ids_of_get? hm) m hm).1,
    fun id m hm => (hall id (ModuleGraph.mem_ids_of_get? hm) m hm).2⟩

theorem pages_prune : pagesPass.graph.prune = (pagesPass.graph, []) := by
  obtain ⟨⟨hids, -⟩, -, ⟨hids', hhome, habout⟩, ⟨hm, -, -⟩, -⟩ := pages_hold
  have hpart : pagesPass.graph.Reached partId :=
    (ModuleGraph.Reached.entry hhome).step ⟨homeModule, hm, List.mem_singleton.mpr rfl⟩
  refine ModuleGraph.prune_eq_self fun id hid => ?_
  rw [← ModuleGraph.mem_ids, hids', hids] at hid
  simp only [List.mem_cons, List.not_mem_nil, or_false] at hid
  rcases hid with rfl | rfl | rfl
  · exact .entry habout
  · exact .entry hhome
  · exact hpart

/-- The page whose part has changed is rendered again, and the other one is not. -/
theorem rerendered_of_changed_part :
    let s := pagesBundle.stats pagesPass.graph.prune.1.settle {} (finalDelta pagesPass) [partId]
      pagesPass.graph.prune.2
    "home" ∈ s.rerendered ∧ "about" ∉ s.rerendered := by
  obtain ⟨-, hentries, -, ⟨hm, hpart, hm'⟩, htouched⟩ := pages_hold
  have hget : ∀ {id : ModuleId} {m : Module}, pagesPass.graph.get? id = some m → m.settled = m →
      pagesPass.graph.prune.1.settle.get? id = some m := by
    intro id m hm hs
    rw [pages_prune, ModuleGraph.get?_settle, hm, Option.map_some, hs]
  have hhome : pagesPass.graph.prune.1.settle.collect homeId true = [homeId, partId] :=
    ModuleGraph.Collects.eq (.live List.not_mem_nil (hget hm rfl) rfl
      (.live (by decide) (hget hpart rfl) rfl (.nil _)))
  have habout : pagesPass.graph.prune.1.settle.collect aboutId true = [aboutId] :=
    ModuleGraph.Collects.eq (.live List.not_mem_nil (hget hm' rfl) rfl (.nil _))
  have hb : pagesBundle.Fits pages {} pagesRenderer := fits_update_empty ..
  obtain ⟨-, hiff, -⟩ := hb.rerendered_iff rfl rfl pages_kept.1 (fun _ _ h => h) completes_pages
    (fun id _ => pages_kept.2 id) [partId]
  have hpage : ∀ {name : String} {e : ModuleId}, pages.entries.get? name = some e →
      (name ∈ (pagesBundle.stats pagesPass.graph.prune.1.settle {} (finalDelta pagesPass) [partId]
        pagesPass.graph.prune.2).rerendered ↔
      ∃ id ∈ pagesPass.graph.prune.1.settle.collect e true,
        (finalDelta pagesPass).touched.contains id = true) := by
    intro name e he
    have hmem : (name, e) ∈ pagesPass.graph.prune.1.settle.entries.toList := by
      rw [Table.mem_toList, ModuleGraph.entries_settle, ModuleGraph.entries_prune]
      exact he
    exact hiff (Partition.entryChunk _ true (name, e)) (List.mem_map_of_mem hmem) he
  constructor
  · rw [hpage hentries.1, hhome]
    exact ⟨partId, List.mem_cons_of_mem _ List.mem_cons_self, htouched.1⟩
  · rw [hpage hentries.2, habout]
    rintro ⟨id, hid, ht⟩
    rw [List.mem_singleton.mp hid, htouched.2] at ht
    exact nomatch ht

end Bundle

end Bundler

import Bundler.Proofs.Build.Nodes
import Bundler.Proofs.Build.Notice
import Bundler.Proofs.Session.Standing

/-!
# Renderings that are reused

After a pass the rendering of a chunk is reused if the chunk is as it was and no member was touched.
A reused rendering is that of the chunk in the new graph, but for two things that a rendering shows
and that are not compared. A member may read differently although it depends on the same modules and
has the same fingerprint; and a name among the imports may have become that of another async chunk,
because a module changed that had moved to a chunk that this one refers to.
-/

namespace Bundler

namespace Bundle

open Session (finalDelta)

/-- A module that reads differently in another graph, with the same dependencies and fingerprint. -/
def Overlooked (g h : ModuleGraph) (id : ModuleId) : Prop :=
  ∃ m m', g.get? id = some m ∧ h.get? id = some m' ∧ m.dependencyIds = m'.dependencyIds ∧
    m.fingerprint = m'.fingerprint ∧ m.bare ≠ m'.bare

/-- A module that the entry of a chunk leads to statically, that is not in it but in a chunk that it
refers to, and that reads differently in another graph. -/
def ChangedElsewhere (g h : ModuleGraph) (split : SplitOptions) (c : Chunk) (id : ModuleId) :
    Prop :=
  (∃ e, c.entry = some e ∧ (g.LivePath false e id ∨ h.LivePath false e id)) ∧ id ∉ c.modules ∧
    (∃ b, (b ∈ Partition.chunks g split ∨ b ∈ Partition.chunks h split) ∧
      b.name ∈ c.references ∧ id ∈ b.modules) ∧
    (g.get? id).map Module.bare ≠ (h.get? id).map Module.bare

/-- The async chunk of a name starts from another module. -/
def Renamed (g h : ModuleGraph) (split : SplitOptions) (n : String) : Prop :=
  ((ChunkGraph.partition g split).get? n).bind (·.entry) ≠
    ((ChunkGraph.partition h split).get? n).bind (·.entry)

section
variable {g h : ModuleGraph} {split : SplitOptions} {c : Chunk}

/-- If the imports of a chunk were renamed, something that it has elsewhere changed. -/
theorem exists_changedElsewhere (hc : c ∈ Partition.chunks g split)
    (hc' : c ∈ Partition.chunks h split)
    (hmem : ∀ id ∈ c.modules, (g.get? id).map Module.bare = (h.get? id).map Module.bare)
    (hlive : ∀ a t m, h.get? a = some m → t ∈ m.targets → g.isLive t = true → h.isLive t = true)
    {n : String} (hn : n ∈ c.dynamicImports) (hr : Renamed g h split n) :
    ∃ id, ChangedElsewhere g h split c id := by
  have hne : c.dynamicImports ≠ [] := List.ne_nil_of_mem hn
  obtain ⟨e, he, hi, hstatic⟩ := Partition.provided_of_imports hc hne
  obtain ⟨e', he', hi', hstatic'⟩ := Partition.provided_of_imports hc' hne
  obtain rfl : e' = e := Option.some.inj (he'.symm.trans he)
  by_contra hno
  -- Otherwise the graphs agree on all that the entry leads to.
  have ha : g.AgreeFrom h e' := by
    intro id hp
    by_contra hdiff
    have hout : id ∉ c.modules := fun hid => hdiff (hmem id hid)
    refine hno ⟨id, ⟨e', he, hp⟩, hout, ?_, hdiff⟩
    rcases hp with hp | hp
    · obtain ⟨b, hb, hrest⟩ := (hstatic id hp).resolve_left hout
      exact ⟨b, .inl hb, hrest⟩
    · obtain ⟨b, hb, hrest⟩ := (hstatic' id hp).resolve_left hout
      exact ⟨b, .inr hb, hrest⟩
  rw [← Partition.importsFrom_congr ha] at hi'
  have hkept : ∀ t ∈ Partition.importsFrom g e', g.isLive t = true → h.isLive t = true := by
    intro t ht hl
    rw [Partition.importsFrom_congr ha] at ht
    obtain ⟨a, m, -, hm, ht⟩ := Partition.mem_importsFrom.mp ht
    exact hlive a t m hm (ModuleGraph.mem_targets_of_mem_dynamicTargets ht) hl
  obtain ⟨t, h₁, h₂⟩ := hi.agree hi' hkept n hn
  exact hr ((entry_of_mem_asyncEntries h₁).trans (entry_of_mem_asyncEntries h₂).symm)

end

section
variable {b : Bundle} {g : ModuleGraph} {split : SplitOptions} {r : Renderer} {rules : Pass.Rules}
  {root : Path} {eager : List ModuleId} {seeds : Pass.Seeds} {q : Pass} {c : Chunk}

theorem isLive_of_mem_nextChunks (hb : b.Fits g split r)
    (hout : ∀ id m, rules.output id m → m.IsOutput id)
    (hq : Pass.Completes rules root g eager seeds q)
    (hc : c ∈ (b.nextChunks q.graph.prune.1.settle split (finalDelta q)).chunks) {id : ModuleId}
    (hid : id ∈ c.modules) : q.graph.prune.1.settle.isLive id = true := by
  have hmem : ∀ {k : ModuleGraph}, c ∈ Partition.chunks k split → k.isLive id = true := fun hc =>
    (((Partition.holds_chunks _ split).mem id).mp ⟨c, hc, hid⟩).isLive
  unfold nextChunks at hc
  split at hc
  next => exact hmem hc
  next hm =>
    rw [hb.chunks] at hc
    have hl := hq.isLive hout (hmem hc)
    -- Nothing was pruned, or the chunks would have been formed anew.
    have hpruned := (Session.mustRepartition_eq_false.mp (eq_false_of_ne_true hm)).2.1
    exact ModuleGraph.isLive_settle_prune
      (ModuleGraph.reached_of_prune hpruned (ModuleGraph.contains_of_isLive hl)) hl

theorem overlooked_of_ne (hq : Pass.Completes rules root g eager seeds q) {id : ModuleId}
    (hl : q.graph.prune.1.settle.isLive id = true)
    (ht : (finalDelta q).touched.contains id = false)
    (hne : (g.get? id).map Module.bare ≠ (q.graph.prune.1.settle.get? id).map Module.bare) :
    Overlooked g q.graph.prune.1.settle id := by
  obtain ⟨m, hm, -⟩ := ModuleGraph.isLive_iff.mp hl
  obtain ⟨-, m', hm', rfl⟩ := ModuleGraph.get?_settle_prune.mp hm
  obtain ⟨m₀, hm₀, hdeps, hfp⟩ := (hq.notices id m' hm').content ht
  refine ⟨m₀, m'.settled, hm₀, hm, ?_, hfp.trans m'.settled_fingerprint.symm, fun he => hne ?_⟩
  · rw [hdeps]
    unfold Module.dependencyIds
    rw [Module.settled_targets]
  · rw [hm₀, hm, Option.map_some, Option.map_some, he]

/-- A rendering that is kept after a pass is what the chunk would be rendered to, or a member was
overlooked, or the chunks were formed anew and a name that the chunk imports is that of another
async chunk, since a module has changed that the chunk has elsewhere. -/
theorem Fits.kept_right (hb : b.Fits g split r)
    (hout : ∀ id m, rules.output id m → m.IsOutput id)
    (hq : Pass.Completes rules root g eager seeds q)
    (hc : c ∈ (b.nextChunks q.graph.prune.1.settle split (finalDelta q)).chunks)
    {x : RenderedChunk} (hk : b.kept? (finalDelta q).touched c = some x) :
    let h := q.graph.prune.1.settle
    x = r.renderChunk h (b.nextChunks h split (finalDelta q)) c ∨
      (∃ id ∈ c.modules, Overlooked g h id) ∨
      b.mustRepartition (finalDelta q) = true ∧ (∃ n ∈ c.dynamicImports, Renamed g h split n) ∧
        ∃ id, ChangedElsewhere g h split c id := by
  intro h
  obtain ⟨hold, huntouched, rfl⟩ := hb.of_kept? hk
  rw [hb.chunks] at hold ⊢
  by_cases hmem : ∀ id ∈ c.modules, (g.get? id).map Module.bare = (h.get? id).map Module.bare
  swap
  · obtain ⟨id, hid, hne⟩ := not_forall₂.mp hmem
    exact .inr (.inl ⟨id, hid, overlooked_of_ne hq (isLive_of_mem_nextChunks hb hout hq hc hid)
      (huntouched id hid) hne⟩)
  by_cases hm : b.mustRepartition (finalDelta q) = true
  swap
  · have hnext : b.nextChunks h split (finalDelta q) = .partition g split :=
      (if_neg hm).trans hb.chunks
    rw [hnext]
    exact .inl (r.renderChunk_congr hmem rfl)
  have hnext : b.nextChunks h split (finalDelta q) = .partition h split := if_pos hm
  rw [hnext] at hc ⊢
  by_cases hn : ∃ n ∈ c.dynamicImports, Renamed g h split n
  · obtain ⟨n, hn, hr⟩ := id hn
    refine .inr (.inr ⟨hm, ⟨n, hn, hr⟩, exists_changedElsewhere hold hc hmem ?_ hn hr⟩)
    -- A target of a module that was kept is reached.
    intro a t m hma ht hl
    obtain ⟨hreach, m', hm', rfl⟩ := ModuleGraph.get?_settle_prune.mp hma
    rw [Module.settled_targets] at ht
    exact ModuleGraph.isLive_settle_prune (hreach.step ⟨m', hm', ht⟩)
      (hq.isLive hout hl)
  · left
    refine r.renderChunk_congr hmem (Render.asyncTable_congr r fun n hmem => ?_)
    by_contra hne
    exact hn ⟨n, hmem, hne⟩

end

/-! ## A member that is overlooked -/

def selfId : ModuleId := ⟨"/p/a.js"⟩

/-- A module that imports itself, and something else by a name that leads to `t`. -/
def selfModule (t : Option ModuleId) : Module where
  id := selfId
  fingerprint := some ⟨#[]⟩
  dependencies := [⟨"./a.js", .staticImport, 1, some selfId, false⟩,
    ⟨"./b.js", .staticImport, 2, t, false⟩]
  state := .fresh

def selfGraph : ModuleGraph := (ModuleGraph.insert {} (selfModule none)).setEntry "main" selfId

def selfRules : Pass.Rules := ⟨false, Module.IsOutput, fun _ => True⟩

/-- The pass in which the second import comes to lead to the module. -/
def selfPass : Pass :=
  (Pass.reprocess { graph := selfGraph } false selfId).deliver false false selfId
    (selfModule (some selfId))

def selfRenderer : Renderer := { options := { root := ⟨"/p"⟩ } }

def selfBundle : Bundle := Bundle.update {} selfGraph {} selfRenderer {}

def selfChunk : Chunk := Partition.entryChunk selfGraph true ("main", selfId)

theorem completes_self :
    Pass.Completes selfRules ⟨"/p"⟩ selfGraph [] { reprocessed := [selfId] } selfPass := by
  have hid : selfId ∈ (Pass.reprocess { graph := selfGraph } false selfId).outstanding :=
    List.mem_singleton.mpr rfl
  exact ⟨_, .intro (.nil _) (.cons false trivial (.nil _)),
    .single (.of_deliver hid ⟨rfl, rfl, rfl⟩ trivial), rfl⟩

theorem self_touched : (finalDelta selfPass).touched.ids = [] := by
  decide +kernel

theorem self_prune : selfPass.graph.prune = (selfPass.graph, []) := by
  refine ModuleGraph.prune_eq_self fun id hid => ?_
  have hids : selfPass.graph.ids = [selfId] := by decide +kernel
  rw [← ModuleGraph.mem_ids, hids, List.mem_singleton] at hid
  rw [hid]
  exact .entry (show selfPass.graph.entries.get? "main" = some selfId by decide +kernel)

theorem self_mustRepartition : selfBundle.mustRepartition (finalDelta selfPass) = false := by
  have hdelta : selfPass.delta.topologyChanged = false ∧ selfPass.delta.sizeChanged = false := by
    decide +kernel
  have hpruned : selfPass.graph.prune.2 = [] := congrArg Prod.snd self_prune
  exact Session.mustRepartition_eq_false.mpr ⟨hdelta.1, hpruned, hdelta.2, rfl⟩

theorem self_modules : selfChunk.modules = [selfId] := by
  have hm : selfGraph.get? selfId = some (selfModule none) := by decide +kernel
  exact ModuleGraph.Collects.eq (.live List.not_mem_nil hm rfl (.nil [selfId]))

section
open Render

theorem self_script {g : ModuleGraph} {m : Module} (hm : g.get? selfId = some m) :
    code (segments selfRenderer g selfBundle.chunks selfChunk) =
      minified selfRenderer runtime ++
        code (definition selfRenderer m selfId 0 ++ startLine selfRenderer selfChunk) := by
  have hasync : asyncTable selfRenderer selfBundle.chunks selfChunk = [] := rfl
  have hmembers : members g selfChunk = [(selfId, m)] := by
    unfold members
    rw [self_modules, List.filterMap_cons, hm]
    rfl
  unfold segments
  rw [hmembers, hasync]
  simp [code, String.join_cons]

/-- A rendering shows where the second import leads to. -/
theorem renderChunk_self_ne {g h : ModuleGraph} (hg : g.get? selfId = some (selfModule none))
    (hh : h.get? selfId = some (selfModule (some selfId))) :
    selfRenderer.renderChunk g selfBundle.chunks selfChunk ≠
      selfRenderer.renderChunk h selfBundle.chunks selfChunk := by
  intro he
  have hscript : code (segments selfRenderer g selfBundle.chunks selfChunk) =
      code (segments selfRenderer h selfBundle.chunks selfChunk) :=
    Option.some.inj (congrArg (fun x : RenderedChunk => x.files.head?.map OutputFile.content) he)
  rw [self_script hg, self_script hh, String.append_right_inj] at hscript
  exact absurd hscript (by decide +kernel)

end

/-- A module whose second import comes to lead to the module itself depends on the same modules as
before. The rendering of its chunk is kept and is not what the chunk would be rendered to. -/
theorem kept_right_of_self_import : ∃ x : RenderedChunk,
    selfBundle.kept? (finalDelta selfPass).touched selfChunk = some x ∧
    x ≠ selfRenderer.renderChunk selfPass.graph.prune.1.settle
      (selfBundle.nextChunks selfPass.graph.prune.1.settle {} (finalDelta selfPass)) selfChunk ∧
    ∃ id ∈ selfChunk.modules, Overlooked selfGraph selfPass.graph.prune.1.settle id := by
  have hb : selfBundle.Fits selfGraph {} selfRenderer := fits_update_empty ..
  have hmem : selfChunk ∈ selfBundle.chunks.chunks := by
    have hentry : ("main", selfId) ∈ selfGraph.entries.toList := List.mem_singleton.mpr rfl
    exact List.mem_map_of_mem (f := Partition.entryChunk selfGraph true) hentry
  have huntouched : ∀ id ∈ selfChunk.modules,
      (finalDelta selfPass).touched.contains id = false := by
    intro id _
    rw [← Bool.not_eq_true, ← IdSet.mem_ids, self_touched]
    exact List.not_mem_nil
  have hk := hb.kept?_eq hmem huntouched
  have hnext : selfBundle.nextChunks selfPass.graph.prune.1.settle {} (finalDelta selfPass) =
      selfBundle.chunks := if_neg (by rw [self_mustRepartition]; decide)
  have hnew : selfPass.graph.prune.1.settle.get? selfId = some (selfModule (some selfId)) := by
    rw [self_prune, ModuleGraph.get?_settle]
    decide +kernel
  have hne := renderChunk_self_ne (g := selfGraph) (by decide +kernel) hnew
  rw [← hnext] at hk hne
  refine ⟨_, hk, hne, ?_⟩
  rcases hb.kept_right (fun _ _ h => h) completes_self (hnext ▸ hmem) hk with h | h | ⟨hm, -⟩
  · exact absurd h hne
  · exact h
  · exact nomatch self_mustRepartition.symm.trans hm

end Bundle

end Bundler

import Bundler.Proofs.FileTree.Outputs
import Bundler.Proofs.Render.FileNames
import Bundler.Proofs.Session.Published

/-!
# Outputs that can be told apart

Whether the files of a result have names of their own. Scripts are called by the pattern of the
options, a map like its script with `.map`, and styles like their chunk with `.css`; that the
options are valid does not keep these names apart. Over any run of requests it is said in which ways
two files of a result can come to one name, for which patterns and chunks that cannot be, and what
becomes of the files when they are written below a directory.
-/

namespace Bundler

/-! ## Names that clash -/

/-- What the script of a chunk is called. -/
def ChunkInfo.scriptName (o : Options) (c : ChunkInfo) : String :=
  outputName o.entryFilename c.name c.hash

/-- Why the scripts of two chunks have one name. -/
inductive SameScript (o : Options) (c c' : ChunkInfo) : Prop
  /-- The pattern has no place for the name, and the digits of the hashes are the same. -/
  | digits (hname : Text.includes o.entryFilename "[name]" = false)
      (hpattern : Text.includes o.entryFilename "[contenthash]" = true) (hhash : c.hash = c'.hash)
  /-- The names of chunks are not free of brackets, and with one of them put in, the pattern has
  places for the hash. -/
  | bracket (hname : '[' ∈ c.name.toList ∨ '[' ∈ c'.name.toList)
      (hpattern :
        Text.includes (Text.substitute "[name]" c.name o.entryFilename) "[contenthash]" = true ∨
          Text.includes (Text.substitute "[name]" c'.name o.entryFilename) "[contenthash]" = true)

/-- How two files of some chunks come to have one name. -/
inductive Clash (o : Options) (cs : List ChunkInfo) (name : String) : Prop
  /-- The scripts of two chunks, or their maps. -/
  | scripts {c c' : ChunkInfo} (hc : c ∈ cs) (hc' : c' ∈ cs) (hne : c.name ≠ c'.name)
      (hsame : c.scriptName o = c'.scriptName o) (hwhy : SameScript o c c')
      (hname : name = c.scriptName o ∨ o.sourceMap = true ∧ name = c.scriptName o ++ ".map")
  /-- A script, and the map of another one. -/
  | sourceMap {c c' : ChunkInfo} (hc : c ∈ cs) (hc' : c' ∈ cs) (hmap : o.sourceMap = true)
      (hname : name = c.scriptName o) (hname' : name = c'.scriptName o ++ ".map")
  /-- A script, and the styles of a chunk. -/
  | styles {c c' : ChunkInfo} (hc : c ∈ cs) (hc' : c' ∈ cs) (hinline : o.inlineStyle = false)
      (hname : name = c.scriptName o) (hname' : name = c'.name ++ ".css")

/-- Of two texts, one is the end of the other. -/
def EndAlike (a b : List Char) : Prop := a <:+ b ∨ b <:+ a

instance (a b : List Char) : Decidable (EndAlike a b) := inferInstanceAs (Decidable (_ ∨ _))

/-- The pattern has a place for the name, and does not end like a map or like styles. -/
structure Options.Separates (o : Options) : Prop where
  name : Text.includes o.entryFilename "[name]" = true
  sourceMap : o.sourceMap = true → ¬ EndAlike (Render.patternEnd o.entryFilename) ".map".toList
  styles : o.inlineStyle = false → ¬ EndAlike (Render.patternEnd o.entryFilename) ".css".toList

theorem endAlike_of_scriptName {o : Options} {c : ChunkInfo} {name ending : String}
    (h : c.scriptName o = name ++ ending) :
    EndAlike (Render.patternEnd o.entryFilename) ending.toList := by
  have hscript := Render.patternEnd_suffix o.entryFilename c.name c.hash
  have hending : ending.toList <:+ (outputName o.entryFilename c.name c.hash).toList := by
    rw [show outputName o.entryFilename c.name c.hash = name ++ ending from h, String.toList_append]
    exact List.suffix_append _ _
  exact List.suffix_or_suffix_of_suffix hscript hending

/-- The names of chunks are free of brackets, or leave the pattern without a place for the hash. -/
def Options.Takes (o : Options) (cs : List ChunkInfo) : Prop :=
  (∀ c ∈ cs, '[' ∉ c.name.toList) ∨ ∀ c ∈ cs,
    Text.includes (Text.substitute "[name]" c.name o.entryFilename) "[contenthash]" = false

theorem Options.Separates.not_clash {o : Options} (h : o.Separates) {cs : List ChunkInfo}
    (hcs : o.Takes cs) (name : String) : ¬ Clash o cs name := by
  intro hclash
  cases hclash with
  | scripts hc hc' _ _ hwhy _ =>
    cases hwhy with
    | digits hname _ _ => exact nomatch h.name.symm.trans hname
    | bracket hname hpattern =>
      rcases hcs with hfree | hnone
      · exact hname.elim (hfree _ hc) (hfree _ hc')
      · rw [hnone _ hc, hnone _ hc'] at hpattern
        exact hpattern.elim nofun nofun
  | sourceMap _ _ hmap hname hname' =>
    exact h.sourceMap hmap (endAlike_of_scriptName (hname.symm.trans hname'))
  | styles _ _ hinline hname hname' =>
    exact h.styles hinline (endAlike_of_scriptName (hname.symm.trans hname'))

/-! ## The files of a bundle -/

theorem eq_of_ending {a b ending : String} (h : a ++ ending = b ++ ending) : a = b := by
  have h := congrArg String.toList h
  rw [String.toList_append, String.toList_append] at h
  exact String.toList_inj.mp (List.append_cancel_right h)

theorem map_ne_styles (a b : String) : a ++ ".map" ≠ b ++ ".css" := by
  intro h
  have h := congrArg String.toList h
  rw [String.toList_append, String.toList_append] at h
  have hlen : ".map".toList.length = ".css".toList.length := by decide
  exact absurd (List.append_inj_right' h hlen) (by decide)

theorem Options.named_of_validate {o : Options} (h : o.validate = .ok ()) :
    o.namesOutputs = true ∨ o.entries.size ≤ 1 ∧ o.codeSplitting = false := by
  unfold Options.validate at h
  cases hn : o.namesOutputs with
  | true => exact .inl rfl
  | false =>
    right
    by_cases hmany : 1 < o.entries.size ∨ o.codeSplitting = true
    · exfalso
      rw [hn] at h
      simp only [Bool.not_false, Bool.true_and, Bool.or_eq_true, decide_eq_true_eq,
        if_pos hmany] at h
      revert h
      split
      · exact nofun
      · cases firstComplaint checkEntry o.entries.toList <;> exact nofun
    · simpa using hmany

/-- The files of a bundle are those of its chunks by the options. -/
structure Bundle.Drawn (b : Bundle) (o : Options) : Prop where
  paired : b.Paired
  formed : ∀ x ∈ b.rendered, x.Formed o
  /-- Without code splitting, chunks are those of entries. -/
  entries : o.codeSplitting = false → ∀ c ∈ b.chunks.chunks, o.entries.contains c.name = true

/-- What a result tells of the chunks of a bundle. -/
def Bundle.infos (b : Bundle) : List ChunkInfo :=
  b.chunks.chunks.map (BuildResult.chunkInfo b.rendered)

namespace Bundle.Drawn

variable {b : Bundle} {o : Options} {x y : RenderedChunk}

theorem eq_of_name (hb : b.Drawn o) (hx : x ∈ b.rendered) (hy : y ∈ b.rendered)
    (h : x.name = y.name) : x = y :=
  List.inj_on_of_nodup_map (hb.paired.names ▸ hb.paired.nodup) hx hy h

theorem exists_info (hb : b.Drawn o) (hx : x ∈ b.rendered) :
    ∃ c ∈ b.infos, c.name = x.name ∧ c.scriptName o = x.fileName ∧ c.hash = x.hash := by
  have hname : x.name ∈ b.chunks.chunks.map (·.name) :=
    hb.paired.names ▸ List.mem_map_of_mem hx
  obtain ⟨c, hc, hcx⟩ := List.mem_map.mp hname
  have hfind : b.rendered.find? (·.name = c.name) = some x := by
    rw [hcx]
    exact Bundle.find?_key (hb.paired.names ▸ hb.paired.nodup) hx
  refine ⟨_, List.mem_map_of_mem hc, hcx, ?_, ?_⟩
  · rw [(hb.formed x hx).fileName, ChunkInfo.scriptName, BuildResult.chunkInfo, hfind]
    exact congrArg (outputName o.entryFilename · x.hash) hcx
  · rw [BuildResult.chunkInfo, hfind]
    rfl

/-- Where there are two chunks, the pattern of valid options has a place. -/
theorem named (hb : b.Drawn o) (hvalid : o.validate = .ok ()) (hx : x ∈ b.rendered)
    (hy : y ∈ b.rendered) (hne : x.name ≠ y.name) : o.namesOutputs = true := by
  refine (Options.named_of_validate hvalid).resolve_right fun ⟨hsize, hsplit⟩ => ?_
  have hentry {z : RenderedChunk} (hz : z ∈ b.rendered) :
      ∃ e ∈ o.entries.toList, e.1 = z.name := by
    have hname : z.name ∈ b.chunks.chunks.map (·.name) :=
      hb.paired.names ▸ List.mem_map_of_mem hz
    obtain ⟨c, hc, hcz⟩ := List.mem_map.mp hname
    obtain ⟨v, hv⟩ := Table.contains_iff.mp (hb.entries hsplit c hc)
    exact ⟨(c.name, v), Table.mem_toList.mpr hv, hcz⟩
  obtain ⟨e, he, hex⟩ := hentry hx
  obtain ⟨e', he', hey⟩ := hentry hy
  have hsize : o.entries.toList.length ≤ 1 := hsize
  have heq : e = e' := by
    match o.entries.toList, hsize, he, he' with
    | [_], _, he, he' => rw [List.mem_singleton.mp he, List.mem_singleton.mp he']
  exact hne (hex.symm.trans ((congrArg Prod.fst heq).trans hey))

/-- Why two chunks have scripts of one name. -/
theorem scripts (hb : b.Drawn o) (hvalid : o.validate = .ok ()) (hx : x ∈ b.rendered)
    (hy : y ∈ b.rendered) (h : x.fileName = y.fileName) {name : String}
    (hname : name = x.fileName ∨ o.sourceMap = true ∧ name = x.fileName ++ ".map") :
    x = y ∨ Clash o b.infos name := by
  by_cases hxy : x.name = y.name
  · exact .inl (hb.eq_of_name hx hy hxy)
  right
  obtain ⟨c, hc, hcname, hcscript, hchash⟩ := hb.exists_info hx
  obtain ⟨c', hc', hcname', hcscript', hchash'⟩ := hb.exists_info hy
  have hfx := hb.formed x hx
  have hfy := hb.formed y hy
  have he : outputName o.entryFilename x.name x.hash = outputName o.entryFilename y.name y.hash :=
    (hfx.fileName.symm.trans h).trans hfy.fileName
  refine .scripts hc hc' (by rwa [hcname, hcname']) (by rw [hcscript, hcscript', h]) ?_
    (by rwa [hcscript])
  rcases Render.outputName_cases hfx.hash hfy.hash he with hn | ⟨hn, hd⟩ | ⟨hbracket, hp⟩
  · exact absurd hn hxy
  · have hnamed := hb.named hvalid hx hy hxy
    rw [Options.namesOutputs, hn, Bool.false_or] at hnamed
    exact .digits hn hnamed (by rw [hchash, hchash', hd hnamed])
  · exact .bracket (by rwa [hcname, hcname']) (by rwa [hcname, hcname'])

/-- Two files of one name are the same, or it is told how they come to it. -/
theorem clash (hb : b.Drawn o) (hvalid : o.validate = .ok ()) {f f' : OutputFile}
    (hf : f ∈ b.rendered.flatMap (·.files)) (hf' : f' ∈ b.rendered.flatMap (·.files))
    (h : f.fileName = f'.fileName) : f = f' ∨ Clash o b.infos f.fileName := by
  choose! content hcontent using fun x (hx : x ∈ b.rendered) => (hb.formed x hx).files
  obtain ⟨x, hx, hfx⟩ := List.mem_flatMap.mp hf
  obtain ⟨y, hy, hfy⟩ := List.mem_flatMap.mp hf'
  obtain ⟨role, hmade, rfl⟩ := hcontent x hx f hfx
  obtain ⟨role', hmade', rfl⟩ := hcontent y hy f' hfy
  obtain ⟨c, hc, hcname, hcscript, -⟩ := hb.exists_info hx
  obtain ⟨c', hc', hcname', hcscript', -⟩ := hb.exists_info hy
  have hsame : x = y → (⟨role.fileName x, content x role⟩ : OutputFile) =
      ⟨role.fileName y, content y role⟩ := by rintro rfl; rfl
  cases role with
  | script =>
    cases role' with
    | script => exact (hb.scripts hvalid hx hy h (.inl rfl)).imp_left hsame
    | sourceMap => exact .inr (.sourceMap hc hc' hmade' hcscript.symm (by rw [hcscript']; exact h))
    | styles => exact .inr (.styles hc hc' hmade' hcscript.symm (by rw [hcname']; exact h))
  | sourceMap =>
    cases role' with
    | script =>
      exact .inr (.sourceMap hc' hc hmade (by rw [hcscript']; exact h) (by rw [hcscript]; rfl))
    | sourceMap =>
      have hscript : x.fileName = y.fileName := eq_of_ending h
      exact (hb.scripts hvalid hx hy hscript (.inr ⟨hmade, rfl⟩)).imp_left hsame
    | styles => exact absurd h (map_ne_styles _ _)
  | styles =>
    cases role' with
    | script => exact .inr (.styles hc' hc hmade (by rw [hcscript']; exact h) (by rw [hcname]; rfl))
    | sourceMap => exact absurd h.symm (map_ne_styles _ _)
    | styles =>
      have hname : x.name = y.name := eq_of_ending h
      exact .inl (hsame (hb.eq_of_name hx hy hname))

end Bundle.Drawn

namespace Bundle

variable {b : Bundle} {o : Options} {r : Renderer} {root : Path}

theorem drawn_empty (o : Options) : Drawn {} o :=
  ⟨paired_empty, fun _ h => (nomatch h), fun _ _ h => nomatch h⟩

theorem Drawn.update (hb : b.Drawn o) (hr : r.options = o.renderOptions root) {g : ModuleGraph}
    (hg : ∀ name id, g.entries.get? name = some id → o.entries.contains name = true) (d : Delta) :
    (b.update g o.splitOptions r d).Drawn o where
  paired := hb.paired.update g _ r d
  formed x hx := by
    obtain ⟨c, -, rfl⟩ := List.mem_map.mp hx
    cases hk : b.kept? d.touched c with
    | none => exact Renderer.formed_renderChunk hr g _ c
    | some x => exact hb.formed x (mem_of_kept? hk)
  entries hsplit c hc := by
    have hc : c ∈ (b.nextChunks g o.splitOptions d).chunks := hc
    unfold nextChunks at hc
    split at hc
    · have hchunks : (ChunkGraph.partition g o.splitOptions).chunks =
          g.entries.toList.map (Partition.entryChunk g true) :=
        if_neg (by rw [Options.splitOptions, hsplit]; exact Bool.false_ne_true)
      rw [hchunks] at hc
      obtain ⟨e, he, rfl⟩ := List.mem_map.mp hc
      exact hg e.1 e.2 (Table.mem_toList.mp he)
    · exact hb.entries hsplit c hc

end Bundle

/-! ## Sessions -/

/-- The entries of a graph come from the names that were seeded, or were there. -/
theorem Pass.entries_of_seedEntries {p p' : Pass} {project : Project} {w : World} {i j : Inquiries}
    {entries : Table String String} {name : String} {id : ModuleId}
    (hp : p.seedEntries project w i entries = (j, .ok p'))
    (h : p'.graph.entries.get? name = some id) :
    entries.contains name = true ∨ p.graph.entries.get? name = some id := by
  obtain ⟨resolved, hresolved, rfl⟩ := seedEntries_eq_ok hp
  have hseeds : Each (fun _ => True) (fun c q (e : (String × String) × Resolution) =>
    q.seed project.resolver.root c e.1.1 e.1.2 e.2) p resolved _ :=
    .foldl (c := j.bridge.cancelled) trivial p _
  have hsub := Resolver.sublist_resolveTogether (congrArg Prod.snd hresolved)
  refine hseeds.keeps (I := fun q => ∀ id, q.graph.entries.get? name = some id →
    entries.contains name = true ∨ p.graph.entries.get? name = some id)
    (fun c _ e he q hq id hid => ?_) (fun _ h => .inr h) id h
  rw [(q.get?_entries_seed _ c e.1.1 e.1.2 e.2 name).1] at hid
  split at hid
  next hname =>
    obtain ⟨x, hx, hxe⟩ := List.mem_map.mp (hsub.subset (List.mem_map_of_mem he))
    refine .inl (Table.contains_iff.mpr ⟨x.2, ?_⟩)
    rw [hname, ← hxe]
    exact Table.mem_toList.mp hx
  next => exact hq id hid

namespace Session

/-- The entries of the graph have names that are set. -/
def EntriesNamed (s : Session) (entries : Table String ModuleId) : Prop :=
  ∀ name id, entries.get? name = some id → s.options.entries.contains name = true

/-- What a request comes to, as far as outputs are concerned. -/
inductive Yields (s : Session) (w : World) : Report → Prop
  /-- Nothing was done, and a result is the last one. -/
  | idle {rep : Report} (inquiries : Inquiries) (hs : rep.session = { s with inquiries })
      (ho : ∀ r, rep.outcome = .ok r → r = s.last) : Yields s w rep
  /-- A pass was finished, from the chunks that were there or from none. -/
  | pass {t : Session} {q : Pass} (stale : List ModuleId) (started : List ProgressEvent)
      (ho : t.options = s.options) (hr : t.renderer = s.renderer) (hlast : t.last = s.last)
      (hb : t.bundle = {} ∨ t.bundle = s.bundle)
      (he : s.EntriesNamed s.graph.entries → s.EntriesNamed q.graph.entries) :
      Yields s w (t.finish w.files q stale started)

variable {s : Session} {w : World} {fuel : Nat} {req : Request} {rep : Report}
  {reps : List Report}

theorem yields_refused (e : Error) : Yields s w (s.report w.files (.error e)) :=
  .idle s.inquiries rfl fun _ h => nomatch h

theorem fullBuild_yields (h : s.fullBuild w fuel = some rep) : Yields s w rep := by
  obtain ⟨p, i, q, inquiries, hp, hq, rfl⟩ := fullBuild_eq_some h
  obtain ⟨entries, hb⟩ := begins_of_seedEntries hp false []
  refine .pass [] _ rfl rfl rfl (.inl rfl) fun _ name id hid => ?_
  rw [(runs_of_run hb hq).1.entries_eq.1] at hid
  exact (Pass.entries_of_seedEntries hp hid).resolve_right nofun

theorem incrementalBuild_yields {changed : Path}
    (h : s.incrementalBuild w changed fuel = some rep) :
    Yields s w rep := by
  rcases incrementalBuild_eq_some h with ⟨-, rfl⟩ | ⟨p, i, q, inquiries, hp, hq, rfl⟩
  · exact .idle { s.inquiries with cache := {} } rfl fun r hr => (Except.ok.inj hr).symm
  obtain ⟨entries, hb⟩ := begins_of_seedEntries hp i.bridge.cancelled _
  refine .pass _ _ rfl rfl rfl (.inr rfl) fun hnamed name id hid => ?_
  rw [(runs_of_run hb hq).1.entries_eq.1, (Pass.entries_reprocessAll ..).1] at hid
  rcases Pass.entries_of_seedEntries hp hid with hfailed | hold
  · obtain ⟨specifier, hget⟩ := Table.contains_iff.mp hfailed
    rw [get?_failedEntries] at hget
    exact Table.contains_iff.mpr ⟨specifier, (Option.filter_eq_some_iff.mp hget).1⟩
  · exact hnamed name id ((s.graph.entries_markStale w.files changed) ▸ hold)

theorem compileLazy_yields {id : ModuleId} (h : s.compileLazy w id fuel = some rep) :
    Yields s w rep := by
  unfold compileLazy at h
  split at h
  · cases h
    exact yields_refused _
  · split at h
    next =>
      obtain ⟨q, inquiries, hq, rfl⟩ := complete_eq_some h
      have hb : Pass.Begins s.rules s.project.resolver.root { reprocessed := [id] }
          { graph := s.graph, eager := (s.compiled.add id).ids }
          (Pass.reprocess { graph := s.graph, eager := (s.compiled.add id).ids } s.cancelled id) :=
        .intro (.nil _) (.cons _ trivial (.nil _))
      refine .pass [] [] rfl rfl rfl (.inr rfl) fun hnamed name x hx => ?_
      rw [(runs_of_run hb hq).1.entries_eq.1, (Pass.entries_reprocess ..).1] at hx
      exact hnamed name x hx
    · cases h
      exact yields_refused _

theorem perform_yields (h : s.perform w fuel req = some rep) : Yields s w rep := by
  cases req with
  | build =>
    simp only [perform, build] at h
    split at h
    · cases h
      exact yields_refused _
    · exact fullBuild_yields h
  | rebuild changed =>
    simp only [perform, rebuild] at h
    split at h
    · cases h
      exact yields_refused _
    · split at h
      · exact incrementalBuild_yields h
      · exact fullBuild_yields h
  | compileLazy id => exact compileLazy_yields h

/-- What a session keeps and what it published last are files by its options, which are valid. -/
structure Furnished (s : Session) : Prop where
  valid : s.options.validate = .ok ()
  renderer : ∃ root, s.renderer.options = s.options.renderOptions root
  entries : s.EntriesNamed s.graph.entries
  bundle : s.bundle.Drawn s.options
  last : ∃ b : Bundle, b.Drawn s.options ∧ s.last.chunks = b.infos ∧
    s.last.outputs = b.rendered.flatMap (·.files)

theorem Yields.furnished (h : s.Furnished) (hy : Yields s w rep) :
    rep.session.Furnished ∧ ∀ r, rep.outcome = .ok r → r = rep.session.last := by
  cases hy with
  | idle inquiries hs ho =>
    rw [hs]
    exact ⟨⟨h.valid, h.renderer, h.entries, h.bundle, h.last⟩, ho⟩
  | @pass t q stale started ho hr hlast hb he =>
    refine ⟨?_, fun r => ok_last_finish⟩
    have hf := t.finished_finish w.files q stale started
    have hoptions : (t.finish w.files q stale started).session.options = s.options :=
      hf.options.trans ho
    obtain ⟨root, hroot⟩ := h.renderer
    have hdrawn : (t.finalBundle q).Drawn s.options := by
      unfold finalBundle
      rw [ho]
      have hdraws : t.renderer.options = s.options.renderOptions root := by rw [hr, hroot]
      refine Bundle.Drawn.update ?_ hdraws (fun name id hid => ?_) _
      · rcases hb with hb | hb <;> rw [hb]
        · exact Bundle.drawn_empty _
        · exact h.bundle
      · rw [ModuleGraph.entries_settle, ModuleGraph.entries_prune] at hid
        exact he h.entries name id hid
    refine ⟨by rw [hoptions, h.valid], ⟨root, by rw [hf.renderer, hr, hoptions, hroot]⟩, ?_, ?_, ?_⟩
    · intro name id hid
      rw [finish_graph, ModuleGraph.entries_settle, ModuleGraph.entries_prune] at hid
      rw [hoptions]
      exact he h.entries name id hid
    · rw [hf.bundle, hoptions]
      exact hdrawn
    · rw [hoptions]
      rcases t.last_finish w.files q stale started with ⟨hl, -⟩ | ⟨hl, -⟩
      · rw [hl]
        exact ⟨t.finalBundle q, hdrawn, rfl, rfl⟩
      · rw [hl, hlast]
        exact h.last

theorem furnished_create {o : Options} {files : FileTree} {transforms : Loader → Transform}
    {minifier : Minifier} (h : Session.create o files transforms minifier = .ok s) :
    s.Furnished := by
  obtain ⟨hvalid, root, -, rfl⟩ := create_eq_ok.mp h
  exact ⟨hvalid, ⟨root, rfl⟩, fun _ _ h => (nomatch h), Bundle.drawn_empty o,
    {}, Bundle.drawn_empty o, rfl, rfl⟩

theorem Runs.furnished (h : Runs reps s) : s.Furnished := by
  induction h with
  | create h => exact furnished_create h
  | request _ hrep ih => exact ((perform_yields hrep).furnished ih).1
  | @breakdown _ s _ _ w _ hb ih =>
    rcases hb.leaves with he | ⟨-, -, changed, he⟩
    · rw [he]
      exact ⟨ih.valid, ih.renderer, ih.entries, ih.bundle, ih.last⟩
    · rw [he]
      refine ⟨ih.valid, ih.renderer, fun name id hid => ih.entries name id ?_, ih.bundle, ih.last⟩
      exact (s.graph.entries_markStale w.files changed) ▸ hid
  | resolve _ w specifier dir ih => exact ⟨ih.valid, ih.renderer, ih.entries, ih.bundle, ih.last⟩
  | cancel _ ih => exact ⟨ih.valid, ih.renderer, ih.entries, ih.bundle, ih.last⟩

/-! ## Files of their own -/

/-- In every result that a request of a session with valid options returns, two files have the same
name and different contents only if two scripts are called alike, or a script is called like a map
or like styles. If the pattern separates and takes the names of the chunks, there are no two such
files.

When the files of a result are written below a directory, each of them reads as one of its name
afterwards, or as one whose name is spelled otherwise and leads to the same place, unless it lies
where another one was staged. If in addition all names lead straight down and none is one of a
staging file, each of them reads as itself. -/
theorem Runs.outputs_apart (h : Runs reps s) (hrep : s.perform w fuel req = some rep)
    {r : BuildResult} (hr : rep.outcome = .ok r) :
    (∀ f ∈ r.outputs, ∀ f' ∈ r.outputs, f.fileName = f'.fileName → f.content ≠ f'.content →
        Clash s.options r.chunks f.fileName) ∧
      (s.options.Separates → s.options.Takes r.chunks →
        ∀ f ∈ r.outputs, ∀ f' ∈ r.outputs, f.fileName = f'.fileName → f.content = f'.content) ∧
      ∀ (dir : Path) (t u : FileTree), t.Starts dir → r.writeOutputs dir t = (u, .ok ()) →
        (∀ f ∈ r.outputs, ∃ g ∈ r.outputs, BuildResult.Ends dir u f g) ∧
          (s.options.Separates → s.options.Takes r.chunks →
            (∀ f ∈ r.outputs, BuildResult.Writable f) → ∀ f ∈ r.outputs,
              u.read (dir.join ⟨f.fileName⟩) = .ok (Text.Utf8.encode f.content)) := by
  obtain ⟨hf, hlast⟩ := (perform_yields hrep).furnished h.furnished
  obtain rfl := hlast r hr
  have hoptions : rep.session.options = s.options := (perform_concludes hrep).options
  obtain ⟨b, hb, hchunks, houtputs⟩ := hf.last
  rw [hoptions] at hb
  have hvalid : s.options.validate = .ok () := h.furnished.valid
  have hclash : ∀ f ∈ rep.session.last.outputs, ∀ f' ∈ rep.session.last.outputs,
      f.fileName = f'.fileName → f.content ≠ f'.content →
      Clash s.options rep.session.last.chunks f.fileName := by
    intro f hf f' hf' hname hne
    rw [houtputs] at hf hf'
    rw [hchunks]
    refine (hb.clash hvalid hf hf' hname).resolve_left ?_
    rintro rfl
    exact hne rfl
  have hapart : s.options.Separates → s.options.Takes rep.session.last.chunks →
      ∀ f ∈ rep.session.last.outputs, ∀ f' ∈ rep.session.last.outputs,
        f.fileName = f'.fileName → f.content = f'.content := by
    intro hsep hnames f hf f' hf' hname
    by_contra hne
    exact hsep.not_clash hnames _ (hclash f hf f' hf' hname hne)
  refine ⟨hclash, hapart, fun dir t u ht hwrite => ?_⟩
  have hends := BuildResult.writeFiles_ends ht hwrite
  refine ⟨hends, fun hsep hnames hw f hf => ?_⟩
  obtain ⟨g, hg, hend⟩ := hends f hf
  obtain ⟨hname, hread⟩ := hend.of_writable (hw f hf) (hw g hg)
  rw [hread, hapart hsep hnames g hg f hf hname]

/-- Both scripts are there after a build. -/
theorem outputs_apart_of_two_files : ∃ (rep : Report) (r : BuildResult),
    pairSession.perform (pairFiles "1" []) 5 .build = some rep ∧ rep.outcome = .ok r ∧
      r.outputs.map (·.fileName) = ["main.js", "other.js"] ∧
      ∀ f ∈ r.outputs,
        rep.files.read (Path.join ⟨"/dist"⟩ ⟨f.fileName⟩) = .ok (Text.Utf8.encode f.content) := by
  obtain ⟨x, hx, h⟩ := (Option.any_eq_true _ _).mp pair_passes
  obtain ⟨hend, hwrites⟩ := Bool.and_eq_true_iff.mp (Bool.and_eq_true_iff.mp h).1
  have hend : PairEnd [1, 1] (pairFiles "1" []) x := of_decide_eq_true hend
  obtain ⟨rep, hrep⟩ := hend.exists_build (.refl _) rfl rfl hx
  obtain ⟨-, -, hout, hfiles⟩ := hrep.written hwrites
  have hnames : rep.session.described.outputs.map (·.fileName) = ["main.js", "other.js"] := by
    rw [hrep.outputs]
    exact hend.2.2.2.2.2
  obtain ⟨u, hu⟩ : ∃ u, rep.session.described.writeOutputs ⟨"/dist"⟩ (pairFiles "1" []).files =
      (u, .ok ()) := by
    rw [BuildResult.writeOutputs, hrep.outputs]
    unfold pairWrites at hwrites
    generalize BuildResult.writeFiles _ _ (pairFiles "1" []).files = y at hwrites
    obtain ⟨u, _ | ⟨⟨⟩⟩⟩ := y
    · cases hwrites
    · exact ⟨u, rfl⟩
  obtain ⟨-, -, hread⟩ := (Runs.create create_pair).outputs_apart hrep.perform hout
  have hreads := (hread ⟨"/dist"⟩ (pairFiles "1" []).files u (.inl (by decide)) hu).2
    ⟨by decide +kernel, fun _ => by decide +kernel, fun _ => by decide +kernel⟩
    (.inl fun c hc => ?_) fun f hf => ?_
  · refine ⟨rep, _, hrep.perform, hout, hnames, fun f hf => ?_⟩
    rw [BuildResult.writeOutputs, hrep.outputs] at hu
    rw [hfiles, hu]
    exact hreads f hf
  · -- The chunks are called like the entries.
    have hc : c.name ∈ ["main", "other"] := hrep.chunks ▸ List.mem_map_of_mem hc
    have hfree : ∀ name ∈ ["main", "other"], '[' ∉ name.toList := by decide
    exact hfree _ hc
  · have hf : f.fileName ∈ ["main.js", "other.js"] := hnames ▸ List.mem_map_of_mem hf
    have hplain : ∀ name ∈ ["main.js", "other.js"], ∀ n ∈ Path.splitSlashes name.toList,
        '/' ∉ n.toList ∧ Path.isVoid n = false ∧ n ≠ ".." ∧
          ¬ Text.endsWith n ".partial" = true := by decide +kernel
    refine ⟨fun n hn => ?_, fun n hn => ?_⟩
    · obtain ⟨h1, h2, h3, -⟩ := hplain _ hf n hn
      exact ⟨h1, h2, h3⟩
    · exact (hplain _ hf n (List.mem_of_getLast? hn)).2.2.2

end Session

end Bundler

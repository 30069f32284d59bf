import Mathlib.Data.List.Forall2
import Bundler.Proofs.Chunk.Collect
import Bundler.Proofs.Chunk.Names

/-!
# Async chunks

The search for dynamic imports ends with one async chunk for each live target, and every chunk
imports the async chunks of the live targets of its members.
-/

namespace Bundler

theorem exists_of_forall₂ {α β : Type} {R : α → β → Prop} {l : List α} {l' : List β}
    (h : List.Forall₂ R l l') :
    (∀ a ∈ l, ∃ b ∈ l', R a b) ∧ ∀ b ∈ l', ∃ a ∈ l, R a b := by
  induction h with
  | nil => exact ⟨fun _ h => (nomatch h), fun _ h => nomatch h⟩
  | cons hr _ ih =>
    refine ⟨fun a ha => ?_, fun b hb => ?_⟩
    · rcases List.mem_cons.mp ha with rfl | ha
      · exact ⟨_, List.mem_cons_self, hr⟩
      · exact (ih.1 a ha).imp fun _ => And.imp_left (List.mem_cons_of_mem _)
    · rcases List.mem_cons.mp hb with rfl | hb
      · exact ⟨_, List.mem_cons_self, hr⟩
      · exact (ih.2 b hb).imp fun _ => And.imp_left (List.mem_cons_of_mem _)

namespace Partition

/-- The entries of the async chunks among some, with the names of the chunks. -/
def asyncEntries (cs : List Chunk) : List (ModuleId × String) :=
  cs.filterMap fun c => if c.kind = .async then c.entry.map (·, c.name) else none

theorem asyncEntries_append (cs cs' : List Chunk) :
    asyncEntries (cs ++ cs') = asyncEntries cs ++ asyncEntries cs' := List.filterMap_append

theorem mem_asyncEntries {cs : List Chunk} {t : ModuleId} {n : String} :
    (t, n) ∈ asyncEntries cs ↔ ∃ c ∈ cs, c.kind = .async ∧ c.entry = some t ∧ c.name = n := by
  unfold asyncEntries
  rw [List.mem_filterMap]
  refine exists_congr fun c => and_congr_right fun _ => ?_
  by_cases hk : c.kind = .async
  · cases c.entry <;> simp [hk]
  · simp [hk]

/-- No target and no name comes twice. -/
structure OneToOne (table : List (ModuleId × String)) : Prop where
  targets : (table.map (·.1)).Nodup
  names : (table.map (·.2)).Nodup

theorem OneToOne.biUnique {table : List (ModuleId × String)} (h : OneToOne table) :
    Relator.BiUnique fun t n => (t, n) ∈ table :=
  ⟨fun _ _ _ h₁ h₂ => congrArg (·.1) (List.inj_on_of_nodup_map h.names h₁ h₂ rfl),
    fun _ _ _ h₁ h₂ => congrArg (·.2) (List.inj_on_of_nodup_map h.targets h₁ h₂ rfl)⟩

/-- The live ones of some targets, each where it comes first. -/
def liveTargets (g : ModuleGraph) (targets : List ModuleId) : List ModuleId :=
  (Module.distinct targets).filter (g.isLive ·)

theorem mem_liveTargets {g : ModuleGraph} {targets : List ModuleId} {t : ModuleId} :
    t ∈ liveTargets g targets ↔ t ∈ targets ∧ g.isLive t = true := by
  unfold liveTargets
  rw [List.mem_filter, Module.mem_distinct]

/-- Imports are the names of the live targets, in their order. -/
def Imports (g : ModuleGraph) (table : List (ModuleId × String)) (targets : List ModuleId)
    (imports : List String) : Prop :=
  List.Forall₂ (fun t n => (t, n) ∈ table) (liveTargets g targets) imports

namespace Imports

variable {g : ModuleGraph} {table : List (ModuleId × String)} {targets : List ModuleId}
  {imports : List String}

theorem mono {table' : List (ModuleId × String)} (h : Imports g table targets imports)
    (hs : ∀ e ∈ table, e ∈ table') : Imports g table' targets imports :=
  List.Forall₂.imp (fun _ _ => hs _) h

theorem nodup (h : Imports g table targets imports) (ht : OneToOne table) : imports.Nodup :=
  (List.rel_nodup ht.biUnique h).mp ((Module.distinct_nodup targets).filter _)

theorem listed (h : Imports g table targets imports) {t : ModuleId} (ht : t ∈ targets)
    (hl : g.isLive t = true) : ∃ n ∈ imports, (t, n) ∈ table :=
  (exists_of_forall₂ h).1 t (mem_liveTargets.mpr ⟨ht, hl⟩)

theorem mem (h : Imports g table targets imports) (ht : OneToOne table) {n : String} :
    n ∈ imports ↔ ∃ t ∈ targets, g.isLive t = true ∧ (t, n) ∈ table := by
  constructor
  · intro hn
    obtain ⟨t, hm, hmem⟩ := (exists_of_forall₂ h).2 n hn
    obtain ⟨hm, hl⟩ := mem_liveTargets.mp hm
    exact ⟨t, hm, hl, hmem⟩
  · rintro ⟨t, hm, hl, hmem⟩
    exact (List.rel_mem ht.biUnique hmem h).mp (mem_liveTargets.mpr ⟨hm, hl⟩)

end Imports

/-- The async chunk of a target, before it has imports. -/
def asyncChunk (g : ModuleGraph) (name : String) (target : ModuleId) : Chunk :=
  { name, kind := .async, entry := some target, modules := g.collect target false }

/-! ## One chunk -/

namespace Discovery

/-- What is known of a discovery that began with some async chunks and has noted some targets. -/
structure Noted (g : ModuleGraph) (asyncs : List (ModuleId × String)) (targets : List ModuleId)
    (d : Discovery) : Prop where
  table : d.asyncs = (asyncEntries d.created).reverse ++ asyncs
  oneToOne : OneToOne d.asyncs
  taken : ∀ e ∈ d.asyncs, e.2 ∈ d.names
  made : ∀ c ∈ d.created, ∃ t ∈ targets, g.isLive t = true ∧ c = asyncChunk g c.name t
  imports : Imports g d.asyncs targets d.imports

theorem liveTargets_append (g : ModuleGraph) (targets : List ModuleId) (t : ModuleId) :
    liveTargets g (targets ++ [t]) =
      if t ∉ targets ∧ g.isLive t = true then liveTargets g targets ++ [t]
      else liveTargets g targets := by
  have hd : Module.distinct (targets ++ [t]) =
      if t ∈ targets then Module.distinct targets else Module.distinct targets ++ [t] := by
    have hstep : Module.distinct (targets ++ [t]) =
        if (Module.distinct targets).contains t then Module.distinct targets
        else Module.distinct targets ++ [t] := List.foldl_append ..
    simp only [hstep, List.contains_iff_mem, Module.mem_distinct]
  unfold liveTargets
  rw [hd]
  by_cases ht : t ∈ targets
  · simp [ht]
  · cases hl : g.isLive t <;> simp [ht, hl, List.filter_append]

theorem imports_addImport {g : ModuleGraph} {d : Discovery} {targets : List ModuleId}
    {t : ModuleId} {n : String} (hi : Imports g d.asyncs targets d.imports)
    (ho : OneToOne d.asyncs) (hl : g.isLive t = true) (hm : (t, n) ∈ d.asyncs) :
    Imports g d.asyncs (targets ++ [t]) (d.addImport n).imports := by
  unfold Imports addImport
  rw [liveTargets_append]
  by_cases ht : t ∈ targets
  · have hn : n ∈ d.imports := (hi.mem ho).mpr ⟨t, ht, hl, hm⟩
    rw [if_neg fun h => h.1 ht, if_pos (List.contains_iff_mem.mpr hn)]
    exact hi
  · have hn : n ∉ d.imports := fun hn => by
      obtain ⟨t', ht', -, hm'⟩ := (hi.mem ho).mp hn
      exact ht (ho.biUnique.1 hm hm' ▸ ht')
    rw [if_pos ⟨ht, hl⟩, if_neg fun h => hn (List.contains_iff_mem.mp h)]
    exact List.rel_append hi (.cons hm .nil)

theorem Noted.note {g : ModuleGraph} {asyncs : List (ModuleId × String)} {targets : List ModuleId}
    {d : Discovery} (h : d.Noted g asyncs targets) (t : ModuleId) :
    (d.note g t).Noted g asyncs (targets ++ [t]) := by
  have hmade : ∀ c ∈ d.created, ∃ t' ∈ targets ++ [t], g.isLive t' = true ∧
      c = asyncChunk g c.name t' := fun c hc =>
    (h.made c hc).imp fun _ => And.imp_left (List.mem_append_left _)
  unfold Discovery.note
  split
  next hl =>
    split
    next t' n hf =>
      -- The target has a chunk already.
      have ht' : t' = t := by simpa using List.find?_some hf
      have hm : (t, n) ∈ d.asyncs := ht' ▸ List.mem_of_find?_eq_some hf
      exact ⟨h.table, h.oneToOne, h.taken, hmade, imports_addImport h.imports h.oneToOne hl hm⟩
    next hf =>
      -- A new chunk, whose name and target are new to the table.
      have hnew : t ∉ d.asyncs.map (·.1) := by
        intro hm
        obtain ⟨e, he, rfl⟩ := List.mem_map.mp hm
        simpa using List.find?_eq_none.mp hf e he
      have hfresh : freshName d.names (stem t) ∉ d.asyncs.map (·.2) := by
        intro hm
        obtain ⟨e, he, hen⟩ := List.mem_map.mp hm
        exact freshName_not_mem _ _ (hen ▸ h.taken e he)
      have ho : OneToOne ((t, freshName d.names (stem t)) :: d.asyncs) :=
        ⟨List.nodup_cons.mpr ⟨hnew, h.oneToOne.targets⟩,
          List.nodup_cons.mpr ⟨hfresh, h.oneToOne.names⟩⟩
      refine ⟨?_, ho, fun e he => ?_, fun c hc => ?_, ?_⟩
      · dsimp only [addImport]
        rw [asyncEntries_append, List.reverse_append, h.table]
        rfl
      · rcases List.mem_cons.mp he with rfl | he
        · exact List.mem_cons_self
        · exact List.mem_cons_of_mem _ (h.taken e he)
      · rcases List.mem_append.mp hc with hc | hc
        · exact hmade c hc
        · rw [List.mem_singleton.mp hc]
          exact ⟨t, List.mem_append_right _ List.mem_cons_self, hl, rfl⟩
      · have hi : Imports g ((t, freshName d.names (stem t)) :: d.asyncs) targets d.imports :=
          h.imports.mono fun _ => List.mem_cons_of_mem _
        exact @imports_addImport g { d with asyncs := _ } _ _ _ hi ho hl List.mem_cons_self
  next hl =>
    refine ⟨h.table, h.oneToOne, h.taken, hmade, ?_⟩
    unfold Imports
    rw [liveTargets_append, if_neg fun hn => hl hn.2]
    exact h.imports

theorem noted_ofChunk (g : ModuleGraph) {names : List String} {asyncs : List (ModuleId × String)}
    (ho : OneToOne asyncs) (ht : ∀ e ∈ asyncs, e.2 ∈ names) (c : Chunk) :
    (ofChunk g names asyncs c).Noted g asyncs (dynamicTargets g c) := by
  have hfold : ∀ (ts before : List ModuleId) (d : Discovery), d.Noted g asyncs before →
      (ts.foldl (Discovery.note g) d).Noted g asyncs (before ++ ts) := by
    intro ts
    induction ts with
    | nil => exact fun before d h => (List.append_nil before).symm ▸ h
    | cons t ts ih =>
      intro before d h
      have := ih _ _ (h.note t)
      rwa [List.append_assoc] at this
  exact hfold _ [] _ ⟨rfl, ho, ht, fun _ hc => (nomatch hc), .nil⟩

theorem mem_dynamicTargets {g : ModuleGraph} {c : Chunk} {t : ModuleId} :
    t ∈ dynamicTargets g c ↔ ∃ a ∈ c.modules, ∃ m, g.get? a = some m ∧ t ∈ m.dynamicTargets := by
  unfold dynamicTargets
  rw [List.mem_flatMap]
  refine exists_congr fun a => and_congr_right fun _ => ?_
  cases g.get? a <;> simp

end Discovery

/-! ## All chunks -/

/-- A chunk without its imports. -/
def plain (c : Chunk) : Chunk := { c with dynamicImports := [] }

/-- The search keeps the chunks that it begins with, puts an async chunk behind them for each live
target that had none, and gives all of them their imports. -/
theorem discover_spec (g : ModuleGraph) (names : List String) (asyncs : List (ModuleId × String))
    (pending : List Chunk) (ho : OneToOne asyncs) (ht : ∀ e ∈ asyncs, e.2 ∈ names) :
    ∃ made, (∀ c ∈ made, ∃ t, g.isLive t = true ∧ c = asyncChunk g c.name t) ∧
      OneToOne ((asyncEntries made).reverse ++ asyncs) ∧
      (discover g names asyncs pending).map plain = (pending ++ made).map plain ∧
      ∀ c ∈ discover g names asyncs pending, Imports g ((asyncEntries made).reverse ++ asyncs)
        (Discovery.dynamicTargets g c) c.dynamicImports := by
  fun_induction discover g names asyncs pending with
  | case1 names asyncs =>
    exact ⟨[], fun _ hc => absurd hc List.not_mem_nil, ho, rfl,
      fun _ hc => absurd hc List.not_mem_nil⟩
  | case2 names asyncs c rest d ih =>
    have hd : d.Noted g asyncs (Discovery.dynamicTargets g c) := Discovery.noted_ofChunk g ho ht c
    obtain ⟨made, hmade, hone, hplain, himp⟩ := ih hd.oneToOne hd.taken
    -- The table only grows, so that imports that were noted early stay right.
    have htable : (asyncEntries (d.created ++ made)).reverse ++ asyncs =
        (asyncEntries made).reverse ++ d.asyncs := by
      rw [asyncEntries_append, List.reverse_append, List.append_assoc, ← hd.table]
    refine ⟨d.created ++ made, fun x hx => ?_, htable ▸ hone, ?_, fun x hx => ?_⟩
    · rcases List.mem_append.mp hx with hx | hx
      · exact (hd.made x hx).imp fun _ h => h.2
      · exact hmade x hx
    · rw [List.map_cons, hplain, List.cons_append, List.map_cons, List.append_assoc]
      rfl
    · rw [htable]
      rcases List.mem_cons.mp hx with rfl | hx
      · exact hd.imports.mono fun _ h => List.mem_append_right _ h
      · exact himp x hx

/-- What holds of the chunks that the search begins with, is handed on to the async chunks of what a
chunk imports, and does not depend on imports that were noted, holds of all chunks. -/
theorem discover_keeps {P : Chunk → Prop} {g : ModuleGraph}
    (hmade : ∀ {c t}, P c → t ∈ Discovery.dynamicTargets g c → g.isLive t = true →
      ∀ name, P (asyncChunk g name t))
    (himports : ∀ {c}, P c → ∀ imports, P { c with dynamicImports := imports })
    (names : List String) (asyncs : List (ModuleId × String)) (pending : List Chunk)
    (ho : OneToOne asyncs) (ht : ∀ e ∈ asyncs, e.2 ∈ names) (hp : ∀ c ∈ pending, P c) :
    ∀ c ∈ discover g names asyncs pending, P c := by
  fun_induction discover g names asyncs pending with
  | case1 names asyncs => exact fun _ hc => absurd hc List.not_mem_nil
  | case2 names asyncs c rest d ih =>
    have hd : d.Noted g asyncs (Discovery.dynamicTargets g c) := Discovery.noted_ofChunk g ho ht c
    have hc := hp c List.mem_cons_self
    intro x hx
    rcases List.mem_cons.mp hx with rfl | hx
    · exact himports hc d.imports
    apply ih hd.oneToOne hd.taken _ x hx
    intro y hy
    rcases List.mem_append.mp hy with hy | hy
    · exact hp y (List.mem_cons_of_mem _ hy)
    · obtain ⟨t, ht, hl, he⟩ := hd.made y hy
      rw [he]
      exact hmade hc ht hl y.name

end Partition

end Bundler

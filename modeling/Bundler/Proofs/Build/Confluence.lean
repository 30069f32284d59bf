import Bundler.Proofs.Build.Plan

/-!
# Passes end alike

The graph that a pass comes to rest with, if it is not cancelled, does not depend on the order in
which its tasks deliver: it is the one that the plan of the pass describes (`Plan.Settles`).
-/

namespace Bundler

namespace Pass

/-- What the graph of a pass at rest has at each id. -/
structure Plan.Settles (P : Plan) (output : ModuleId → Module → Prop) (g : ModuleGraph) :
    Prop where
  needed : ∀ id, P.Needed id → ∃ m, output id m ∧ g.get? id = some m
  kept : ∀ id m, ¬ P.Needed id → P.graph.get? id = some m → g.get? id = some m
  outside : ∀ id, ¬ P.Needed id → P.graph.get? id = none → P.Excludes id →
    g.get? id = some (.outside id)
  deferred : ∀ id, ¬ P.Needed id → P.graph.get? id = none → P.Awaits id →
    g.get? id = some (.placeholder id)
  absent : ∀ id, ¬ P.Needed id → P.graph.get? id = none → ¬ P.Excludes id → ¬ P.Awaits id →
    g.get? id = none

/-! ## The start -/

section
variable {P : Plan} {output : ModuleId → Module → Prop} {ended : List ModuleId} {p q : Pass}

theorem Advanced.congr (h : p.Advanced P output ended) (hv : q.visited = p.visited)
    (ho : q.outstanding = p.outstanding) (hi : q.inFlight = p.inFlight) (he : q.eager = p.eager)
    (hg : ∀ id, q.graph.get? id = p.graph.get? id) : q.Advanced P output ended := by
  have hc : ∀ id, p.graph.contains id = true → q.graph.contains id = true := by
    intro id
    rw [ModuleGraph.contains_iff, ModuleGraph.contains_iff, hg]
    exact fun h => h
  have hgrows : p.Grows q := by
    refine ⟨hc, by rw [hv]; exact fun _ h => h, fun id hm => ?_⟩
    unfold Met
    rw [hv, hg]
    exact hm
  refine ⟨h.toTidy.of_eq hv ho hi, he.trans h.eager, ?_, ?_, ?_, ?_⟩
  · rw [hv]
    exact h.needed
  · intro id
    rw [hv, ho, hg]
    exact h.held id
  · intro id hid hio hie d hd
    rw [hv] at hid
    rw [ho] at hio
    exact (h.followed id hid hio hie d hd).mono hgrows
  · intro id
    rw [hv, hg]
    exact h.others id

/-- A resolved entry has a task, or needs none. -/
def Admits (P : Plan) (e : (String × String) × Resolution) (p : Pass) : Prop :=
  ∀ t, e.2.outcome = .ok t → t.external = false → t.id ∈ p.visited ∨ ¬ P.Open t.id

theorem Admits.mono {e : (String × String) × Resolution} (h : p.Admits P e)
    (hv : ∀ id ∈ p.visited, id ∈ q.visited) : q.Admits P e :=
  fun t ht hx => (h t ht hx).imp_left (hv t.id)

/-- A pass that has started tasks and delivered none. -/
structure Begun (P : Plan) (output : ModuleId → Module → Prop) (p : Pass) : Prop
    extends p.Advanced P output [] where
  untouched : ∀ id, id ∉ p.visited → p.graph.get? id = P.graph.get? id

namespace Begun

theorem new (P : Plan) (output : ModuleId → Module → Prop) :
    Begun P output { graph := P.graph, eager := P.eager } :=
  ⟨.new P output, fun _ _ => rfl⟩

theorem spawn (h : p.Begun P output) {id : ModuleId} (hv : id ∉ p.visited) (hn : P.Needed id) :
    (p.spawn false id).Begun P output := by
  refine ⟨h.toAdvanced.spawn hv hn, fun x hx => ?_⟩
  have hne : x ≠ id := fun e => hx (List.mem_cons.mpr (.inl e))
  rw [spawn_false, ModuleGraph.get?_setState, if_neg hne]
  exact h.untouched x fun hm => hx (List.mem_cons_of_mem _ hm)

/-- An id gets a task if it is absent or a placeholder at the start. -/
theorem enqueue (h : p.Begun P output) {id : ModuleId} (hn : P.Open id → P.Needed id) :
    (p.enqueue false id).Begun P output ∧
      (id ∈ (p.enqueue false id).visited ∨ ¬ P.Open id) := by
  unfold Pass.enqueue
  split
  next hv => exact ⟨h, .inl (List.contains_iff_mem.mp hv)⟩
  next hv =>
    have hv : id ∉ p.visited := fun hm => hv (List.contains_iff_mem.mpr hm)
    have hid := h.untouched id hv
    split
    next m hm =>
      rw [hm] at hid
      split
      next hl =>
        have ho : P.Open id := fun m' hm' => Option.some.inj (hid.trans hm') ▸ hl
        exact ⟨h.spawn hv (hn ho), .inl List.mem_cons_self⟩
      next hl => exact ⟨h, .inr fun ho => hl (ho m hid.symm)⟩
    next hm =>
      rw [hm] at hid
      have ho : P.Open id := fun m' hm' => nomatch hid.trans hm'
      exact ⟨h.spawn hv (hn ho), .inl List.mem_cons_self⟩

theorem reprocess (h : p.Begun P output) {id : ModuleId} (hn : P.Needed id) :
    (p.reprocess false id).Begun P output ∧ id ∈ (p.reprocess false id).visited := by
  unfold Pass.reprocess
  split
  next hv => exact ⟨h, List.contains_iff_mem.mp hv⟩
  next hv =>
    exact ⟨h.spawn (fun hm => hv (List.contains_iff_mem.mpr hm)) hn, List.mem_cons_self⟩

/-- A resolved entry is compiled if it is absent or a placeholder at the start. -/
theorem seed (h : p.Begun P output) (root : Path) {e : (String × String) × Resolution}
    (he : e ∈ P.seeds.entries) : (p.seed root false e.1.1 e.1.2 e.2).Begun P output ∧
      (p.seed root false e.1.1 e.1.2 e.2).Admits P e := by
  have hsame : ∀ g : ModuleGraph, (∀ id, g.get? id = p.graph.get? id) →
      Begun P output { p with graph := g } := fun g hg =>
    ⟨h.toAdvanced.congr rfl rfl rfl rfl hg, fun id hid => (hg id).trans (h.untouched id hid)⟩
  unfold Pass.seed
  split
  next t ht =>
    split
    next hx =>
      refine ⟨hsame _ fun _ => rfl, fun t' ht' hx' => ?_⟩
      rw [ht] at ht'
      cases ht'
      rw [hx] at hx'
      cases hx'
    next hx =>
      have hn : P.Open t.id → P.Needed t.id := fun ho => .entry he ht (by simpa using hx) ho
      obtain ⟨h₁, h₂⟩ := (hsame (p.graph.setEntry e.1.1 t.id) fun _ => rfl).enqueue hn
      refine ⟨h₁, fun t' ht' _ => ?_⟩
      rw [ht] at ht'
      cases ht'
      exact h₂
  next err herr =>
    refine ⟨hsame _ fun _ => rfl, fun t ht => ?_⟩
    rw [herr] at ht
    cases ht

end Begun

theorem mem_visited_enqueue {id x : ModuleId} (h : x ∈ p.visited) (c : Bool) :
    x ∈ (p.enqueue c id).visited := by
  refine enqueue_keeps (I := fun q => x ∈ q.visited) h c id fun _ _ => ?_
  cases c <;> exact List.mem_cons_of_mem _ h

theorem mem_visited_seed {x : ModuleId} (h : x ∈ p.visited) (root : Path) (c : Bool)
    (name specifier : String) (r : Resolution) :
    x ∈ (p.seed root c name specifier r).visited := by
  apply seed_keeps (I := fun q => x ∈ q.visited) root c name specifier r (fun _ => h)
  intro id
  have hg : x ∈ Pass.visited { p with graph := p.graph.setEntry name id } := h
  exact mem_visited_enqueue hg c

theorem mem_visited_reprocess {id x : ModuleId} (h : x ∈ p.visited) (c : Bool) :
    x ∈ (p.reprocess c id).visited := by
  refine reprocess_keeps (I := fun q => x ∈ q.visited) h c id fun _ => ?_
  cases c <;> exact List.mem_cons_of_mem _ h

theorem mem_visited_follow {x : ModuleId} (h : x ∈ p.visited) (lazyCompilation c : Bool)
    (d : Dependency) : x ∈ (p.follow lazyCompilation c d).visited := by
  refine follow_keeps (I := fun q => x ∈ q.visited) h lazyCompilation c d (fun _ _ => h)
    (fun _ _ _ => h) fun t _ _ => ?_
  cases c <;> exact List.mem_cons_of_mem _ h

theorem Runs.mem_visited {r : Rules} {q : Pass} {x : ModuleId} (hr : Runs r p q)
    (h : x ∈ p.visited) : x ∈ q.visited := by
  induction hr with
  | refl => exact h
  | tail _ hd ih =>
    obtain ⟨_, _, hf⟩ := hd
    exact hf.keeps (I := fun s => x ∈ s.visited)
      (fun c _ d _ s hs => mem_visited_follow hs r.lazyCompilation c d) ih

end

/-- The seeds of a pass are seen to at its start. -/
structure Sown (P : Plan) (p : Pass) : Prop where
  reprocessed : ∀ id ∈ P.seeds.reprocessed, id ∈ p.visited
  entries : ∀ e ∈ P.seeds.entries, p.Admits P e

theorem Begun.begins {P : Plan} {r : Rules} {root : Path} {p : Pass} (hb : P.Binds r)
    (h : Begins r root P.seeds { graph := P.graph, eager := P.eager } p) :
    p.Begun P r.output ∧ p.Sown P := by
  cases h with
  | intro he hr =>
    have hse : ∀ c, r.seen c → ∀ e ∈ P.seeds.entries, ∀ s : Pass, s.Begun P r.output →
        (s.seed root c e.1.1 e.1.2 e.2).Begun P r.output := by
      intro c hc e he s hs
      rw [hb.seen c hc]
      exact (hs.seed root he).1
    have hsr : ∀ c, r.seen c → ∀ id ∈ P.seeds.reprocessed, ∀ s : Pass, s.Begun P r.output →
        (s.reprocess c id).Begun P r.output := by
      intro c hc id hid s hs
      rw [hb.seen c hc]
      exact (hs.reprocess (.reprocessed hid)).1
    have hq := he.keeps hse (.new P r.output)
    have hentries := he.brings (J := fun e s => s.Admits P e) hse
      (fun c hc e he s hs => by rw [hb.seen c hc]; exact (hs.seed root he).2)
      (fun c _ _ _ _ _ _ hs => hs.mono fun _ hv => mem_visited_seed hv root c _ _ _)
      (.new P r.output)
    refine ⟨hr.keeps hsr hq, ?_, fun e hem => ?_⟩
    · exact hr.brings (J := fun id s => id ∈ s.visited) hsr
        (fun c hc id hid s hs => by
          rw [hb.seen c hc]; exact (hs.reprocess (.reprocessed hid)).2)
        (fun c _ _ _ _ s _ hs => mem_visited_reprocess hs c) hq
    · refine (hentries e hem).mono fun x hv => ?_
      exact hr.keeps (I := fun s => x ∈ s.visited)
        (fun c _ _ _ s hs => mem_visited_reprocess hs c) hv

/-! ## The end -/

section
variable {P : Plan} {r : Rules} {p q : Pass}

theorem Sown.runs (h : p.Sown P) (hr : Runs r p q) : q.Sown P where
  reprocessed id hid := hr.mem_visited (h.reprocessed id hid)
  entries e he := (h.entries e he).mono fun _ hv => hr.mem_visited hv

/-- At rest, the ids that had a task are those that are needed. -/
theorem Advanced.mem_visited (hu : P.Unambiguous) (h : q.Advanced P r.output []) (hs : q.Sown P)
    (hrest : q.outstanding = []) {id : ModuleId} : id ∈ q.visited ↔ P.Needed id := by
  refine ⟨h.needed id, fun hn => ?_⟩
  have hout : ∀ x, x ∉ q.outstanding := fun x hx => by rw [hrest] at hx; cases hx
  induction hn with
  | reprocessed hid => exact hs.reprocessed _ hid
  | entry he ht hx ho => exact (hs.entries _ he _ ht hx).resolve_right fun hno => hno ho
  | @dependency k t d hk hd hw ho ih =>
    have hf := h.followed k ih (hout k) (fun hm => nomatch hm) d hd
    by_contra hv
    obtain ⟨m, hm, hl⟩ := (hf.wanted t hw).resolve_left hv
    rcases h.others t hv with he | ⟨-, ⟨hx, -⟩ | ⟨-, he⟩⟩
    · rw [ho m (he ▸ hm)] at hl
      cases hl
    · exact hu.not_wants hx hk hd hw
    · rw [hm] at he
      cases he
      cases hl

/-- At rest, the graph is the one that the plan describes. -/
theorem Advanced.settles (hu : P.Unambiguous) (h : q.Advanced P r.output []) (hs : q.Sown P)
    (hrest : q.outstanding = []) : P.Settles r.output q.graph := by
  have hvis : ∀ {id}, id ∈ q.visited ↔ P.Needed id := h.mem_visited hu hs hrest
  have hout : ∀ x, x ∉ q.outstanding := fun x hx => by rw [hrest] at hx; cases hx
  have hfol : ∀ k, P.Needed k → ∀ d ∈ P.dependencies k, q.Followed P d := fun k hk =>
    h.followed k (hvis.mpr hk) (hout k) fun hm => nomatch hm
  have hoth : ∀ {id}, ¬ P.Needed id → _ := fun {id} hn => h.others id fun hv => hn (hvis.mp hv)
  refine ⟨fun id hn => ?_, fun id m hn hm => ?_, fun id hn hm hx => ?_, fun id hn hm ha => ?_,
    fun id hn hm hx ha => ?_⟩
  · exact h.held id (hvis.mpr hn) (hout id) fun hm => nomatch hm
  · rcases hoth hn with he | ⟨hnone, -⟩
    · exact he.trans hm
    · rw [hm] at hnone
      cases hnone
  · obtain ⟨k, hk, d, hd, hdx, hdt⟩ := hx
    obtain ⟨m, hmem⟩ := ModuleGraph.contains_iff.mp ((hfol k hk d hd).outside id hdx hdt)
    rcases hoth hn with he | ⟨-, ⟨-, he⟩ | ⟨ha, -⟩⟩
    · rw [hmem, hm] at he
      cases he
    · exact he
    · exact absurd ha (hu.not_awaits ⟨k, hk, d, hd, hdx, hdt⟩)
  · have hnx : ¬ P.Excludes id := fun hx => hu.not_awaits hx ha
    obtain ⟨k, hk, d, hd, hdef⟩ := ha
    have hc := ((hfol k hk d hd).deferred id hdef).resolve_right fun hv => hn (hvis.mp hv)
    obtain ⟨m, hmem⟩ := ModuleGraph.contains_iff.mp hc
    rcases hoth hn with he | ⟨-, ⟨hx, -⟩ | ⟨-, he⟩⟩
    · rw [hmem, hm] at he
      cases he
    · exact absurd hx hnx
    · exact he
  · rcases hoth hn with he | ⟨-, ⟨hx', -⟩ | ⟨ha', -⟩⟩
    · exact he.trans hm
    · exact absurd hx' hx
    · exact absurd ha' ha

end

/-- Two graphs that a plan with one module for each id describes have the same modules. -/
theorem Plan.Settles.get?_eq {P : Plan} {process : ModuleId → Module} {g g' : ModuleGraph}
    (h : P.Settles (fun id m => m = process id) g) (h' : P.Settles (fun id m => m = process id) g')
    (id : ModuleId) : g.get? id = g'.get? id := by
  by_cases hn : P.Needed id
  · obtain ⟨m, rfl, hm⟩ := h.needed id hn
    obtain ⟨m', rfl, hm'⟩ := h'.needed id hn
    rw [hm, hm']
  · cases hm : P.graph.get? id with
    | some m => rw [h.kept id m hn hm, h'.kept id m hn hm]
    | none =>
      by_cases hx : P.Excludes id
      · rw [h.outside id hn hm hx, h'.outside id hn hm hx]
      · by_cases ha : P.Awaits id
        · rw [h.deferred id hn hm ha, h'.deferred id hn hm ha]
        · rw [h.absent id hn hm hx ha, h'.absent id hn hm hx ha]

/-! ## How often tasks are started -/

namespace Counted

variable {ended : List ModuleId} {p : Pass}

theorem spawn (h : p.Counted ended) (id : ModuleId) : (p.spawn false id).Counted ended := by
  refine ⟨congrArg (· + 1) h.spawned, ?_⟩
  rw [spawn_false]
  dsimp only
  rw [← List.append_assoc]
  exact (List.perm_append_singleton _ _).trans (h.processed.cons id)

theorem record (h : p.Counted ended) (m : Module) : (p.record m).Counted ended :=
  ⟨h.spawned, by rw [processed_record]; exact h.processed⟩

theorem follow (h : p.Counted ended) (lazyCompilation : Bool) (d : Dependency) :
    (p.follow lazyCompilation false d).Counted ended :=
  follow_keeps (I := Counted ended) h lazyCompilation false d (fun _ _ => h.record _)
    (fun _ _ _ => h.record _) fun t _ _ => h.spawn t

theorem seed (h : p.Counted ended) (root : Path) (name specifier : String) (r : Resolution) :
    (p.seed root false name specifier r).Counted ended := by
  have hg : ∀ g, Counted ended { p with graph := g } := fun _ => ⟨h.spawned, h.processed⟩
  exact seed_keeps root false name specifier r (fun _ => hg _) fun id =>
    enqueue_keeps (hg _) false id fun _ _ => (hg _).spawn id

theorem delivers {P : Plan} {r : Rules} {q : Pass} (hb : P.Binds r) (h : p.Counted [])
    (hd : Delivers r p q) : q.Counted [] := by
  cases hd with
  | @intro s id m hid hm hf =>
    obtain rfl := hb.id id m hm
    have h0 : (p.takeIn m.id).Counted [m.id] := by
      refine ⟨h.spawned, ?_⟩
      have hp := h.processed
      rw [List.append_nil] at hp
      refine List.Perm.trans ?_ hp
      rw [List.append_assoc]
      exact (List.perm_cons_erase hid).symm.append_left _
    have hs := hf.keeps (I := Counted [m.id])
      (fun c hc d _ s hs => by rw [hb.seen c hc]; exact hs.follow _ d) h0
    refine ⟨hs.spawned, ?_⟩
    rw [processed_accept, List.append_nil]
    exact hs.processed

theorem begins {P : Plan} {r : Rules} {root : Path} (hb : P.Binds r)
    (h : Begins r root P.seeds { graph := P.graph, eager := P.eager } p) : p.Counted [] := by
  cases h with
  | intro he hr =>
    have h0 : Counted [] { graph := P.graph, eager := P.eager } := ⟨rfl, .nil⟩
    have h1 := he.keeps (I := Counted [])
      (fun c hc _ _ s hs => by rw [hb.seen c hc]; exact hs.seed root _ _ _) h0
    exact hr.keeps (I := Counted [])
      (fun c hc id _ s hs => by
        rw [hb.seen c hc]
        exact reprocess_keeps (I := Counted []) hs false id fun _ => hs.spawn id) h1

theorem runs {P : Plan} {r : Rules} {q : Pass} (hb : P.Binds r) (h : p.Counted [])
    (hr : Runs r p q) : q.Counted [] := by
  induction hr with
  | refl => exact h
  | tail _ hd ih => exact ih.delivers hb hd

end Counted

theorem processed_follow (p : Pass) (lazyCompilation c : Bool) (d : Dependency) :
    (p.follow lazyCompilation c d).delta.processed = p.delta.processed :=
  follow_keeps (I := fun s => s.delta.processed = p.delta.processed) rfl _ c d
    (fun _ _ => processed_record ..) (fun _ _ _ => processed_record ..)
    fun t _ _ => processed_spawn p c t

theorem processed_of_follows {seen : Bool → Prop} {lazyCompilation : Bool} {ds : List Dependency}
    {p q : Pass} (h : Each seen (fun c p d => p.follow lazyCompilation c d) p ds q) :
    q.delta.processed = p.delta.processed :=
  h.keeps (I := fun s => s.delta.processed = p.delta.processed)
    (fun c _ d _ s hs => (processed_follow s _ c d).trans hs) rfl

theorem length_processed_delivers {r : Rules} {p q : Pass} (h : Delivers r p q) :
    q.delta.processed.length = p.delta.processed.length + 1 := by
  cases h with
  | @intro s id m hid hm hf =>
    rw [processed_accept, processed_of_follows hf, List.length_append, List.length_singleton]
    rfl

/-- A pass that may process only some ids comes to rest: each delivery processes one more. -/
theorem Advanced.rests {P : Plan} {r : Rules} {p : Pass} (hb : P.Binds r)
    (hseen : r.seen false) (hout : ∀ id, ∃ m, r.output id m) {ids : List ModuleId}
    (hids : ∀ id, P.Needed id → id ∈ ids) (h : p.Advanced P r.output []) (hc : p.Counted []) :
    ∃ q, Runs r p q ∧ q.outstanding = [] := by
  -- The induction is on how many of the ids were not processed yet.
  generalize hn : ids.length - p.delta.processed.length = n
  induction n generalizing p with
  | zero =>
    refine ⟨p, .refl, List.eq_nil_iff_forall_not_mem.mpr fun id hid => ?_⟩
    have hle : p.visited.length ≤ ids.length :=
      h.visited.length_le_of_subset fun x hx => hids x (h.needed x hx)
    have hp := hc.processed.length_eq
    have hpos := List.length_pos_of_mem hid
    simp only [List.length_append, List.length_nil] at hp
    omega
  | succ n ih =>
    cases ho : p.outstanding with
    | nil => exact ⟨p, .refl, ho⟩
    | cons id rest =>
      obtain ⟨m, hm⟩ := hout id
      have hd : Delivers r p (p.deliver r.lazyCompilation false id m) :=
        .of_deliver (by rw [ho]; exact List.mem_cons_self) hm hseen
      have hlen := length_processed_delivers hd
      obtain ⟨q, hq, hrest⟩ := ih (h.delivers hb hd) (hc.delivers hb hd) (by omega)
      exact ⟨q, .head hd hq, hrest⟩

/-! ## Indexes -/

section
variable {r : Rules} {p q : Pass}

theorem indexed_spawn (h : p.graph.Indexed) (c : Bool) (id : ModuleId) :
    (p.spawn c id).graph.Indexed := by
  cases c with
  | false => exact h.setState id .rebuilding
  | true => exact h.insert _

theorem indexed_seed (h : p.graph.Indexed) (root : Path) (c : Bool) (name specifier : String)
    (res : Resolution) : (p.seed root c name specifier res).graph.Indexed := by
  apply seed_keeps (I := fun q => q.graph.Indexed) root c name specifier res
  · exact fun e => h.setEntryError name e
  · intro id
    have hg : ModuleGraph.Indexed (Pass.graph { p with graph := p.graph.setEntry name id }) :=
      h.setEntry name id
    exact enqueue_keeps (I := fun q => q.graph.Indexed) hg c id fun _ _ => indexed_spawn hg c id

theorem Begins.indexed {root : Path} {seeds : Seeds} (h : Begins r root seeds p q)
    (hp : p.graph.Indexed) : q.graph.Indexed := by
  cases h with
  | intro he hr =>
    have hi := he.keeps (I := fun q => q.graph.Indexed)
      (fun c _ _ _ _ hs => indexed_seed hs root c _ _ _) hp
    exact hr.keeps (I := fun q => q.graph.Indexed)
      (fun c _ id _ _ hs => reprocess_keeps (I := fun q => q.graph.Indexed) hs c id
        fun _ => indexed_spawn hs c id) hi

theorem Runs.indexed (h : Runs r p q) (hp : p.graph.Indexed) : q.graph.Indexed := by
  induction h with
  | refl => exact hp
  | tail _ hd ih =>
    obtain ⟨_, _, hf⟩ := hd
    have hs := hf.keeps (I := fun q => q.graph.Indexed)
      (fun c _ d _ _ hs => follow_keeps (I := fun q => q.graph.Indexed) hs _ c d
        (fun _ _ => hs.insert _) (fun _ _ _ => hs.insert _) fun t _ _ => indexed_spawn hs c t) ih
    exact hs.insert _

end

/-! ## Results -/

/-- The tasks of a pass at rest: those for the needed ids, once each. -/
structure Plan.Spends (P : Plan) (q : Pass) : Prop where
  nodup : q.visited.Nodup
  visited : ∀ id, id ∈ q.visited ↔ P.Needed id
  spawned : q.spawned = q.visited.length
  processed : q.delta.processed.Perm q.visited

/-- A pass that is bound to a plan ends with the graph that the plan describes. -/
theorem Completes.settles {P : Plan} {r : Rules} {root : Path} {q : Pass} (hb : P.Binds r)
    (hu : P.Unambiguous) (h : Completes r root P.graph P.eager P.seeds q) :
    P.Settles r.output q.graph ∧ P.Spends q := by
  obtain ⟨p, hbegin, hruns, hrest⟩ := h
  obtain ⟨hp, hs⟩ := Begun.begins hb hbegin
  have hq := hp.toAdvanced.runs hb hruns
  have hsq := hs.runs hruns
  have hc := (Counted.begins hb hbegin).runs hb hruns
  refine ⟨hq.settles hu hsq hrest, hq.visited, fun id => hq.mem_visited hu hsq hrest, hc.spawned, ?_⟩
  have hp := hc.processed
  rwa [hrest, List.append_nil, List.append_nil] at hp

theorem Completes.indexed {r : Rules} {root : Path} {g : ModuleGraph} {eager : List ModuleId}
    {seeds : Seeds} {q : Pass} (h : Completes r root g eager seeds q) (hg : g.Indexed) :
    q.graph.Indexed := by
  obtain ⟨p, hbegin, hruns, -⟩ := h
  exact hruns.indexed (hbegin.indexed hg)

/-- What becomes of the entries is settled at the start. -/
theorem Completes.entries_eq {P : Plan} {r : Rules} {root : Path} {q q' : Pass} (hb : P.Binds r)
    (h : Completes r root P.graph P.eager P.seeds q)
    (h' : Completes r root P.graph P.eager P.seeds q') :
    q.graph.entries = q'.graph.entries ∧ q.graph.entryErrors = q'.graph.entryErrors := by
  obtain ⟨p, ⟨he, hr⟩, hruns, -⟩ := h
  obtain ⟨p', ⟨he', hr'⟩, hruns', -⟩ := h'
  have hp : p = p' := by
    cases he.unique hb.seen he'
    exact hr.unique hb.seen hr'
  subst hp
  rw [hruns.entries_eq.1, hruns.entries_eq.2, hruns'.entries_eq.1, hruns'.entries_eq.2]
  exact ⟨rfl, rfl⟩

/-- However its tasks were ordered so far, a pass that may process only some ids comes to rest. -/
theorem Begins.rests {P : Plan} {r : Rules} {root : Path} {p q : Pass} (hb : P.Binds r)
    (hseen : r.seen false) (hout : ∀ id, ∃ m, r.output id m)
    {ids : List ModuleId} (hids : ∀ id, P.Needed id → id ∈ ids)
    (h : Begins r root P.seeds { graph := P.graph, eager := P.eager } p) (hr : Runs r p q) :
    ∃ s, Runs r q s ∧ s.outstanding = [] :=
  ((Begun.begins hb h).1.toAdvanced.runs hb hr).rests hb hseen hout hids
    ((Counted.begins hb h).runs hb hr)

/-- The plan of a pass whose tasks deliver what a function gives. -/
def Plan.ofProcess (g : ModuleGraph) (eager : List ModuleId) (seeds : Seeds)
    (lazyCompilation : Bool) (process : ModuleId → Module) : Plan :=
  { graph := g, eager, seeds, lazyCompilation
    dependencies := fun id => (process id).dependencies }

/-- Tasks deliver what a function gives, and the session is not cancelled. -/
def Rules.ofProcess (lazyCompilation : Bool) (process : ModuleId → Module) : Rules where
  lazyCompilation
  output id m := m = process id
  seen c := c = false

theorem Plan.binds_ofProcess (g : ModuleGraph) (eager : List ModuleId) (seeds : Seeds)
    (lazyCompilation : Bool) {process : ModuleId → Module} (hid : ∀ id, (process id).id = id) :
    (Plan.ofProcess g eager seeds lazyCompilation process).Binds
      (.ofProcess lazyCompilation process) where
  lazyCompilation := rfl
  seen _ h := h
  id id _ hm := hm ▸ hid id
  dependencies _ _ hm := congrArg Module.dependencies hm

/-- However the tasks of a pass are ordered, the pass comes to rest with one graph, the one that
its plan describes: what is needed holds what its processing gives, every other module stays, and
the only further ones stand for targets outside and for targets that are left for later. Each
needed id is processed once, and nothing else is. -/
theorem Plan.confluent {g : ModuleGraph} {eager : List ModuleId} {seeds : Seeds}
    {lazyCompilation : Bool} {process : ModuleId → Module} (hid : ∀ id, (process id).id = id)
    (hu : (Plan.ofProcess g eager seeds lazyCompilation process).Unambiguous) (root : Path) :
    (∀ ids : List ModuleId,
      (∀ id, (Plan.ofProcess g eager seeds lazyCompilation process).Needed id → id ∈ ids) →
      ∃ p, Begins (.ofProcess lazyCompilation process) root seeds { graph := g, eager } p ∧
        ∀ s, Runs (.ofProcess lazyCompilation process) p s →
          ∃ q, Runs (.ofProcess lazyCompilation process) s q ∧ q.outstanding = []) ∧
    ∀ q, Completes (.ofProcess lazyCompilation process) root g eager seeds q →
      (Plan.ofProcess g eager seeds lazyCompilation process).Settles
        (fun id m => m = process id) q.graph ∧
      (Plan.ofProcess g eager seeds lazyCompilation process).Spends q ∧
      ∀ q', Completes (.ofProcess lazyCompilation process) root g eager seeds q' →
        (∀ id, q.graph.get? id = q'.graph.get? id) ∧ q.graph.entries = q'.graph.entries ∧
        q.graph.entryErrors = q'.graph.entryErrors ∧ (g.Indexed → q.graph = q'.graph) := by
  have hb := Plan.binds_ofProcess g eager seeds lazyCompilation hid
  refine ⟨fun ids hids => ?_, fun q hq => ?_⟩
  · obtain ⟨p, hp⟩ := @exists_begins (.ofProcess lazyCompilation process) rfl root seeds
      { graph := g, eager }
    exact ⟨p, hp, fun s hs => Begins.rests hb rfl (fun id => ⟨process id, rfl⟩) hids hp hs⟩
  · obtain ⟨hset, hspends⟩ := Completes.settles hb hu hq
    refine ⟨hset, hspends, fun q' hq' => ?_⟩
    have hget := hset.get?_eq (Completes.settles hb hu hq').1
    obtain ⟨hent, herr⟩ := Completes.entries_eq hb hq hq'
    exact ⟨hget, hent, herr, fun hg => (hq.indexed hg).ext (hq'.indexed hg) hget hent herr⟩

/-- An entry that imports itself, a module and a package outside, and leaves a page for later. -/
theorem Plan.confluent_of_four :
    ∃ (process : ModuleId → Module) (q : Pass),
      Completes (.ofProcess true process) ⟨"/p"⟩ {} [] { reprocessed := [⟨"/p/a.js"⟩] } q ∧
      q.graph.get? ⟨"/p/b.js"⟩ = some (process ⟨"/p/b.js"⟩) ∧
      q.graph.get? ⟨"x"⟩ = some (.outside ⟨"x"⟩) ∧
      q.graph.get? ⟨"/p/c.js"⟩ = some (.placeholder ⟨"/p/c.js"⟩) := by
  let da : Dependency := ⟨"./a.js", .staticImport, 1, some ⟨"/p/a.js"⟩, false⟩
  let db : Dependency := ⟨"./b.js", .staticImport, 2, some ⟨"/p/b.js"⟩, false⟩
  let dx : Dependency := ⟨"x", .staticImport, 3, some ⟨"x"⟩, true⟩
  let dc : Dependency := ⟨"./c.js", .dynamicImport, 4, some ⟨"/p/c.js"⟩, false⟩
  let process : ModuleId → Module := fun id =>
    { id, dependencies := if id = ⟨"/p/a.js"⟩ then [da, db, dx, dc] else [], state := .fresh }
  let P := Plan.ofProcess {} [] { reprocessed := [⟨"/p/a.js"⟩] } true process
  have hdeps : ∀ {id d}, d ∈ P.dependencies id → d ∈ [da, db, dx, dc] := by
    intro id d hd
    change d ∈ (if id = ⟨"/p/a.js"⟩ then [da, db, dx, dc] else []) at hd
    split at hd
    · exact hd
    · cases hd
  have hout : ∀ d ∈ [da, db, dx, dc], d.external = true → d.target = some ⟨"x"⟩ := by decide
  have hin : ∀ d ∈ [da, db, dx, dc], d.external = false → d.target ≠ some ⟨"x"⟩ := by decide
  have hstatic : ∀ d ∈ [da, db, dx, dc], d.kind.isStatic = true → d.external = false →
      d.target ∈ [some (⟨"/p/a.js"⟩ : ModuleId), some ⟨"/p/b.js"⟩] := by decide
  have hu : P.Unambiguous := by
    intro k k' _ _ d hd d' hd' hx hx' t ht
    rw [← ht, hout d (hdeps hd) hx]
    exact hin d' (hdeps hd') hx'
  have ha : P.Needed ⟨"/p/a.js"⟩ := .reprocessed List.mem_cons_self
  have hneeded : ∀ id, P.Needed id → id ∈ [(⟨"/p/a.js"⟩ : ModuleId), ⟨"/p/b.js"⟩] := by
    intro id hn
    cases hn with
    | reprocessed h => exact List.mem_cons.mpr (.inl (List.mem_singleton.mp h))
    | entry he => cases he
    | dependency hk hd hw ho =>
      obtain ⟨ht, hx, hl⟩ := hw
      have hs := hstatic _ (hdeps hd) (by simpa [P, Plan.ofProcess] using hl) hx
      rw [ht] at hs
      simpa using hs
  obtain ⟨hrun, hall⟩ := Plan.confluent (fun _ => rfl) hu ⟨"/p"⟩
  obtain ⟨p, hp, hrest⟩ := hrun _ hneeded
  obtain ⟨q, hq, ho⟩ := hrest p .refl
  have hc : Completes (.ofProcess true process) ⟨"/p"⟩ {} [] { reprocessed := [⟨"/p/a.js"⟩] } q :=
    ⟨p, hp, hq, ho⟩
  obtain ⟨hset, -⟩ := hall q hc
  have hda : P.dependencies ⟨"/p/a.js"⟩ = [da, db, dx, dc] := by decide
  have hb : P.Needed ⟨"/p/b.js"⟩ :=
    .dependency ha (d := db) (by rw [hda]; decide) ⟨rfl, rfl, rfl⟩ fun _ h => nomatch h
  have hx : P.Excludes ⟨"x"⟩ := ⟨_, ha, dx, by rw [hda]; decide, rfl, rfl⟩
  have hawaits : P.Awaits ⟨"/p/c.js"⟩ := ⟨_, ha, dc, by rw [hda]; decide, rfl, rfl, rfl⟩
  obtain ⟨_, rfl, hmb⟩ := hset.needed _ hb
  refine ⟨process, q, hc, hmb, hset.outside _ (fun h => ?_) rfl hx,
    hset.deferred _ (fun h => ?_) rfl hawaits⟩
  · exact absurd (hneeded _ h) (by decide)
  · exact absurd (hneeded _ h) (by decide)

end Pass

end Bundler

import Bundler.Proofs.Build.Roles

/-!
# Who asks first

What an id is at the end of a pass is what the dependencies on it made of it, in the order in which
they were followed. An id that the first of them says is outside stays so, even if a later one asks
for its module. In any other order the module is loaded.
-/

namespace Bundler

namespace Pass

section
variable {p : Pass} {x : ModuleId}

/-! ## What is kept -/

/-- What the modules that were delivered depend on, in the order in which it was followed. -/
def asked (p : Pass) : List Dependency :=
  p.delta.processed.flatMap fun id => ((p.graph.get? id).map (·.dependencies)).getD []

/-- An id whose task is over has its module in the graph, or one that tells of a cancellation; an id
without a task is as it was, or was not loaded. -/
structure Kept (g : ModuleGraph) (ended : List ModuleId) (p : Pass) : Prop where
  finished : ∀ id, p.Over id → id ∉ ended → ∃ m, p.graph.get? id = some m ∧ m.IsOutput id ∧
    (id ∈ p.delta.processed ∨ m = .failed id [.load id.text "build cancelled"])
  others : ∀ id, id ∉ p.visited → ∀ m, p.graph.get? id = some m →
    m = .outside id ∨ m = .placeholder id ∨ g.get? id = some m

namespace Kept

variable {g : ModuleGraph} {ended : List ModuleId}

theorem new (g : ModuleGraph) (eager : List ModuleId) : Kept g [] { graph := g, eager } :=
  ⟨fun _ h _ => absurd h.1 List.not_mem_nil, fun _ _ _ h => .inr (.inr h)⟩

theorem spawn (h : p.Kept g ended) (c : Bool) {t : ModuleId} (ht : t ∉ p.visited) :
    (p.spawn c t).Kept g ended := by
  constructor
  · intro id hover hend
    by_cases hid : id = t
    · subst hid
      cases c with
      | true => exact ⟨_, (get?_record ..).trans (if_pos rfl), Module.isOutput_failed _ _, .inr rfl⟩
      | false => exact absurd (List.mem_append_right _ List.mem_cons_self) hover.2
    · have hbefore : p.Over id := by
        refine ⟨(List.mem_cons.mp (visited_spawn p c t ▸ hover.1)).resolve_left hid, ?_⟩
        intro ho
        cases c with
        | true => exact hover.2 ho
        | false => exact hover.2 (List.mem_append_left _ ho)
      rw [get?_spawn_of_ne p c hid, processed_spawn]
      exact h.finished id hbefore hend
  · intro id hv m hm
    rw [visited_spawn, List.mem_cons, not_or] at hv
    rw [get?_spawn_of_ne p c hv.1] at hm
    exact h.others id hv.2 m hm

theorem record (h : p.Kept g ended) {m : Module} (hc : p.graph.contains m.id = false)
    (hm : m = .outside m.id ∨ m = .placeholder m.id) : (p.record m).Kept g ended := by
  constructor
  · intro id hover hend
    obtain ⟨m', hm', hout⟩ := h.finished id hover hend
    have hne : id ≠ m.id := by
      rintro rfl
      rw [ModuleGraph.contains_eq_false.mp hc] at hm'
      cases hm'
    rw [get?_record, if_neg hne, processed_record]
    exact ⟨m', hm', hout⟩
  · intro id hv m' hm'
    rw [get?_record] at hm'
    by_cases hid : id = m.id
    · rw [if_pos hid] at hm'
      cases hm'
      rw [hid]
      exact hm.elim .inl fun h => .inr (.inl h)
    · rw [if_neg hid] at hm'
      exact h.others id hv m' hm'

theorem follow (h : p.Kept g ended) (lazyCompilation c : Bool) (d : Dependency) :
    (p.follow lazyCompilation c d).Kept g ended :=
  follow_keeps h lazyCompilation c d (fun _ hc => h.record hc (.inl rfl))
    (fun _ hc _ => h.record hc (.inr rfl)) fun _ hv _ => h.spawn c hv

theorem enqueue (h : p.Kept g ended) (c : Bool) (id : ModuleId) :
    (p.enqueue c id).Kept g ended :=
  enqueue_keeps h c id fun hv _ => h.spawn c hv

theorem reprocess (h : p.Kept g ended) (c : Bool) (id : ModuleId) :
    (p.reprocess c id).Kept g ended :=
  reprocess_keeps h c id fun hv => h.spawn c hv

theorem seed (h : p.Kept g ended) (root : Path) (c : Bool) (name specifier : String)
    (r : Resolution) : (p.seed root c name specifier r).Kept g ended := by
  have hg : ∀ id, Kept g ended { p with graph := p.graph.setEntry name id } :=
    fun _ => ⟨h.finished, h.others⟩
  exact seed_keeps root c name specifier r (fun _ => ⟨h.finished, h.others⟩) fun id =>
    (hg id).enqueue c id

theorem takeIn (h : p.Kept g []) (id : ModuleId) : (p.takeIn id).Kept g [id] := by
  refine ⟨?_, h.others⟩
  intro x hover hend
  refine h.finished x ⟨hover.1, fun ho => hover.2 ?_⟩ List.not_mem_nil
  exact (List.mem_erase_of_ne fun e => hend (List.mem_singleton.mpr e)).mpr ho

theorem accept {m : Module} (h : p.Kept g [m.id]) (hm : m.IsOutput m.id) (hv : m.id ∈ p.visited) :
    (p.accept m).Kept g [] := by
  constructor
  · intro x hover _
    rw [processed_accept, get?_accept]
    by_cases hx : x = m.id
    · rw [if_pos hx]
      exact ⟨m, rfl, hx ▸ hm, .inl (List.mem_append_right _ (List.mem_singleton.mpr hx))⟩
    · rw [if_neg hx]
      obtain ⟨m', hm', hout, hend⟩ := h.finished x ⟨hover.1, hover.2⟩
        fun he => hx (List.mem_singleton.mp he)
      exact ⟨m', hm', hout, hend.imp_left (List.mem_append_left _)⟩
  · intro x hx m' hm'
    rw [get?_accept, if_neg] at hm'
    · exact h.others x hx m' hm'
    · rintro rfl
      exact hx hv

end Kept

/-! ## Deliveries -/

theorem asked_congr {p q : Pass} (hp : q.delta.processed = p.delta.processed)
    (hg : ∀ id ∈ p.delta.processed, q.graph.get? id = p.graph.get? id) : q.asked = p.asked := by
  unfold asked
  rw [hp]
  exact List.flatMap_congr fun id hid => by rw [hg id hid]

theorem asked_accept (p : Pass) (m : Module) (hm : m.id ∉ p.delta.processed) :
    (p.accept m).asked = p.asked ++ m.dependencies := by
  unfold asked
  rw [processed_accept, List.flatMap_append, List.flatMap_singleton, get?_accept, if_pos rfl]
  congr 1
  refine List.flatMap_congr fun id hid => ?_
  rw [get?_accept, if_neg]
  rintro rfl
  exact hm hid

/-- What is asked of the ids so far has made of them what they are. -/
structure Heard (r : Rules) (g : ModuleGraph) (eager : List ModuleId) (start : ModuleId → Role)
    (p : Pass) : Prop extends p.Tidy, p.Kept g [] where
  atOnce : p.eager = eager
  roles : ∀ id, p.role id = (r.asks eager id p.asked).foldl Role.heed (start id)
  processed : ∀ id ∈ p.delta.processed, p.Over id

namespace Heard

variable {r : Rules} {g : ModuleGraph} {eager : List ModuleId} {start : ModuleId → Role} {q : Pass}

/-- Dependencies of a module that is taken in leave those alone that were taken in before. -/
theorem follows (h : p.Heard r g eager start) {id : ModuleId} {ds : List Dependency}
    (hid : id ∈ p.outstanding) (hf : Follows r (p.takeIn id) ds q) :
    q.delta.processed = p.delta.processed ∧
      ∀ x ∈ p.delta.processed, x ≠ id ∧ q.Over x ∧ q.graph.get? x = p.graph.get? x := by
  constructor
  · exact (processed_of_follows hf).trans rfl
  · intro x hx
    have hover := h.processed x hx
    obtain ⟨m, hm, hout, -⟩ := h.finished x hover List.not_mem_nil
    have htake : (p.takeIn id).Holds (· = m) x :=
      ⟨⟨hover.1, fun ho => hover.2 (List.mem_of_mem_erase ho)⟩, m, hm, hout.1, rfl⟩
    obtain ⟨hq, m', hm', -, rfl⟩ := hf.keeps (I := fun s => s.Holds (· = m) x)
      (fun c _ d _ _ hs => hs.follow _ c d) htake
    refine ⟨?_, hq, hm'.trans hm.symm⟩
    rintro rfl
    exact hover.2 hid

/-- A delivery asks for what the module depends on, and nothing else. -/
theorem delivers (h : p.Heard r g eager start) (hr : ∀ id m, r.output id m → m.IsOutput id)
    (hd : Delivers r p q) : q.Heard r g eager start := by
  have htidy := h.toTidy.delivers hd
  cases hd with
  | @intro s id m hid hm hf =>
    obtain ⟨rfl, hin⟩ := hr id m hm
    obtain ⟨hprocessed, hstay⟩ := h.follows hid hf
    have hnew : m.id ∉ s.delta.processed := fun hx => (hstay m.id (hprocessed ▸ hx)).1 rfl
    have htake : (p.takeIn m.id).Over m.id :=
      ⟨h.started m.id hid, h.outstanding.not_mem_erase⟩
    have hover := hf.keeps (I := fun s => s.Over m.id) (fun c _ d _ _ hs => hs.follow _ c d) htake
    refine ⟨htidy, ?_, ?_, ?_, ?_⟩
    · have hkept := hf.keeps (I := Kept g [m.id]) (fun c _ d _ _ hs => hs.follow _ c d)
        (h.toKept.takeIn m.id)
      exact hkept.accept ⟨rfl, hin⟩ hover.1
    · exact hf.keeps (I := fun s => s.eager = eager)
        (fun c _ d _ s hs => (eager_follow s _ c d).trans hs) h.atOnce
    · intro x
      have haccept : (s.accept m).role x = s.role x :=
        (role_record { s with delta := { s.delta with processed := _ } } m x).trans
          (if_neg fun hx => hx.2 hover.1)
      have hasked : s.asked = p.asked := asked_congr hprocessed fun id hid => (hstay id hid).2.2
      have htaken : (p.takeIn m.id).role x = p.role x := rfl
      have heager : (p.takeIn m.id).eager = eager := h.atOnce
      rw [haccept, hf.role, htaken, heager, h.roles, asked_accept s m hnew, hasked, asks_append,
        List.foldl_append]
    · intro x hx
      rw [processed_accept, hprocessed] at hx
      rcases List.mem_append.mp hx with hx | hx
      · exact (hstay x hx).2.1
      · rw [List.mem_singleton.mp hx]
        exact hover

theorem runs (h : p.Heard r g eager start) (hr : ∀ id m, r.output id m → m.IsOutput id)
    (hruns : Runs r p q) : q.Heard r g eager start := by
  induction hruns with
  | refl => exact h
  | tail _ hd ih => exact ih.delivers hr hd

end Heard

end

/-! ## The start -/

/-- What an id is at the start of a pass. -/
def Seeds.role (seeds : Seeds) (g : ModuleGraph) (id : ModuleId) : Role :=
  if id ∈ seeds.reprocessed then .loaded
  else if seeds.entries.any (·.2.entryId? = some id) then (Role.ofNode (g.get? id)).heed .now
  else .ofNode (g.get? id)

section
variable {r : Rules} {root : Path} {seeds : Seeds} {p q : Pass}

theorem Begins.role (h : Begins r root seeds p q) (x : ModuleId) : q.role x =
    if x ∈ seeds.reprocessed then .loaded
    else if seeds.entries.any (·.2.entryId? = some x) then (p.role x).heed .now else p.role x := by
  obtain ⟨he, hr⟩ := h
  have hentries : ∀ {es : List ((String × String) × Resolution)} {p q : Pass},
      Each r.seen (fun c p e => p.seed root c e.1.1 e.1.2 e.2) p es q → q.role x =
        if es.any (·.2.entryId? = some x) then (p.role x).heed .now else p.role x := by
    intro es p q h
    induction h with
    | nil => rfl
    | @cons p q e es c _ _ ih =>
      rw [ih, role_seed, List.any_cons]
      by_cases hx : e.2.entryId? = some x
      · rw [if_pos hx, Role.heed_now_now, ite_self, decide_eq_true hx, Bool.true_or, if_pos rfl]
      · rw [if_neg hx, decide_eq_false hx, Bool.false_or]
  have hreprocessed : ∀ {ids : List ModuleId} {p q : Pass},
      Each r.seen (fun c p id => p.reprocess c id) p ids q → q.role x =
        if x ∈ ids then .loaded else p.role x := by
    intro ids p q h
    induction h with
    | nil => rfl
    | @cons p q id ids c _ _ ih =>
      rw [ih, role_reprocess]
      by_cases hx : x = id
      · simp [hx]
      · simp [hx]
  rw [hreprocessed hr, hentries he]

/-- What neither a change of the graph nor a new task touches is as it was when a pass has begun. -/
theorem Begins.keeps {I : Pass → Prop} (h : Begins r root seeds p q) (hp : I p)
    (hg : ∀ p g, I p → I { p with graph := g }) (hs : ∀ p c id, I p → I (p.spawn c id)) : I q := by
  obtain ⟨he, hr⟩ := h
  have hq := he.keeps (fun c _ e _ p hp => seed_keeps root c e.1.1 e.1.2 e.2 (fun _ => hg p _ hp)
    fun id => enqueue_keeps (hg p _ hp) c id fun _ _ => hs _ c id (hg p _ hp)) hp
  exact hr.keeps (fun c _ id _ p hp => reprocess_keeps hp c id fun _ => hs p c id hp) hq

theorem Heard.begins {g : ModuleGraph} {eager : List ModuleId}
    (h : Begins r root seeds { graph := g, eager } q) : q.Heard r g eager (seeds.role g) := by
  have hnone : q.delta.processed = [] :=
    h.keeps (I := fun p => p.delta.processed = []) rfl (fun _ _ hp => hp)
      fun p c id hp => (processed_spawn p c id).trans hp
  refine ⟨(Tidy.new g eager).begins h, ?_, ?_, ?_, ?_⟩
  · obtain ⟨he, hr⟩ := h
    exact hr.keeps (I := Kept g []) (fun c _ id _ _ hs => hs.reprocess c id)
      (he.keeps (I := Kept g []) (fun c _ _ _ _ hs => hs.seed root c _ _ _) (.new g eager))
  · exact h.keeps (I := fun p => p.eager = eager) rfl (fun _ _ hp => hp)
      fun p c id hp => (eager_spawn p c id).trans hp
  · intro x
    have hasked : q.asked = [] := by
      unfold asked
      rw [hnone]
      rfl
    rw [h.role, hasked]
    rfl
  · rw [hnone]
    exact fun id hid => nomatch hid

/-! ## The end -/

theorem Completes.heard {g : ModuleGraph} {eager : List ModuleId}
    (hr : ∀ id m, r.output id m → m.IsOutput id) (h : Completes r root g eager seeds q) :
    q.Heard r g eager (seeds.role g) := by
  obtain ⟨p, hb, hruns, -⟩ := h
  exact (Heard.begins hb).runs hr hruns

/-- The first who asks for an id says that it is outside. -/
def saidOutside (p : Pass) (id : ModuleId) : Bool :=
  (p.asked.find? (·.target = some id)).any (·.external)

theorem head?_asks (r : Rules) (eager : List ModuleId) (id : ModuleId) (p : Pass) :
    (r.asks eager id p.asked).head? = some .outside ↔ p.saidOutside id = true := by
  unfold Rules.asks saidOutside
  rw [List.head?_map, List.head?_filter]
  cases p.asked.find? (·.target = some id) with
  | none => simp
  | some d =>
    unfold Rules.ask
    cases hx : d.external with
    | true => simp [hx]
    | false =>
      simp only [Option.map_some, Option.any_some, hx, Bool.false_eq_true, if_false, Option.some.injEq,
        iff_false]
      split <;> decide

section
variable {eager : List ModuleId} {start : ModuleId → Role}

/-- A pass at rest that began with nothing has heard what each of its modules depends on. -/
theorem Heard.mem_asked (h : q.Heard r {} eager start) (hrest : q.outstanding = []) {a : ModuleId}
    {m : Module} (hm : q.graph.get? a = some m) {d : Dependency} (hd : d ∈ m.dependencies) :
    d ∈ q.asked := by
  by_cases hv : a ∈ q.visited
  · have hover : q.Over a := ⟨hv, by rw [hrest]; exact List.not_mem_nil⟩
    obtain ⟨m', hm', -, hend⟩ := h.finished a hover List.not_mem_nil
    obtain rfl := Option.some.inj (hm.symm.trans hm')
    rcases hend with hp | rfl
    · refine List.mem_flatMap.mpr ⟨a, hp, ?_⟩
      rw [hm]
      exact hd
    · cases hd
  · rcases h.others a hv m hm with rfl | rfl | hg
    · cases hd
    · cases hd
    · cases hg

theorem Heard.loaded (h : q.Heard r {} eager start) (hrest : q.outstanding = []) {t : ModuleId}
    (ht : q.role t = .loaded) : ∃ m, q.graph.get? t = some m ∧ m.IsOutput t ∧
      (t ∈ q.delta.processed ∨ m = .failed t [.load t.text "build cancelled"]) := by
  by_cases hv : t ∈ q.visited
  · exact h.finished t ⟨hv, by rw [hrest]; exact List.not_mem_nil⟩ List.not_mem_nil
  · exfalso
    unfold Pass.role at ht
    rw [if_neg hv] at ht
    cases hm : q.graph.get? t with
    | none =>
      rw [hm] at ht
      cases ht
    | some m =>
      rw [hm] at ht
      rcases h.others t hv m hm with rfl | rfl | hg
      · cases ht
      · cases ht
      · cases hg

theorem node_of_outside {t : ModuleId} (ht : q.role t = .outside) :
    ∃ m, q.graph.get? t = some m ∧ m.external = true ∧ m.isLazy = false := by
  unfold Pass.role at ht
  split at ht
  · cases ht
  · cases hm : q.graph.get? t with
    | none =>
      rw [hm] at ht
      cases ht
    | some m =>
      rw [hm] at ht
      unfold Role.ofNode at ht
      dsimp only at ht
      split at ht
      · cases ht
      next hl =>
        split at ht
        next hx => exact ⟨m, rfl, hx, eq_false_of_ne_true hl⟩
        next => cases ht

/-- What is asked for at once in a pass that began with entries is loaded, unless none of them leads
to it and the first who asks says that it is outside. -/
theorem Heard.role_asked {entries : List ((String × String) × Resolution)}
    (h : q.Heard r {} eager (Seeds.role { entries } {})) {d : Dependency} (hd : d ∈ q.asked)
    {t : ModuleId} (ht : d.target = some t) (hask : r.ask eager t d = .now) : q.role t =
      if q.saidOutside t = true ∧ ∀ e ∈ entries, e.2.entryId? ≠ some t then .outside
      else .loaded := by
  have hnow : .now ∈ r.asks eager t q.asked :=
    List.mem_map.mpr ⟨d, List.mem_filter.mpr ⟨hd, decide_eq_true ht⟩, hask⟩
  have hstart : Seeds.role { entries } {} t =
      if entries.any (·.2.entryId? = some t) then .loaded else .absent := rfl
  rw [h.roles, hstart]
  by_cases he : entries.any (·.2.entryId? = some t) = true
  · rw [if_pos he, Role.foldl_loaded, if_neg]
    rintro ⟨-, hno⟩
    obtain ⟨e, hmem, hid⟩ := List.any_eq_true.mp he
    exact hno e hmem (of_decide_eq_true hid)
  · rw [if_neg he, Role.foldl_absent hnow]
    refine if_congr ?_ rfl rfl
    rw [head?_asks]
    refine (and_iff_left fun e hmem hid => he ?_).symm
    exact List.any_eq_true.mpr ⟨e, hmem, decide_eq_true hid⟩

/-- What a build makes of the target of a dependency that is not left for later. -/
theorem Completes.wanted {entries : List ((String × String) × Resolution)}
    (hr : ∀ id m, r.output id m → m.IsOutput id)
    (h : Completes r root {} eager { entries } q) {a t : ModuleId} {m : Module} {d : Dependency}
    (hm : q.graph.get? a = some m) (hd : d ∈ m.dependencies) (ht : d.target = some t)
    (hask : r.ask eager t d = .now) :
    ∃ n, q.graph.get? t = some n ∧ n.isLazy = false ∧
      (n.external = true ↔
        q.saidOutside t = true ∧ ∀ e ∈ entries, e.2.entryId? ≠ some t) ∧
      (n.external = false →
        t ∈ q.delta.processed ∨ n = .failed t [.load t.text "build cancelled"]) := by
  have hheard := h.heard hr
  obtain ⟨-, -, -, hrest⟩ := h
  have hrole := hheard.role_asked (hheard.mem_asked hrest hm hd) ht hask
  by_cases hout : q.saidOutside t = true ∧ ∀ e ∈ entries, e.2.entryId? ≠ some t
  · rw [if_pos hout] at hrole
    obtain ⟨n, hn, hx, hl⟩ := node_of_outside hrole
    exact ⟨n, hn, hl, iff_of_true hx hout, fun hin => nomatch hx.symm.trans hin⟩
  · rw [if_neg hout] at hrole
    obtain ⟨n, hn, ⟨-, hin, hl⟩, hend⟩ := hheard.loaded hrest hrole
    exact ⟨n, hn, hl, iff_of_false (ne_true_of_eq_false hin) hout, fun _ => hend⟩

end

end

end Pass

end Bundler

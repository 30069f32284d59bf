import Bundler.Chunk.Basic
import Bundler.Proofs.Graph.Reach

/-!
# What a chunk collects

The search of `ModuleGraph.collect` finds each id on a path of live modules once, and no other.
-/

namespace Bundler

namespace ModuleGraph

variable {g : ModuleGraph} {dynamic : Bool}

theorem isLive_iff {id : ModuleId} :
    g.isLive id = true ↔ ∃ m, g.get? id = some m ∧ m.isLive = true := by
  unfold isLive
  cases g.get? id <;> simp

theorem contains_of_isLive {id : ModuleId} (h : g.isLive id = true) : g.contains id = true := by
  obtain ⟨m, hm, -⟩ := isLive_iff.mp h
  exact contains_iff.mpr ⟨m, hm⟩

theorem isLive_settle_prune {id : ModuleId} (hr : g.Reached id) (hl : g.isLive id = true) :
    g.prune.1.settle.isLive id = true := by
  obtain ⟨m, hm, hl⟩ := isLive_iff.mp hl
  exact isLive_iff.mpr ⟨m.settled, get?_settle_prune.mpr ⟨hr, m, hm, rfl⟩,
    m.settled_isLive.trans hl⟩

/-! ## Paths -/

/-- A path of live modules, along all dependencies or along the static ones. -/
inductive LivePath (g : ModuleGraph) (dynamic : Bool) (start : ModuleId) : ModuleId → Prop
  | start (h : g.isLive start = true) : LivePath g dynamic start start
  | step {a b : ModuleId} {m : Module} (ha : LivePath g dynamic start a) (hm : g.get? a = some m)
      (hb : b ∈ followed dynamic m) (hl : g.isLive b = true) : LivePath g dynamic start b

namespace LivePath

variable {a b c : ModuleId}

theorem isLive_start (h : g.LivePath dynamic a b) : g.isLive a = true := by
  induction h with
  | start h => exact h
  | step _ _ _ _ ih => exact ih

theorem isLive_end (h : g.LivePath dynamic a b) : g.isLive b = true := by
  cases h with
  | start h => exact h
  | step _ _ _ hl => exact hl

theorem live_of_get? (h : g.LivePath dynamic a b) {m : Module} (hm : g.get? b = some m) :
    m.isLive = true := by
  obtain ⟨m', hm', hl⟩ := isLive_iff.mp h.isLive_end
  exact Option.some.inj (hm'.symm.trans hm) ▸ hl

theorem trans (h : g.LivePath dynamic a b) (h' : g.LivePath dynamic b c) :
    g.LivePath dynamic a c := by
  induction h' with
  | start _ => exact h
  | step _ hm hb hl ih => exact ih.step hm hb hl

end LivePath

theorem mem_targets_of_mem_followed {m : Module} {b : ModuleId} (h : b ∈ followed dynamic m) :
    b ∈ m.targets := by
  unfold followed at h
  split at h
  next => exact h
  next =>
    obtain ⟨d, hd, ht⟩ := List.mem_filterMap.mp h
    exact List.mem_filterMap.mpr ⟨d, (List.mem_filter.mp hd).1, ht⟩

theorem mem_targets_of_mem_dynamicTargets {m : Module} {b : ModuleId} (h : b ∈ m.dynamicTargets) :
    b ∈ m.targets := by
  obtain ⟨d, hd, ht⟩ := List.mem_filterMap.mp h
  exact List.mem_filterMap.mpr ⟨d, (List.mem_filter.mp hd).1, ht⟩

theorem mem_targets_cases {m : Module} {b : ModuleId} (h : b ∈ m.targets) :
    b ∈ m.staticTargets ∨ b ∈ m.dynamicTargets := by
  obtain ⟨d, hd, ht⟩ := List.mem_filterMap.mp h
  by_cases hk : d.kind.isStatic = true
  · exact .inl (List.mem_filterMap.mpr ⟨d, List.mem_filter.mpr ⟨hd, hk⟩, ht⟩)
  · exact .inr (List.mem_filterMap.mpr ⟨d, List.mem_filter.mpr ⟨hd, by simpa using hk⟩, ht⟩)

/-- A live module that is an entry, or a dependency of such a module. -/
inductive LiveReachable (g : ModuleGraph) : ModuleId → Prop
  | entry {name : String} {id : ModuleId} (h : g.entries.get? name = some id)
      (hl : g.isLive id = true) : LiveReachable g id
  | step {a b : ModuleId} {m : Module} (ha : LiveReachable g a) (hm : g.get? a = some m)
      (hb : b ∈ m.targets) (hl : g.isLive b = true) : LiveReachable g b

theorem LiveReachable.isLive {id : ModuleId} (h : g.LiveReachable id) : g.isLive id = true := by
  cases h with
  | entry _ hl => exact hl
  | step _ _ _ hl => exact hl

theorem LivePath.passes {Q : ModuleId → Prop}
    (hQ : ∀ {a b m}, Q a → g.get? a = some m → b ∈ m.targets → g.isLive b = true → Q b)
    {a b : ModuleId} (h : g.LivePath dynamic a b) (ha : Q a) : Q b := by
  induction h with
  | start _ => exact ha
  | step _ hm hb hl ih => exact hQ ih hm (mem_targets_of_mem_followed hb) hl

theorem LiveReachable.path {a b : ModuleId} (ha : g.LiveReachable a) (h : g.LivePath dynamic a b) :
    g.LiveReachable b := h.passes .step ha

/-- All dependencies of a path are followed, if the dynamic ones are. -/
theorem liveReachable_iff {id : ModuleId} :
    g.LiveReachable id ↔ ∃ name e, g.entries.get? name = some e ∧ g.LivePath true e id := by
  constructor
  · intro h
    induction h with
    | entry h hl => exact ⟨_, _, h, .start hl⟩
    | step _ hm hb hl ih =>
      obtain ⟨name, e, he, hp⟩ := ih
      exact ⟨name, e, he, hp.step hm hb hl⟩
  · rintro ⟨name, e, he, hp⟩
    exact (LiveReachable.entry he hp.isLive_start).path hp

/-! ## The search -/

/-- What the search does with the ids on its stack: one that was seen, one that is not live, and
one that is collected and leads on. -/
inductive Collects (g : ModuleGraph) (dynamic : Bool) :
    List ModuleId → List ModuleId → List ModuleId → Prop
  | nil (seen : List ModuleId) : Collects g dynamic [] seen []
  | again {id : ModuleId} {rest seen out : List ModuleId} (hs : id ∈ seen)
      (h : Collects g dynamic rest seen out) : Collects g dynamic (id :: rest) seen out
  | dead {id : ModuleId} {rest seen out : List ModuleId} (hs : id ∉ seen)
      (hd : g.isLive id = false) (h : Collects g dynamic rest (id :: seen) out) :
      Collects g dynamic (id :: rest) seen out
  | live {id : ModuleId} {rest seen out : List ModuleId} {m : Module} (hs : id ∉ seen)
      (hm : g.get? id = some m) (hl : m.isLive = true)
      (h : Collects g dynamic ((followed dynamic m).filter (!(id :: seen).contains ·) ++ rest)
        (id :: seen) out) : Collects g dynamic (id :: rest) seen (id :: out)

theorem collects_collectFrom (g : ModuleGraph) (dynamic : Bool) (stack seen : List ModuleId) :
    g.Collects dynamic stack seen (g.collectFrom dynamic stack seen) := by
  fun_induction collectFrom g dynamic stack seen with
  | case1 seen => exact .nil seen
  | case2 seen id rest hs ih => exact .again (by simpa using hs) ih
  | case3 seen id rest hs m hm hl ih => exact .live (by simpa using hs) hm hl ih
  | case4 seen id rest hs m hm hl ih =>
    refine .dead (by simpa using hs) ?_ ih
    unfold isLive
    rw [hm]
    simpa using hl
  | case5 seen id rest hs hn ih =>
    refine .dead (by simpa using hs) ?_ ih
    unfold isLive
    rw [hn]
    rfl

namespace Collects

variable {stack seen out : List ModuleId}

theorem livePath (h : g.Collects dynamic stack seen out) {x : ModuleId} (hx : x ∈ out) :
    x ∉ seen ∧ ∃ s ∈ stack, g.LivePath dynamic s x := by
  induction h with
  | nil seen => cases hx
  | again hs _ ih =>
    obtain ⟨hn, s, hs, hp⟩ := ih hx
    exact ⟨hn, s, List.mem_cons_of_mem _ hs, hp⟩
  | dead _ hd _ ih =>
    obtain ⟨hn, s, hs, hp⟩ := ih hx
    exact ⟨fun h => hn (List.mem_cons_of_mem _ h), s, List.mem_cons_of_mem _ hs, hp⟩
  | @live id rest seen out m hs hm hl _ ih =>
    have hid : g.LivePath dynamic id id := .start (isLive_iff.mpr ⟨m, hm, hl⟩)
    rcases List.mem_cons.mp hx with rfl | hx
    · exact ⟨hs, x, List.mem_cons_self, hid⟩
    obtain ⟨hn, s, hs, hp⟩ := ih hx
    refine ⟨fun h => hn (List.mem_cons_of_mem _ h), ?_⟩
    rcases List.mem_append.mp hs with hs | hs
    · have hstep := hid.step hm (List.mem_filter.mp hs).1 hp.isLive_start
      exact ⟨id, List.mem_cons_self, hstep.trans hp⟩
    · exact ⟨s, List.mem_cons_of_mem _ hs, hp⟩

theorem nodup (h : g.Collects dynamic stack seen out) : out.Nodup := by
  induction h with
  | nil seen => exact List.nodup_nil
  | again _ _ ih => exact ih
  | dead _ _ _ ih => exact ih
  | live _ _ _ h ih =>
    exact List.nodup_cons.mpr ⟨fun hx => (h.livePath hx).1 List.mem_cons_self, ih⟩

theorem mem_of_mem_stack (h : g.Collects dynamic stack seen out) {x : ModuleId} (hx : x ∈ stack)
    (hl : g.isLive x = true) : x ∈ seen ∨ x ∈ out := by
  induction h with
  | nil seen => cases hx
  | again hs _ ih =>
    rcases List.mem_cons.mp hx with rfl | hx
    · exact .inl hs
    · exact ih hx
  | dead _ hd _ ih =>
    have hne : x ≠ _ := fun e => by rw [e, hd] at hl; cases hl
    have hx := (List.mem_cons.mp hx).resolve_left hne
    exact (ih hx).imp_left fun h => (List.mem_cons.mp h).resolve_left hne
  | live _ _ _ _ ih =>
    rcases List.mem_cons.mp hx with rfl | hx
    · exact .inr List.mem_cons_self
    · rcases ih (List.mem_append_right _ hx) with h | h
      · rcases List.mem_cons.mp h with rfl | h
        · exact .inr List.mem_cons_self
        · exact .inl h
      · exact .inr (List.mem_cons_of_mem _ h)

/-- The search misses no live dependency, if those of what was seen were seen or lie on the
stack. -/
theorem closed (h : g.Collects dynamic stack seen out)
    (hc : ∀ a ∈ seen, ∀ m, g.get? a = some m → m.isLive = true → ∀ b ∈ followed dynamic m,
      g.isLive b = true → b ∈ seen ∨ b ∈ stack) {a b : ModuleId} {m : Module}
    (ha : a ∈ seen ∨ a ∈ out) (hm : g.get? a = some m) (hl : m.isLive = true)
    (hb : b ∈ followed dynamic m) (hlb : g.isLive b = true) : b ∈ seen ∨ b ∈ out := by
  -- Each step hands the same condition on to the rest of the stack.
  induction h with
  | nil seen =>
    rcases ha with ha | ha
    · exact (hc a ha m hm hl b hb hlb).imp_right fun h => nomatch h
    · cases ha
  | again hs _ ih =>
    refine ih (fun a ha m hm hl b hb hlb => ?_) ha
    rcases hc a ha m hm hl b hb hlb with h | h
    · exact .inl h
    · rcases List.mem_cons.mp h with rfl | h
      · exact .inl hs
      · exact .inr h
  | @dead id rest seen out _ hd _ ih =>
    have hne : ∀ {x}, g.isLive x = true → x ≠ id := fun h e => by rw [e, hd] at h; cases h
    refine (ih (fun a ha m hm hl b hb hlb => ?_) (ha.imp_left (List.mem_cons_of_mem _))).imp_left
      fun h => (List.mem_cons.mp h).resolve_left (hne hlb)
    have ha := (List.mem_cons.mp ha).resolve_left (hne (isLive_iff.mpr ⟨m, hm, hl⟩))
    exact (hc a ha m hm hl b hb hlb).imp (List.mem_cons_of_mem _)
      fun h => (List.mem_cons.mp h).resolve_left (hne hlb)
  | @live id rest seen out m' hs hm' hl' _ ih =>
    have hstep : ∀ x, x ∈ id :: seen ∨ x ∈ out ↔ x ∈ seen ∨ x ∈ id :: out := by
      intro x
      rw [List.mem_cons, List.mem_cons]
      tauto
    refine (hstep b).mp (ih (fun a ha m hm hl b hb hlb => ?_) ((hstep a).mpr ha))
    by_cases hbs : b ∈ id :: seen
    · exact .inl hbs
    refine .inr (List.mem_append.mpr ?_)
    rcases List.mem_cons.mp ha with rfl | ha
    · cases hm.symm.trans hm'
      exact .inl (List.mem_filter.mpr ⟨hb, by simpa using hbs⟩)
    · exact .inr (mem_rest (hc a ha m hm hl b hb hlb) hbs)

end Collects

theorem Collects.eq {stack seen out : List ModuleId} (h : g.Collects dynamic stack seen out) :
    g.collectFrom dynamic stack seen = out := by
  induction h with
  | nil seen => rw [collectFrom]
  | again hs _ ih => rw [collectFrom, dif_pos (List.contains_iff_mem.mpr hs), ih]
  | dead hs hd _ ih =>
    rw [collectFrom, dif_neg (by simpa using hs)]
    split
    next m hm =>
      rw [if_neg fun hl => Bool.false_ne_true (hd.symm.trans (isLive_iff.mpr ⟨m, hm, hl⟩))]
      exact ih
    next => exact ih
  | live hs hm hl _ ih =>
    rw [collectFrom, dif_neg (by simpa using hs)]
    split
    next m' hm' =>
      cases hm.symm.trans hm'
      rw [if_pos hl, ih]
    next hn => rw [hm] at hn; cases hn

/-! ## The search in other graphs -/

/-- What a stack brings up, each id once, and none that was seen. -/
def brings (seen stack : List ModuleId) : List ModuleId :=
  Module.distinct (stack.filter (!seen.contains ·))

theorem brings_of_mem {seen rest : List ModuleId} {id : ModuleId} (h : id ∈ seen) :
    brings seen (id :: rest) = brings seen rest := by
  unfold brings
  rw [List.filter_cons_of_neg (by simpa using h)]

theorem brings_of_not_mem {seen rest : List ModuleId} {id : ModuleId} (h : id ∉ seen) :
    brings seen (id :: rest) = id :: brings (id :: seen) rest := by
  unfold brings
  rw [List.filter_cons_of_pos (by simpa using h), Module.distinct_cons, List.filter_filter]
  refine congrArg (fun l => id :: Module.distinct l) (List.filter_congr fun x _ => ?_)
  simp

theorem brings_append {seen a b a' b' : List ModuleId}
    (ha : Module.distinct a' = Module.distinct a) (hb : brings seen b' = brings seen b) :
    brings seen (a' ++ b') = brings seen (a ++ b) := by
  unfold brings
  rw [List.filter_append, List.filter_append]
  refine Module.distinct_append_congr ?_ hb
  rw [Module.distinct_filter, ha, ← Module.distinct_filter]

/-- A stack that brings something up brings it up behind what was seen. -/
theorem exists_of_brings {h : ModuleGraph} {seen stack l : List ModuleId} {id : ModuleId}
    (hb : brings seen stack = id :: l) : id ∉ seen ∧ ∃ rest, brings (id :: seen) rest = l ∧
      ∀ out, h.Collects dynamic (id :: rest) seen out → h.Collects dynamic stack seen out := by
  induction stack with
  | nil => cases hb
  | cons x stack ih =>
    by_cases hx : x ∈ seen
    · rw [brings_of_mem hx] at hb
      obtain ⟨hid, rest, hrest, hstep⟩ := ih hb
      exact ⟨hid, rest, hrest, fun out ho => .again hx (hstep out ho)⟩
    · rw [brings_of_not_mem hx] at hb
      obtain ⟨rfl, hrest⟩ := List.cons.inj hb
      exact ⟨hx, stack, hrest, fun _ ho => ho⟩

theorem collects_of_brings_nil {h : ModuleGraph} {seen stack : List ModuleId}
    (hb : brings seen stack = []) : h.Collects dynamic stack seen [] := by
  induction stack with
  | nil => exact .nil seen
  | cons x stack ih =>
    by_cases hx : x ∈ seen
    · exact .again hx (ih (brings_of_mem hx ▸ hb))
    · rw [brings_of_not_mem hx] at hb
      cases hb

/-- The search does the same in another graph in which the modules that it collects lead on to the
same ids, if no more ids are live of those that it comes upon. -/
theorem Collects.congr {h : ModuleGraph} {stack seen out : List ModuleId}
    (hc : g.Collects dynamic stack seen out)
    (hkept : ∀ id ∈ out, ∀ m, g.get? id = some m → m.isLive = true → ∃ m', h.get? id = some m' ∧
      m'.isLive = true ∧ Module.distinct (followed dynamic m') = Module.distinct (followed dynamic m))
    (hlive : ∀ id ∈ out, ∀ m, g.get? id = some m → m.isLive = true → ∀ t ∈ followed dynamic m,
      h.isLive t = true → g.isLive t = true)
    (hs : ∀ id ∈ stack, h.isLive id = true → g.isLive id = true) {stack' : List ModuleId}
    (hb : brings seen stack' = brings seen stack) : h.Collects dynamic stack' seen out := by
  -- The other stack may hold more, as long as it brings up the same in the same order.
  induction hc generalizing stack' with
  | nil seen => exact collects_of_brings_nil hb
  | again hseen _ ih =>
    rw [brings_of_mem hseen] at hb
    exact ih hkept hlive (fun id hid => hs id (List.mem_cons_of_mem _ hid)) hb
  | dead hseen hd _ ih =>
    rw [brings_of_not_mem hseen] at hb
    obtain ⟨-, rest', hrest, hstep⟩ := exists_of_brings hb
    refine hstep _ (.dead hseen ?_
      (ih hkept hlive (fun id hid => hs id (List.mem_cons_of_mem _ hid)) hrest))
    exact eq_false_of_ne_true fun hl => nomatch hd.symm.trans (hs _ List.mem_cons_self hl)
  | live hseen hm hl _ ih =>
    rw [brings_of_not_mem hseen] at hb
    obtain ⟨-, rest', hrest, hstep⟩ := exists_of_brings hb
    obtain ⟨m', hm', hl', hf⟩ := hkept _ List.mem_cons_self _ hm hl
    refine hstep _ (.live hseen hm' hl' (ih (fun id hid => hkept id (List.mem_cons_of_mem _ hid))
      (fun id hid => hlive id (List.mem_cons_of_mem _ hid)) (fun id hid => ?_) ?_))
    · rcases List.mem_append.mp hid with hid | hid
      · exact hlive _ List.mem_cons_self _ hm hl id (List.mem_filter.mp hid).1
      · exact hs id (List.mem_cons_of_mem _ hid)
    · refine brings_append ?_ hrest
      rw [Module.distinct_filter, hf, ← Module.distinct_filter]

/-! ## What is collected -/

theorem collect_nodup (g : ModuleGraph) (start : ModuleId) (dynamic : Bool) :
    (g.collect start dynamic).Nodup := (g.collects_collectFrom dynamic [start] []).nodup

/-- A chunk collects what lies on paths of live modules from its entry. -/
theorem mem_collect {start id : ModuleId} :
    id ∈ g.collect start dynamic ↔ g.LivePath dynamic start id := by
  have hcol := g.collects_collectFrom dynamic [start] []
  constructor
  · intro h
    obtain ⟨-, s, hs, hp⟩ := hcol.livePath h
    exact List.mem_singleton.mp hs ▸ hp
  · intro h
    induction h with
    | start hl => exact (hcol.mem_of_mem_stack List.mem_cons_self hl).resolve_left List.not_mem_nil
    | step ha hm hb hl ih =>
      obtain ⟨m', hm', hl'⟩ := isLive_iff.mp ha.isLive_end
      cases hm.symm.trans hm'
      exact (hcol.closed (fun _ h => nomatch h) (.inr ih) hm hl' hb hl).resolve_left
        List.not_mem_nil

/-- What is collected depends on the modules that paths from the start lead to. -/
theorem collect_congr {h : ModuleGraph} {start : ModuleId}
    (hkept : ∀ id m, g.LivePath dynamic start id → g.get? id = some m → ∃ m', h.get? id = some m' ∧
      m'.isLive = true ∧ Module.distinct (followed dynamic m') = Module.distinct (followed dynamic m))
    (hlive : ∀ id m, g.LivePath dynamic start id → g.get? id = some m → ∀ t ∈ followed dynamic m,
      h.isLive t = true → g.isLive t = true)
    (hs : h.isLive start = true → g.isLive start = true) :
    g.collect start dynamic = h.collect start dynamic := by
  have hcol := g.collects_collectFrom dynamic [start] []
  refine ((hcol.congr (fun id hid m hm _ => hkept id m (mem_collect.mp hid) hm)
    (fun id hid m hm _ => hlive id m (mem_collect.mp hid) hm)
    (fun _ hid => List.mem_singleton.mp hid ▸ hs) rfl).eq).symm

end ModuleGraph

end Bundler

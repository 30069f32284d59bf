import Mathlib.Algebra.BigOperators.Group.Finset.Basic
import Bundler.Proofs.Chunk.Members

/-!
# The first group claims a module

The cache groups change the chunks one after the other, and each counts again in what the groups
before it left. The outcome is the same as if all of them had looked at the chunks before any group:
in what no group has claimed yet, chunks never change. This file states the rule for the chunks
before any group, and proves that the chunks at the end follow it.
-/

namespace Bundler

namespace Partition

/-! ## The rule -/

/-- A group with the modules that it claims. -/
structure Claim where
  group : CacheGroup
  ids : Finset ModuleId

section
variable (g : ModuleGraph) (base : List Chunk) (done : List Claim) (group : CacheGroup)

/-- In how many chunks of its scope a group finds a module. -/
def held (id : ModuleId) : Nat :=
  base.countP fun c => inScope group c && c.modules.contains id

/-- The modules that no earlier group claimed, that the test accepts, and that are in enough chunks
of the scope. -/
def eligible : Finset ModuleId :=
  (base.flatMap (·.modules)).toFinset.filter fun id =>
    (∀ p ∈ done, id ∉ p.ids) ∧ accepts group id = true ∧ max 1 group.minChunks ≤ held base group id

def sizeOfId (id : ModuleId) : Nat := ((g.get? id).map (·.size)).getD 0

/-- A group claims all that it may, if that is large enough, and nothing otherwise. -/
def claim : Claim where
  group := group
  ids := if group.minSize ≤ ∑ id ∈ eligible base done group, sizeOfId g id
    then eligible base done group else ∅

/-- What the groups claim, one after the other. -/
def claims (groups : List CacheGroup) : List Claim :=
  groups.foldl (fun done group => done ++ [claim g base done group]) []

/-- Whether a claim took a module from the chunk with a name. -/
def tookFrom (p : Claim) (name : String) : Bool :=
  p.group.name ≠ name && base.any fun b => b.name = name && inScope p.group b &&
    b.modules.any (· ∈ p.ids)

end

/-- Chunks that follow from those before any group and from what the groups claimed. -/
structure FirstClaim (base : List Chunk) (done : List Claim) (cs : List Chunk) : Prop where
  /-- No module is claimed twice. -/
  disjoint : done.Pairwise fun p q => Disjoint p.ids q.ids
  /-- The chunks before any group are still there, and each other one is shared. -/
  kept : ∃ made : List String, cs.map (fun c => (c.name, c.kind, c.entry)) =
    base.map (fun c => (c.name, c.kind, c.entry)) ++ made.map fun name => (name, .shared, none)
  distinct : (cs.map (·.name)).Nodup
  unclaimed : ∀ id, (∀ p ∈ done, id ∉ p.ids) →
    (cs.filter (·.modules.contains id)).map (·.name) =
      (base.filter (·.modules.contains id)).map (·.name)
  claimed : ∀ p ∈ done, ∀ id ∈ p.ids, ∀ name, (∃ c ∈ cs, c.name = name ∧ id ∈ c.modules) ↔
    name = p.group.name ∨ ∃ b ∈ base, b.name = name ∧ inScope p.group b = false ∧ id ∈ b.modules
  references : ∀ c ∈ cs, c.references =
    Module.distinct ((done.filter (tookFrom base · c.name)).map (·.group.name))

/-! ## One chunk -/

section
variable {done : List Claim} {group : CacheGroup} {ids : Finset ModuleId} {b c : Chunk}
  {id : ModuleId}

/-- What a chunk holds that was `b` before any group. -/
def Keeps (done : List Claim) (b : Chunk) (id : ModuleId) : Prop :=
  (∃ p ∈ done, id ∈ p.ids ∧ (p.group.name = b.name ∨ inScope p.group b = false ∧ id ∈ b.modules)) ∨
    (∀ p ∈ done, id ∉ p.ids) ∧ id ∈ b.modules

/-- What a chunk refers to that was `b` before any group. -/
def losses (done : List Claim) (b : Chunk) : List String :=
  (done.filter fun p => p.group.name ≠ b.name && inScope p.group b &&
    b.modules.any (· ∈ p.ids)).map (·.group.name)

/-- What has become of a chunk. -/
structure Descends (done : List Claim) (b c : Chunk) : Prop where
  name : c.name = b.name
  kind : c.kind = b.kind
  entry : c.entry = b.entry
  mem : ∀ id, id ∈ c.modules ↔ Keeps done b id
  references : c.references = Module.distinct (losses done b)

theorem keeps_of_unclaimed (h : ∀ p ∈ done, id ∉ p.ids) : Keeps done b id ↔ id ∈ b.modules := by
  unfold Keeps
  constructor
  · intro hk
    rcases hk with ⟨p, hp, hid, -⟩ | ⟨-, hid⟩
    · exact absurd hid (h p hp)
    · exact hid
  · exact fun hid => .inr ⟨h, hid⟩

theorem keeps_concat_of_not_mem (h : id ∉ ids) :
    Keeps (done ++ [⟨group, ids⟩]) b id ↔ Keeps done b id := by
  simp [Keeps, List.mem_append, or_and_right, exists_or, or_imp, forall_and, h]

theorem keeps_concat_of_mem (h : id ∈ ids) (hnew : ∀ p ∈ done, id ∉ p.ids) :
    Keeps (done ++ [⟨group, ids⟩]) b id ↔
      group.name = b.name ∨ inScope group b = false ∧ id ∈ b.modules := by
  have hold : ¬ ∃ p ∈ done, id ∈ p.ids ∧
      (p.group.name = b.name ∨ inScope p.group b = false ∧ id ∈ b.modules) := by
    intro hp
    obtain ⟨p, hp, hid, -⟩ := hp
    exact hnew p hp hid
  simp [Keeps, List.mem_append, or_and_right, exists_or, or_imp, forall_and, h, hold]

theorem inScope_congr (h : c.kind = b.kind) : inScope group c = inScope group b := by
  unfold inScope
  rw [h]

theorem losses_concat : losses (done ++ [⟨group, ids⟩]) b =
    losses done b ++ if group.name ≠ b.name ∧ inScope group b = true ∧ ∃ id ∈ b.modules, id ∈ ids
      then [group.name] else [] := by
  unfold losses
  rw [List.filter_append, List.map_append]
  congr 1
  by_cases hl : group.name ≠ b.name ∧ inScope group b = true ∧ ∃ id ∈ b.modules, id ∈ ids
  · rw [if_pos hl, List.filter_cons_of_pos]
    · rfl
    · simpa [and_assoc] using hl
  · rw [if_neg hl, List.filter_cons_of_neg]
    · rfl
    · simpa [and_assoc] using hl

theorem mem_passOn {moved : List ModuleId} : id ∈ (passOn group moved c).modules ↔
    if id ∈ moved then c.name = group.name ∨ inScope group c = false ∧ id ∈ c.modules
    else id ∈ c.modules := by
  unfold passOn
  by_cases hn : c.name = group.name
  · rw [if_pos hn, mem_takeUp]
    by_cases hid : id ∈ moved <;> simp [hid, hn]
  · rw [if_neg hn]
    cases hs : inScope group c with
    | true =>
      rw [if_pos rfl, mem_giveUp]
      by_cases hid : id ∈ moved <;> simp [hid, hn]
    | false => simp [hn]

theorem references_passOn {moved : List ModuleId} : (passOn group moved c).references =
    if (c.name ≠ group.name ∧ inScope group c = true ∧ ∃ id ∈ c.modules, id ∈ moved) ∧
      group.name ∉ c.references then c.references ++ [group.name] else c.references := by
  unfold passOn
  by_cases hn : c.name = group.name
  · rw [if_pos hn, if_neg fun h => h.1.1 hn]
    rfl
  · rw [if_neg hn]
    cases hs : inScope group c with
    | true => simp [giveUp, hn]
    | false => simp

/-- A claim of modules that were not claimed before does to a chunk what the rule says. -/
theorem Descends.passOn {moved : List ModuleId} (h : Descends done b c)
    (hnew : ∀ id ∈ moved, ∀ p ∈ done, id ∉ p.ids) :
    Descends (done ++ [⟨group, moved.toFinset⟩]) b (passOn group moved c) := by
  have hmem : ∀ id ∈ moved, (id ∈ c.modules ↔ id ∈ b.modules) := fun id hid =>
    (h.mem id).trans (keeps_of_unclaimed (hnew id hid))
  have hscope : inScope group c = inScope group b := inScope_congr h.kind
  refine ⟨(name_passOn c).trans h.name, (kind_passOn c).trans h.kind, (entry_passOn c).trans h.entry,
    ?_, ?_⟩
  · intro id
    rw [mem_passOn]
    by_cases hid : id ∈ moved
    · rw [if_pos hid, keeps_concat_of_mem (List.mem_toFinset.mpr hid) (hnew id hid), ← h.name,
        ← hscope, hmem id hid, eq_comm]
    · rw [if_neg hid, keeps_concat_of_not_mem (by simpa using hid), h.mem id]
  · have hlost : (c.name ≠ group.name ∧ inScope group c = true ∧ ∃ id ∈ c.modules, id ∈ moved) ↔
        group.name ≠ b.name ∧ inScope group b = true ∧ ∃ id ∈ b.modules, id ∈ moved.toFinset := by
      rw [h.name, hscope, ne_comm]
      refine and_congr_right fun _ => and_congr_right fun _ => ?_
      constructor
      · intro hl
        obtain ⟨id, hid, hm⟩ := hl
        exact ⟨id, (hmem id hm).mp hid, List.mem_toFinset.mpr hm⟩
      · intro hl
        obtain ⟨id, hid, hm⟩ := hl
        have hm := List.mem_toFinset.mp hm
        exact ⟨id, (hmem id hm).mpr hid, hm⟩
    have hrefs : group.name ∈ c.references ↔ group.name ∈ losses done b := by
      rw [h.references, Module.mem_distinct]
    rw [references_passOn, losses_concat]
    by_cases hl : group.name ≠ b.name ∧ inScope group b = true ∧ ∃ id ∈ b.modules, id ∈ moved.toFinset
    · rw [if_pos hl, Module.distinct_concat, ← h.references]
      by_cases hr : group.name ∈ losses done b
      · rw [if_pos hr, if_neg fun h => h.2 (hrefs.mpr hr)]
      · rw [if_neg hr, if_pos ⟨hlost.mpr hl, fun h => hr (hrefs.mp h)⟩]
    · rw [if_neg hl, if_neg fun h => hl (hlost.mp h.1), List.append_nil, h.references]

end

/-! ## All chunks -/

section
variable {g : ModuleGraph} {base cs : List Chunk} {done : List Claim} {claimed : List ModuleId}

/-- The chunk of a group that found none with its name, before it takes modules. -/
def sharedChunk (name : String) : Chunk := { name, kind := .shared }

/-- What the chunks come from: those before any group, and an empty one for each group that found
none with its name. -/
def origins (base : List Chunk) (made : List String) : List Chunk := base ++ made.map sharedChunk

theorem map_filter_of_descends {α : Type} {f : Chunk → α} {p q : Chunk → Bool} {bs : List Chunk}
    (h : List.Forall₂ (Descends done) bs cs) (hf : ∀ b c, Descends done b c → f c = f b)
    (hpq : ∀ b c, Descends done b c → q c = p b) : (cs.filter q).map f = (bs.filter p).map f := by
  induction h with
  | nil => rfl
  | @cons b c bs cs hd _ ih =>
    rw [List.filter_cons, List.filter_cons, hpq b c hd]
    cases p b with
    | true => simp only [if_true, List.map_cons, hf b c hd, ih]
    | false => exact ih

theorem map_of_descends {α : Type} {f : Chunk → α} {bs : List Chunk}
    (h : List.Forall₂ (Descends done) bs cs) (hf : ∀ b c, Descends done b c → f c = f b) :
    cs.map f = bs.map f := by
  simpa using map_filter_of_descends (p := fun _ => true) (q := fun _ => true) h hf
    fun _ _ _ => rfl

/-- What is known of the chunks and the claimed modules when some groups have claimed theirs. -/
structure Accounted (base : List Chunk) (done : List Claim) (cs : List Chunk)
    (claimed : List ModuleId) : Prop where
  known : ∀ id, id ∈ claimed ↔ ∃ p ∈ done, id ∈ p.ids
  disjoint : done.Pairwise fun p q => Disjoint p.ids q.ids
  nodup : ∀ c ∈ cs, c.modules.Nodup
  chunks : ∃ made, List.Forall₂ (Descends done) (origins base made) cs
  named : ∀ p ∈ done, p.ids.Nonempty → p.group.name ∈ cs.map (·.name)

theorem accounted_base (hn : ∀ b ∈ base, b.modules.Nodup) (hr : ∀ b ∈ base, b.references = []) :
    Accounted base [] base [] := by
  refine ⟨by simp, .nil, hn, ⟨[], ?_⟩, by simp⟩
  rw [origins, List.map_nil, List.append_nil, List.forall₂_same]
  intro b hb
  exact ⟨rfl, rfl, rfl, fun id => (keeps_of_unclaimed (by simp)).symm, hr b hb⟩

/-! ### Counting -/

theorem count_flatMap_modules (hn : ∀ c ∈ cs, c.modules.Nodup) (p : Chunk → Bool) (id : ModuleId) :
    ((cs.filter p).flatMap (·.modules)).count id =
      cs.countP fun c => p c && c.modules.contains id := by
  induction cs with
  | nil => rfl
  | cons c cs ih =>
    have ih := ih fun x hx => hn x (List.mem_cons_of_mem _ hx)
    have hc := hn c List.mem_cons_self
    rw [List.countP_cons, List.filter_cons]
    cases hp : p c with
    | false => simpa using ih
    | true =>
      rw [if_pos rfl, List.flatMap_cons, List.count_append, ih, Nat.add_comm]
      by_cases hid : id ∈ c.modules
      · simp [hid, List.count_eq_one_of_mem hc hid]
      · simp [hid, List.count_eq_zero_of_not_mem hid]

theorem mem_candidates (hn : ∀ c ∈ cs, c.modules.Nodup) {group : CacheGroup} {id : ModuleId} :
    id ∈ candidates group cs claimed ↔
      id ∉ claimed ∧ accepts group id = true ∧ max 1 group.minChunks ≤ held cs group id := by
  have hcount := count_flatMap_modules hn (inScope group) id
  unfold candidates held
  rw [List.mem_filter, Module.mem_distinct, ← List.count_pos_iff, hcount]
  simp only [Bool.and_eq_true, decide_eq_true_eq, Bool.not_eq_true', List.contains_eq_mem,
    decide_eq_false_iff_not, max_le_iff, Nat.succ_le_iff]
  tauto

theorem mem_eligible {group : CacheGroup} {id : ModuleId} : id ∈ eligible base done group ↔
    (∀ p ∈ done, id ∉ p.ids) ∧ accepts group id = true ∧
      max 1 group.minChunks ≤ held base group id := by
  unfold eligible
  rw [Finset.mem_filter, List.mem_toFinset, and_iff_right_iff_imp]
  intro h
  have hpos : 0 < held base group id := le_trans (le_max_left 1 _) h.2.2
  obtain ⟨c, hc, hid⟩ := List.countP_pos_iff.mp hpos
  rw [Bool.and_eq_true, List.contains_iff_mem] at hid
  exact List.mem_flatMap.mpr ⟨c, hc, hid.2⟩

/-- Of a module that no group claimed, the chunks that hold it are those that held it at first. -/
theorem Accounted.names_holding (h : Accounted base done cs claimed) {id : ModuleId}
    (hid : ∀ p ∈ done, id ∉ p.ids) (p : Chunk → Bool)
    (hp : ∀ b c : Chunk, c.kind = b.kind → p c = p b) :
    (cs.filter fun c => p c && c.modules.contains id).map (·.name) =
      (base.filter fun c => p c && c.modules.contains id).map (·.name) := by
  obtain ⟨made, hd⟩ := h.chunks
  rw [map_filter_of_descends (p := fun c => p c && c.modules.contains id) hd fun _ _ hbc => hbc.name,
    origins, List.filter_append]
  · have hmade : (made.map sharedChunk).filter (fun c => p c && c.modules.contains id) = [] := by
      simp [List.filter_eq_nil_iff, sharedChunk]
    rw [hmade, List.append_nil]
  · intro b c hbc
    have hmem := (hbc.mem id).trans (keeps_of_unclaimed hid)
    rw [hp b c hbc.kind, List.contains_eq_mem, List.contains_eq_mem, decide_eq_decide.mpr hmem]

theorem Accounted.held_eq (h : Accounted base done cs claimed) {id : ModuleId}
    (hid : ∀ p ∈ done, id ∉ p.ids) (group : CacheGroup) : held cs group id = held base group id := by
  have hnames := h.names_holding hid (inScope group) fun _ _ => inScope_congr
  have hlen := congrArg List.length hnames
  rwa [List.length_map, List.length_map, ← List.countP_eq_length_filter,
    ← List.countP_eq_length_filter] at hlen

theorem Accounted.unclaimed (h : Accounted base done cs claimed) {id : ModuleId} :
    id ∉ claimed ↔ ∀ p ∈ done, id ∉ p.ids := by
  rw [h.known]
  simp

/-- A group finds among the chunks of its time what it may claim by the rule. -/
theorem Accounted.candidates_eq (h : Accounted base done cs claimed) (group : CacheGroup) :
    (candidates group cs claimed).toFinset = eligible base done group := by
  ext id
  rw [List.mem_toFinset, mem_candidates h.nodup, mem_eligible, h.unclaimed]
  refine and_congr_right fun hid => ?_
  rw [h.held_eq hid]

theorem totalSize_eq (g : ModuleGraph) {ids : List ModuleId} (hn : ids.Nodup) :
    totalSize g ids = ∑ id ∈ ids.toFinset, sizeOfId g id := by
  rw [List.sum_toFinset _ hn]
  clear hn
  have hfold : ∀ n, (ids.filterMap g.get?).foldl (fun total m => total + m.size) n =
      n + (ids.map (sizeOfId g)).sum := by
    induction ids with
    | nil => exact fun n => rfl
    | cons id ids ih =>
      intro n
      rw [List.map_cons, List.sum_cons, sizeOfId]
      cases hm : g.get? id with
      | none => rw [List.filterMap_cons_none hm, ih]; simp
      | some m => rw [List.filterMap_cons_some hm, List.foldl_cons, ih]; simp [Nat.add_assoc]
  exact (hfold 0).trans (Nat.zero_add _)

/-! ### One group -/

theorem claim_cases (g : ModuleGraph) (h : Accounted base done cs claimed) (group : CacheGroup) :
    applyGroup g (cs, claimed) group = (cs, claimed) ∧ claim g base done group = ⟨group, ∅⟩ ∨
      applyGroup g (cs, claimed) group = (regroup group (candidates group cs claimed) cs,
          claimed ++ candidates group cs claimed) ∧
        claim g base done group = ⟨group, (candidates group cs claimed).toFinset⟩ := by
  have hsum : ∑ id ∈ eligible base done group, sizeOfId g id =
      totalSize g (candidates group cs claimed) := by
    rw [← h.candidates_eq, totalSize_eq g (candidates_nodup group cs claimed)]
  unfold claim
  rw [hsum, ← h.candidates_eq]
  by_cases hsmall : totalSize g (candidates group cs claimed) < group.minSize
  · left
    rw [if_neg (Nat.not_le.mpr hsmall)]
    refine ⟨?_, rfl⟩
    unfold applyGroup
    simp [hsmall]
  by_cases hnone : candidates group cs claimed = []
  · left
    rw [hnone]
    refine ⟨?_, by simp⟩
    unfold applyGroup
    simp [hnone]
  · right
    rw [if_pos (Nat.not_lt.mp hsmall)]
    refine ⟨?_, rfl⟩
    unfold applyGroup
    dsimp only
    rw [if_neg (by simp [hnone, hsmall])]
    rfl

theorem Descends.skip {b c : Chunk} (h : Descends done b c) (group : CacheGroup) :
    Descends (done ++ [⟨group, ∅⟩]) b c := by
  refine ⟨h.name, h.kind, h.entry, ?_, ?_⟩
  · intro id
    rw [keeps_concat_of_not_mem (Finset.notMem_empty id), h.mem]
  · rw [losses_concat, if_neg (by simp), List.append_nil, h.references]

theorem Accounted.skip (h : Accounted base done cs claimed) (group : CacheGroup) :
    Accounted base (done ++ [⟨group, ∅⟩]) cs claimed where
  known id := by simp [h.known, or_and_right, exists_or]
  disjoint := by simpa [List.pairwise_append] using h.disjoint
  nodup := h.nodup
  chunks := by
    obtain ⟨made, hd⟩ := h.chunks
    exact ⟨made, hd.imp fun _ _ hbc => hbc.skip group⟩
  named p hp hne := by
    rcases List.mem_append.mp hp with hp | hp
    · exact h.named p hp hne
    · rw [List.mem_singleton.mp hp] at hne
      exact absurd hne Finset.not_nonempty_empty

theorem descends_sharedChunk {name : String}
    (h : ∀ p ∈ done, p.ids.Nonempty → p.group.name ≠ name) :
    Descends done (sharedChunk name) (sharedChunk name) := by
  refine ⟨rfl, rfl, rfl, ?_, ?_⟩
  · intro id
    unfold Keeps
    constructor
    · exact fun hid => nomatch hid
    · intro hk
      rcases hk with ⟨p, hp, hid, hn | ⟨-, hid'⟩⟩ | ⟨-, hid⟩
      · exact absurd hn (h p hp ⟨id, hid⟩)
      · exact nomatch hid'
      · exact nomatch hid
  · simp [losses, sharedChunk, Module.distinct]

theorem Accounted.regroup (h : Accounted base done cs claimed) (group : CacheGroup) :
    Accounted base (done ++ [⟨group, (candidates group cs claimed).toFinset⟩])
      (regroup group (candidates group cs claimed) cs)
      (claimed ++ candidates group cs claimed) := by
  have hnew : ∀ id ∈ candidates group cs claimed, ∀ p ∈ done, id ∉ p.ids := fun id hid =>
    h.unclaimed.mp (held_of_mem_candidates hid).2
  obtain ⟨made, hd⟩ := h.chunks
  have hreceiver : ∃ made, List.Forall₂ (Descends done) (origins base made)
      (withChunkOf group cs) := by
    unfold withChunkOf
    split
    next => exact ⟨made, hd⟩
    next hn =>
      refine ⟨made ++ [group.name], ?_⟩
      rw [origins, List.map_append, ← List.append_assoc]
      refine List.rel_append hd (.cons (descends_sharedChunk fun p hp hne he => hn ?_) .nil)
      obtain ⟨c, hc, hcn⟩ := List.mem_map.mp (h.named p hp hne)
      exact List.any_eq_true.mpr ⟨c, hc, decide_eq_true (hcn.trans he)⟩
  refine ⟨?_, ?_, ?_, ?_, ?_⟩
  · intro id
    simp [h.known, or_and_right, exists_or]
  · refine List.pairwise_append.mpr ⟨h.disjoint, List.pairwise_singleton _ _, ?_⟩
    intro p hp q hq
    rw [List.mem_singleton.mp hq, Finset.disjoint_right]
    exact fun id hid => hnew id (List.mem_toFinset.mp hid) p hp
  · intro c hc
    obtain ⟨c', hc', rfl⟩ := List.mem_map.mp hc
    refine passOn_nodup (candidates_nodup _ _ _) ?_
    rcases mem_withChunkOf hc' with hc' | rfl
    · exact h.nodup c' hc'
    · exact List.nodup_nil
  · obtain ⟨made, hd⟩ := hreceiver
    exact ⟨made, List.forall₂_map_right_iff.mpr (hd.imp fun _ _ hbc => hbc.passOn hnew)⟩
  · intro p hp hne
    rw [names_regroup]
    rcases List.mem_append.mp hp with hp | hp
    · obtain ⟨c, hc, hcn⟩ := List.mem_map.mp (h.named p hp hne)
      exact hcn ▸ List.mem_map_of_mem (mem_withChunkOf_of_mem hc)
    · rw [List.mem_singleton.mp hp, ← @names_regroup group [] cs]
      obtain ⟨b, hb, hbn, -⟩ := exists_receiver group [] cs
      exact hbn ▸ List.mem_map_of_mem hb

/-! ### All groups -/

theorem Accounted.groups (g : ModuleGraph) (groups : List CacheGroup) :
    ∀ {done : List Claim} {s : List Chunk × List ModuleId}, Accounted base done s.1 s.2 →
      Accounted base (groups.foldl (fun done group => done ++ [claim g base done group]) done)
        (groups.foldl (applyGroup g) s).1 (groups.foldl (applyGroup g) s).2 := by
  induction groups with
  | nil => exact fun h => h
  | cons group groups ih =>
    intro done s h
    obtain ⟨cs, claimed⟩ := s
    have hstep : Accounted base (done ++ [claim g base done group])
        (applyGroup g (cs, claimed) group).1 (applyGroup g (cs, claimed) group).2 := by
      rcases claim_cases g h group with ⟨ha, hc⟩ | ⟨ha, hc⟩
      · rw [ha, hc]
        exact h.skip group
      · rw [ha, hc]
        exact h.regroup group
    exact ih hstep

/-! ## What comes of it -/

theorem keeps_of_claimed (hd : done.Pairwise fun p q => Disjoint p.ids q.ids) {p : Claim}
    (hp : p ∈ done) {id : ModuleId} (hid : id ∈ p.ids) {b : Chunk} :
    Keeps done b id ↔ p.group.name = b.name ∨ inScope p.group b = false ∧ id ∈ b.modules := by
  constructor
  · intro hk
    rcases hk with ⟨q, hq, hid', hk⟩ | ⟨hnone, -⟩
    · obtain rfl : p = q := by
        by_contra hne
        exact Finset.disjoint_left.mp (hd.forall hp hq hne) hid hid'
      exact hk
    · exact absurd hid (hnone p hp)
  · exact fun hk => .inl ⟨p, hp, hid, hk⟩

theorem mem_base_of_holds {made : List String} {b : Chunk} (hb : b ∈ origins base made)
    {id : ModuleId} (hid : id ∈ b.modules) : b ∈ base := by
  rcases List.mem_append.mp hb with hb | hb
  · exact hb
  · obtain ⟨name, -, rfl⟩ := List.mem_map.mp hb
    cases hid

theorem tookFrom_name {made : List String} (hn : ((origins base made).map (·.name)).Nodup)
    {b : Chunk} (hb : b ∈ origins base made) (p : Claim) : tookFrom base p b.name =
      (p.group.name ≠ b.name && inScope p.group b && b.modules.any (· ∈ p.ids)) := by
  unfold tookFrom
  rw [Bool.and_assoc]
  congr 1
  rw [Bool.eq_iff_iff, List.any_eq_true]
  simp only [Bool.and_eq_true, decide_eq_true_eq, and_assoc]
  constructor
  · intro h
    obtain ⟨b', hb', hname, h⟩ := h
    obtain rfl := List.inj_on_of_nodup_map hn (List.mem_append_left _ hb') hb hname
    exact h
  · intro h
    obtain ⟨id, hid, -⟩ := List.any_eq_true.mp h.2
    exact ⟨b, mem_base_of_holds hb hid, rfl, h⟩

theorem Accounted.firstClaim (h : Accounted base done cs claimed)
    (hn : (cs.map (·.name)).Nodup) : FirstClaim base done cs := by
  obtain ⟨made, hd⟩ := h.chunks
  obtain ⟨hforward, hback⟩ := exists_of_forall₂ hd
  have hnames : cs.map (·.name) = (origins base made).map (·.name) :=
    map_of_descends hd fun _ _ hbc => hbc.name
  refine ⟨h.disjoint, ⟨made, ?_⟩, hn, ?_, ?_, ?_⟩
  · rw [map_of_descends hd (fun b c hbc => by rw [hbc.name, hbc.kind, hbc.entry]), origins,
      List.map_append, List.map_map]
    rfl
  · intro id hid
    simpa using h.names_holding hid (fun _ => true) fun _ _ _ => rfl
  · intro p hp id hid name
    constructor
    · intro hc
      obtain ⟨c, hc, hname, hmem⟩ := hc
      obtain ⟨b, hb, hbc⟩ := hback c hc
      rcases (keeps_of_claimed h.disjoint hp hid).mp ((hbc.mem id).mp hmem) with hr | ⟨hs, hmem⟩
      · exact .inl (hname.symm.trans (hbc.name.trans hr.symm))
      · exact .inr ⟨b, mem_base_of_holds hb hmem, hbc.name.symm.trans hname, hs, hmem⟩
    · intro hc
      have hheld : ∀ b ∈ origins base made, b.name = name →
          (p.group.name = b.name ∨ inScope p.group b = false ∧ id ∈ b.modules) →
          ∃ c ∈ cs, c.name = name ∧ id ∈ c.modules := by
        intro b hb hname hk
        obtain ⟨c, hc, hbc⟩ := hforward b hb
        exact ⟨c, hc, hbc.name.trans hname,
          (hbc.mem id).mpr ((keeps_of_claimed h.disjoint hp hid).mpr hk)⟩
      rcases hc with rfl | ⟨b, hb, hname, hs, hmem⟩
      · obtain ⟨b, hb, hname⟩ := List.mem_map.mp (hnames ▸ h.named p hp ⟨id, hid⟩)
        exact hheld b hb hname (.inl hname.symm)
      · exact hheld b (List.mem_append_left _ hb) hname (.inr ⟨hs, hmem⟩)
  · intro c hc
    obtain ⟨b, hb, hbc⟩ := hback c hc
    rw [hbc.references, hbc.name, losses]
    have htook := fun p => tookFrom_name (hnames ▸ hn) hb p
    simp only [htook]

end

/-- The cache groups leave the chunks that the rule names, whatever they are and however they merge:
the first group whose claim is large enough has a module, and every chunk that lost one refers to
where it went. -/
theorem partition_firstClaim (g : ModuleGraph) (groups : List CacheGroup) :
    FirstClaim (splitChunks g) (claims g (splitChunks g) groups)
      (ChunkGraph.partition g ⟨true, groups⟩).chunks := by
  have hbase : Accounted (splitChunks g) [] (splitChunks g) [] :=
    accounted_base (holds_splitChunks g).nodup fun b hb => (rooted_of_mem_splitChunks hb).2.1
  exact (Accounted.groups g groups (s := (splitChunks g, [])) hbase).firstClaim
    (names_nodup g ⟨true, groups⟩)

end Partition

end Bundler

import Bundler.Proofs.Build.Run
import Bundler.Proofs.Chunk.Outline

/-!
# What a pass tells of its changes

A pass notes what each module that it puts in changes against the one it replaces. At its end the
notes tell of every module that came, or that depends on other modules or has another size or
another fingerprint than the one that was there when the pass began. They do not tell of the kinds
of dependencies, nor of a placeholder that was replaced.
-/

namespace Bundler

/-- A delta tells in which respects the module of an id differs from an earlier one. -/
structure Delta.Tells (d : Delta) (id : ModuleId) (earlier : Option Module) (m : Module) : Prop where
  dependencies : d.topologyChanged = false →
    ∃ m₀, earlier = some m₀ ∧ m₀.dependencyIds = m.dependencyIds
  size : d.topologyChanged = false → d.sizeChanged = false →
    ∃ m₀, earlier = some m₀ ∧ m₀.size = m.size
  content : d.touched.contains id = false → ∃ m₀, earlier = some m₀ ∧
    m₀.dependencyIds = m.dependencyIds ∧ m₀.fingerprint = m.fingerprint

namespace Delta

/-- Whatever one delta tells, another one tells. -/
structure Within (d d' : Delta) : Prop where
  topology : d'.topologyChanged = false → d.topologyChanged = false
  size : d'.sizeChanged = false → d.sizeChanged = false
  touched : ∀ id, d'.touched.contains id = false → d.touched.contains id = false

variable {d d' : Delta} {id : ModuleId} {earlier : Option Module} {m prev : Module}

theorem Tells.refl (d : Delta) (id : ModuleId) (m : Module) : d.Tells id (some m) m :=
  ⟨fun _ => ⟨m, rfl, rfl⟩, fun _ _ => ⟨m, rfl, rfl⟩, fun _ => ⟨m, rfl, rfl, rfl⟩⟩

theorem Tells.mono (h : d.Tells id earlier m) (hd : d.Within d') : d'.Tells id earlier m :=
  ⟨fun ht => h.dependencies (hd.topology ht), fun ht hs => h.size (hd.topology ht) (hd.size hs),
    fun ht => h.content (hd.touched id ht)⟩

theorem Tells.trans (h : d.Tells id earlier prev) (h' : d.Tells id (some prev) m) :
    d.Tells id earlier m := by
  refine ⟨fun ht => ?_, fun ht hs => ?_, fun ht => ?_⟩
  · obtain ⟨m₁, hm₁, he⟩ := h'.dependencies ht
    obtain rfl := Option.some.inj hm₁
    exact (h.dependencies ht).imp fun _ => And.imp_right (·.trans he)
  · obtain ⟨m₁, hm₁, he⟩ := h'.size ht hs
    obtain rfl := Option.some.inj hm₁
    exact (h.size ht hs).imp fun _ => And.imp_right (·.trans he)
  · obtain ⟨m₁, hm₁, he, hf⟩ := h'.content ht
    obtain rfl := Option.some.inj hm₁
    exact (h.content ht).imp fun _ => And.imp_right (And.imp (·.trans he) (·.trans hf))

/-- A delta tells nothing of errors and states. -/
theorem Tells.of_bare {earlier' : Option Module} (h : d.Tells id earlier m)
    (hb : earlier.map Module.bare = earlier'.map Module.bare) : d.Tells id earlier' m := by
  have hsame : ∀ m₀, earlier = some m₀ → ∃ m₁, earlier' = some m₁ ∧ m₀.bare = m₁.bare := by
    rintro m₀ rfl
    obtain ⟨m₁, hm₁, he⟩ := Option.map_eq_some_iff.mp hb.symm
    exact ⟨m₁, hm₁, he.symm⟩
  have hids : ∀ {a b : Module}, a.bare = b.bare → a.dependencyIds = b.dependencyIds := by
    intro a b he
    unfold Module.dependencyIds Module.targets
    rw [Module.dependencies_of_bare he]
  refine ⟨fun ht => ?_, fun ht hs => ?_, fun ht => ?_⟩
  · obtain ⟨m₀, hm₀, he⟩ := h.dependencies ht
    obtain ⟨m₁, hm₁, hbare⟩ := hsame m₀ hm₀
    exact ⟨m₁, hm₁, (hids hbare).symm.trans he⟩
  · obtain ⟨m₀, hm₀, he⟩ := h.size ht hs
    obtain ⟨m₁, hm₁, hbare⟩ := hsame m₀ hm₀
    exact ⟨m₁, hm₁, (congrArg Module.size hbare).symm.trans he⟩
  · obtain ⟨m₀, hm₀, he, hf⟩ := h.content ht
    obtain ⟨m₁, hm₁, hbare⟩ := hsame m₀ hm₀
    exact ⟨m₁, hm₁, (hids hbare).symm.trans he, (congrArg Module.fingerprint hbare).symm.trans hf⟩

end Delta

namespace Pass

/-! ## One comparison -/

theorem compare_within (d : Delta) (m : Module) (prev : Option Module) :
    d.Within (compare d m prev) := by
  have hadd : ∀ id, (d.touched.add m.id).contains id = false → d.touched.contains id = false := by
    intro id h
    refine eq_false_of_ne_true fun hc => ?_
    exact nomatch h.symm.trans (IdSet.contains_add _ _ _ |>.mpr (.inr hc))
  cases prev with
  | none => exact ⟨fun h => (nomatch h), fun h => h, hadd⟩
  | some prev =>
    refine ⟨fun h => ?_, fun h => ?_, fun id h => ?_⟩
    · exact (Bool.or_eq_false_iff.mp (Bool.or_eq_false_iff.mp h).1).1
    · exact (Bool.or_eq_false_iff.mp h).1
    · unfold compare at h
      dsimp only at h
      split at h
      · exact hadd id h
      · exact h

theorem tells_compare (d : Delta) (m : Module) (prev : Option Module) :
    (compare d m prev).Tells m.id prev m := by
  cases prev with
  | none =>
    refine ⟨fun h => (nomatch h), fun h => (nomatch h), fun h => ?_⟩
    exact nomatch h.symm.trans (IdSet.contains_add _ _ _ |>.mpr (.inl rfl))
  | some prev =>
    unfold compare
    refine ⟨fun h => ⟨prev, rfl, ?_⟩, fun _ h => ⟨prev, rfl, ?_⟩, fun h => ⟨prev, rfl, ?_⟩⟩
    · simpa using (Bool.or_eq_false_iff.mp (Bool.or_eq_false_iff.mp h).1).2
    · simpa using (Bool.or_eq_false_iff.mp h).2
    · dsimp only at h
      split at h
      next => exact nomatch h.symm.trans (IdSet.contains_add _ _ _ |>.mpr (.inl rfl))
      next hn =>
        simp only [Bool.or_eq_true, decide_eq_true_eq, not_or, not_not, ne_eq] at hn
        exact ⟨hn.1.1, hn.2⟩

/-! ## A pass -/

/-- What stands in the graph of a pass differs from what an earlier graph held in what the pass
tells of. -/
def Notices (g : ModuleGraph) (p : Pass) : Prop :=
  ∀ id m, p.graph.get? id = some m → p.delta.Tells id (g.get? id) m

namespace Notices

variable {g : ModuleGraph} {p : Pass}

theorem contains (h : p.Notices g) {id : ModuleId} (hid : p.graph.contains id = true) :
    g.contains id = true ∨ p.delta.topologyChanged = true := by
  obtain ⟨m, hm⟩ := ModuleGraph.contains_iff.mp hid
  cases ht : p.delta.topologyChanged with
  | true => exact .inr rfl
  | false => exact .inl (ModuleGraph.contains_iff.mpr (((h id m hm).dependencies ht).imp fun _ => And.left))

theorem new (g : ModuleGraph) (eager : List ModuleId) : Notices g { graph := g, eager } := by
  intro id m hm
  rw [show g.get? id = some m from hm]
  exact .refl _ id m

theorem of_sameBare {h : ModuleGraph} (hp : p.Notices g) (hb : g.SameBare h) : p.Notices h :=
  fun id m hm => (hp id m hm).of_bare (hb id)

theorem record (h : p.Notices g) (m : Module) : (p.record m).Notices g := by
  intro id m' hm'
  rw [get?_record] at hm'
  have hw : p.delta.Within (p.record m).delta := compare_within _ _ _
  split at hm'
  next hid =>
    obtain rfl := Option.some.inj hm'
    obtain rfl := hid
    have ht : (p.record m).delta.Tells m.id (p.graph.get? m.id) m := tells_compare _ _ _
    cases hp : p.graph.get? m.id with
    | none =>
      -- Nothing was there, so that everything is told of.
      rw [hp] at ht
      have hno : ∀ {Q : Module → Prop}, ¬ ∃ m₀, (none : Option Module) = some m₀ ∧ Q m₀ :=
        fun ⟨_, h, _⟩ => nomatch h
      exact ⟨fun h => absurd (ht.dependencies h) hno, fun h h' => absurd (ht.size h h') hno,
        fun h => absurd (ht.content h) hno⟩
    | some prev =>
      rw [hp] at ht
      exact ((h m.id prev hp).mono hw).trans ht
  next => exact (h id m' hm').mono hw

theorem spawn (h : p.Notices g) (c : Bool) (id : ModuleId) : (p.spawn c id).Notices g := by
  cases c with
  | true =>
    have hv : Notices g { p with visited := id :: p.visited } := h
    exact hv.record _
  | false =>
    intro x m hm
    rw [spawn_false] at hm ⊢
    rw [ModuleGraph.get?_setState] at hm
    split at hm
    next =>
      obtain ⟨m', hm', rfl⟩ := Option.map_eq_some_iff.mp hm
      have h' := h x m' hm'
      exact ⟨h'.dependencies, h'.size, h'.content⟩
    next => exact h x m hm

theorem follow (h : p.Notices g) (lazyCompilation c : Bool) (d : Dependency) :
    (p.follow lazyCompilation c d).Notices g :=
  follow_keeps (I := Notices g) h lazyCompilation c d (fun _ _ => h.record _)
    (fun _ _ _ => h.record _) fun t _ _ => h.spawn c t

theorem seed (h : p.Notices g) (root : Path) (c : Bool) (name specifier : String)
    (r : Resolution) : (p.seed root c name specifier r).Notices g := by
  apply seed_keeps root c name specifier r (fun _ => h)
  intro id
  have hg : Notices g { p with graph := p.graph.setEntry name id } := h
  exact enqueue_keeps hg c id fun _ _ => hg.spawn c id

theorem delivers {r : Rules} {q : Pass} (h : p.Notices g) (hd : Delivers r p q) : q.Notices g := by
  cases hd with
  | @intro s id m _ _ hf =>
    have hs : Notices g s :=
      hf.keeps (fun c _ d _ s hs => hs.follow r.lazyCompilation c d) (h : Notices g (p.takeIn id))
    have hs' : Notices g
        { s with delta := { s.delta with processed := s.delta.processed ++ [m.id] } } :=
      fun x m' hm' => (hs x m' hm').mono ⟨fun h => h, fun h => h, fun _ h => h⟩
    exact hs'.record m

end Notices

/-- A pass tells of what it changed. -/
theorem Completes.notices {r : Rules} {root : Path} {g : ModuleGraph} {eager : List ModuleId}
    {seeds : Seeds} {q : Pass} (h : Completes r root g eager seeds q) : q.Notices g := by
  obtain ⟨p, ⟨he, hr⟩, hruns, -⟩ := h
  have hp : p.Notices g := hr.keeps (I := Notices g)
    (fun c _ id _ s hs => reprocess_keeps (I := Notices g) hs c id fun _ => hs.spawn c id)
    (he.keeps (fun c _ e _ s hs => hs.seed root c _ _ _) (Notices.new g eager))
  induction hruns with
  | refl => exact hp
  | tail _ hd ih => exact ih.delivers hd

end Pass

end Bundler

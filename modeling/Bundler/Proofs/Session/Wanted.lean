import Bundler.Proofs.Build.Heard
import Bundler.Proofs.Session.Calls

/-!
# What a build loads

A build loads what its modules ask for, whatever others say about it, but for one case: the first
dependency on an id that is followed says that it is outside, and no entry leads to it.
-/

namespace Bundler

namespace Session

/-- After a build, the target of a dependency that is inside, and not left for later, is loaded,
unless the first dependency on it that was followed says that it is outside and no entry leads to
it. What is loaded was processed, or tells that the build was cancelled before. -/
theorem build_loads {s : Session} {entries : List ((String × String) × Resolution)} {q : Pass}
    (h : Pass.Completes s.rules s.project.resolver.root {} s.compiled.ids { entries } q)
    (inquiries : Inquiries) (files : FileTree) (started : List ProgressEvent) :
    let g := ({ s with inquiries, bundle := {}, built := true }.finish files q []
      started).session.graph
    ∀ a m, g.get? a = some m → ∀ d ∈ m.dependencies, ∀ t, d.target = some t → d.external = false →
      (s.project.lazyCompilation && !d.kind.isStatic && !s.compiled.ids.contains t) = false →
      ∃ n, g.get? t = some n ∧ n.isLazy = false ∧
        (n.external = true ↔
          q.saidOutside t = true ∧ ∀ e ∈ entries, e.2.entryId? ≠ some t) ∧
        (n.external = false →
          t ∈ q.delta.processed ∨ .load t.text "build cancelled" ∈ n.errors) := by
  intro g a m hm d hd t ht hx hnow
  have hg : g = q.graph.prune.1.settle := finish_graph ..
  rw [hg] at hm ⊢
  obtain ⟨hreach, m₀, hm₀, rfl⟩ := ModuleGraph.get?_settle_prune.mp hm
  rw [Module.settled_dependencies] at hd
  have hask : s.rules.ask s.compiled.ids t d = .now := by
    unfold Pass.Rules.ask
    rw [hx, if_neg Bool.false_ne_true]
    exact if_neg (ne_true_of_eq_false hnow)
  obtain ⟨n, hn, hl, hout, hend⟩ := h.wanted (fun _ _ hout => hout) hm₀ hd ht hask
  refine ⟨n.settled, ?_, by rw [Module.settled_isLazy, hl], ?_, ?_⟩
  · have hedge : q.graph.Edge a t := ⟨m₀, hm₀, List.mem_filterMap.mpr ⟨d, hd, ht⟩⟩
    exact ModuleGraph.get?_settle_prune.mpr ⟨hreach.step hedge, n, hn, rfl⟩
  · rw [Module.settled_external]
    exact hout
  · rw [Module.settled_external, Module.settled_errors]
    intro hin
    refine (hend hin).imp_right ?_
    rintro rfl
    exact List.mem_cons_self

/-- A module that imports a file first by a name that is outside, and then as one of its own. -/
theorem build_loads_of_two_names :
    ∃ (s : Session) (q : Pass) (files : FileTree),
      Pass.Completes s.rules s.project.resolver.root {} s.compiled.ids
        { entries := [(("main", "./a.js"), ⟨.ok ⟨⟨"/p/a.js"⟩, false⟩, none⟩)] } q ∧
      ∃ n, ({ s with bundle := {}, built := true }.finish files q [] []).session.graph.get?
          ⟨"/p/b.js"⟩ = some n ∧ n.isLazy = false ∧ n.external = true := by
  let a : ModuleId := ⟨"/p/a.js"⟩
  let b : ModuleId := ⟨"/p/b.js"⟩
  let d₁ : Dependency := ⟨"/p/b.js", .staticImport, 1, some b, true⟩
  let d₂ : Dependency := ⟨"./b.js", .staticImport, 2, some b, false⟩
  let m : Module := { id := a, dependencies := [d₁, d₂], state := .fresh }
  let s : Session :=
    { options := {}, root := ⟨"/p"⟩
      project := ⟨⟨⟨"/p"⟩, [], [], []⟩, { loaders := {} }, true⟩
      renderer := { options := { root := ⟨"/p"⟩ } } }
  let p : Pass := Pass.seed { graph := {} } ⟨"/p"⟩ false "main" "./a.js" ⟨.ok ⟨a, false⟩, none⟩
  let q : Pass := p.deliver s.rules.lazyCompilation false a m
  have hb : Pass.Begins s.rules ⟨"/p"⟩
      { entries := [(("main", "./a.js"), ⟨.ok ⟨a, false⟩, none⟩)] } { graph := {} } p :=
    .intro (.cons false trivial (.nil _)) (.nil _)
  have hid : a ∈ p.outstanding := List.mem_singleton.mpr rfl
  have hd : Pass.Delivers s.rules p q := .of_deliver hid ⟨rfl, rfl, rfl⟩ trivial
  have hruns : Pass.Runs s.rules p q := .single hd
  have hrest : q.outstanding = [] := by decide +kernel
  have h : Pass.Completes s.rules s.project.resolver.root {} s.compiled.ids
      { entries := [(("main", "./a.js"), ⟨.ok ⟨a, false⟩, none⟩)] } q := ⟨p, hb, hruns, hrest⟩
  refine ⟨s, q, ⟨.dir [], []⟩, h, ?_⟩
  have hentry : q.graph.entries.get? "main" = some a := by
    rw [(Pass.Runs.entries_eq hruns).1]
    exact (Table.get?_insert ..).trans (if_pos rfl)
  have hmain : q.graph.get? a = some m := (Pass.get?_record _ m a).trans (if_pos rfl)
  have hfinal : q.graph.prune.1.settle.get? a = some m.settled :=
    ModuleGraph.get?_settle_prune.mpr ⟨.entry hentry, m, hmain, rfl⟩
  have hget : ({ s with bundle := {}, built := true }.finish ⟨.dir [], []⟩ q []
      []).session.graph.get? a = some m.settled := by
    rw [finish_graph]
    exact hfinal
  obtain ⟨n, hn, hl, hout, -⟩ := build_loads h s.inquiries ⟨.dir [], []⟩ [] a _ hget d₂
    (List.mem_cons_of_mem _ List.mem_cons_self) b rfl rfl rfl
  exact ⟨n, hn, hl, hout.mpr (by decide +kernel)⟩

end Session

end Bundler

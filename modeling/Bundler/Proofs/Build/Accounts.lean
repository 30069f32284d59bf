import Bundler.Proofs.Build.Tasks
import Bundler.Proofs.Resolve.Fallback

/-!
# Failures are accounted for

A question to the host that fails is asked by the task of one module. From then on the task carries
the failure, and when it is over the module in the graph does, with the error of what was done
instead if that went wrong too. A breakdown of the host during a question for the same module puts
an end to this: the task drops what it carries, and the module tells of the breakdown alone.
-/

namespace Bundler

/-! ## Modules that tell of failures -/

/-- Errors that tell of a load that failed, and of its file if that could not be loaded either. -/
def Project.TellsOfLoad (p : Project) (files : FileTree) (id : ModuleId) (f : HookFailure)
    (errors : List BuildError) : Prop :=
  Bridge.failure .load id.text f ∈ errors ∧
    ∀ e, p.loading.ofFile files id none = .error e → e ∈ errors

section
variable (p : Project) (files : FileTree)

/-- A module that tells of a question of its own that failed. -/
def Module.Admits (m : Module) (f : HookFailure) : HostCall → Prop
  | .load _ => p.TellsOfLoad files m.id f m.errors
  | .resolve q => Bridge.failure .resolve q.importee f ∈ m.errors ∧
      ∃ d ∈ m.dependencies, p.resolver.asked d.specifier = q.importee ∧
        (d.target = none → ∃ reason, .resolve m.id.path.text d.specifier reason ∈ m.errors)

/-- A module that nothing is known of but that a question for it broke down. -/
def Module.BrokeDown (m : Module) (b : Bridge) : Prop :=
  ∃ reason call, m = Project.broken m.id reason ∧ call.module? = some m.id.text ∧ b.Broken call

/-- A module that tells of a question of its own that failed, unless it broke down. -/
def Module.Answers (b : Bridge) (f : HookFailure) (call : HostCall) (m : Module) : Prop :=
  m.Admits p files f call ∨ m.BrokeDown b

def Draft.Admits (d : Draft) (f : HookFailure) : HostCall → Prop
  | .load _ => p.TellsOfLoad files d.id f d.errors
  | .resolve q =>
    p.resolver.FellAmong Mention.specifier (some d.id) d.id.dir d.mentions f (.resolve q)

def Task.Answers (b : Bridge) (f : HookFailure) (call : HostCall) : Task → Prop
  | .loading _ => False
  | .resolving d => d.Admits p files f call
  | .done m => m.Answers p files b f call

variable {p files}

theorem Module.BrokeDown.settled {m : Module} {b : Bridge} (h : m.BrokeDown b) :
    m.settled.BrokeDown b := by
  obtain ⟨reason, call, hm, hcall, hb⟩ := h
  have hsettled : m.settled = m := by
    rw [hm]
    rfl
  rw [hsettled]
  exact ⟨reason, call, hm, hcall, hb⟩

theorem Module.Answers.mono {m : Module} {b c : Bridge} {f : HookFailure} {call : HostCall}
    (h : m.Answers p files b f call) (hb : ∀ call, b.Broken call → c.Broken call) :
    m.Answers p files c f call := by
  refine h.imp_right ?_
  rintro ⟨reason, call', hm, hcall, hbroke⟩
  exact ⟨reason, call', hm, hcall, hb call' hbroke⟩

theorem Task.Answers.mono {t : Task} {b c : Bridge} {f : HookFailure} {call : HostCall}
    (h : t.Answers p files b f call) (hb : ∀ call, b.Broken call → c.Broken call) :
    t.Answers p files c f call := by
  cases t with
  | loading id => exact h.elim
  | resolving d => exact h
  | done m => exact Module.Answers.mono h hb

theorem Module.Admits.settled {m : Module} {f : HookFailure} {call : HostCall}
    (h : m.Admits p files f call) : m.settled.Admits p files f call := by
  cases call with
  | load id =>
    simp only [Admits, Module.settled_id, Module.settled_errors]
    exact h
  | resolve q =>
    simp only [Admits, Module.settled_id, Module.settled_errors, Module.settled_dependencies]
    exact h

theorem Project.tellsOfLoad_search (p : Project) (files : FileTree) (id : ModuleId)
    (f : HookFailure) :
    match p.search id ⟨p.loading.ofFile files id none, some (Bridge.failure .load id.text f)⟩ with
    | .error m => p.TellsOfLoad files id f m.errors
    | .ok d => p.TellsOfLoad files id f d.errors := by
  unfold search
  cases hload : p.loading.ofFile files id none with
  | error e =>
    refine ⟨List.mem_cons_self, ?_⟩
    intro e' he
    rw [hload] at he
    cases he
    exact List.mem_cons_of_mem _ List.mem_cons_self
  | ok l =>
    have hno : ∀ (es : List BuildError) e, p.loading.ofFile files id none = .error e → e ∈ es := by
      intro es e he
      rw [hload] at he
      cases he
    dsimp only
    cases p.loading.transform id l with
    | error e => exact ⟨List.mem_cons_self, hno _⟩
    | ok t =>
      dsimp only
      cases t.dependencies id l.loader with
      | error e => exact ⟨List.mem_cons_self, hno _⟩
      | ok found => exact ⟨List.mem_cons_self, hno _⟩

theorem Project.errors_of_dependency {m : Mention} {x : Resolution} {source : Path}
    {f : HookFailure} (h : x.FellThrough p.resolver m.specifier source f) :
    Bridge.failure .resolve (p.resolver.asked m.specifier) f ∈ (dependency m x).2 ∧
      (dependency m x).1.specifier = m.specifier ∧
      ((dependency m x).1.target = none →
        ∃ reason, .resolve source.text m.specifier reason ∈ (dependency m x).2) := by
  unfold dependency
  cases hx : x.outcome with
  | ok t => simp [h.hookError]
  | error e =>
    obtain ⟨hspec, hsource⟩ := h.error e hx
    refine ⟨by simp [h.hookError], rfl, fun _ => ⟨e.reason, ?_⟩⟩
    rw [← hspec, ← hsource]
    simp [ResolveError.toBuildError]

theorem Draft.Admits.toModule {d : Draft} {f : HookFailure} {call : HostCall}
    (h : d.Admits p files f call) : d.toModule.Admits p files f call := by
  cases call with
  | load id =>
    refine ⟨List.mem_append_left _ h.1, ?_⟩
    intro e he
    exact List.mem_append_left _ (h.2 e he)
  | resolve q =>
    obtain ⟨m, x, hmem, hcall, hfell⟩ := h
    cases hcall
    obtain ⟨h1, h2, h3⟩ := Project.errors_of_dependency hfell
    have hdep : Project.dependency m x ∈
        d.mentions.filterMap fun x => x.2.map (Project.dependency x.1) :=
      List.mem_filterMap.mpr ⟨(m, some x), hmem, rfl⟩
    have herr : ∀ e ∈ (Project.dependency m x).2, e ∈ d.toModule.errors := by
      intro e he
      exact List.mem_append_right _ (List.mem_flatMap.mpr ⟨_, hdep, he⟩)
    refine ⟨herr _ h1, (Project.dependency m x).1, List.mem_map_of_mem hdep, ?_, ?_⟩
    · rw [h2]
    · intro hnone
      obtain ⟨reason, hr⟩ := h3 hnone
      rw [h2]
      exact ⟨reason, herr _ hr⟩

end

namespace Task

variable {p : Project} {w : World} {s : Inquiries}

/-- The questions that a task asks are for its module, and it tells of those that fail unless it
breaks down. -/
theorem adds_step (hs : s.bridge.AtRest) (late : Bool) (t : Task) :
    (s.bridge.Adds (t.step p w late s).1.bridge fun f call => call.module? = some t.id.text ∧
      (t.step p w late s).2.Answers p w.files (t.step p w late s).1.bridge f call) ∧
    ∀ f call, t.Answers p w.files s.bridge f call →
      (t.step p w late s).2.Answers p w.files (t.step p w late s).1.bridge f call := by
  cases t with
  | loading id =>
    refine ⟨?_, fun f call h => h.elim⟩
    obtain ⟨hload, -⟩ := Loading.adds_load (p := p.loading) (w := w) hs id
    unfold step
    dsimp only
    generalize p.loading.load w s.bridge id = out at hload
    obtain ⟨bridge, res⟩ := out
    cases res with
    | error reason => exact hload.mono fun f call h => nomatch h.2
    | ok r =>
      dsimp only at hload ⊢
      cases hsearch : p.search id r with
      | error m =>
        refine hload.mono ?_
        rintro f call ⟨rfl, hr⟩
        cases hr
        have ht : p.TellsOfLoad w.files m.id f m.errors := by
          have h := p.tellsOfLoad_search w.files id f
          rw [hsearch] at h
          rw [(Project.isOutput_of_search hsearch).1]
          exact h
        exact ⟨rfl, .inl ht⟩
      | ok d =>
        refine hload.mono ?_
        rintro f call ⟨rfl, hr⟩
        cases hr
        have ht : p.TellsOfLoad w.files d.id f d.errors := by
          have h := p.tellsOfLoad_search w.files id f
          rw [hsearch] at h
          rw [Project.id_of_search hsearch]
          exact h
        exact ⟨rfl, ht⟩
  | resolving d =>
    have hacc := p.resolver.accounted_resolveOpen w (some d.id) d.id.dir Mention.specifier late
      d.mentions hs
    unfold step
    dsimp only
    generalize p.resolver.resolveOpen w _ _ _ late d.mentions s = out at hacc ⊢
    obtain ⟨t, res⟩ := out
    cases res with
    | error reason =>
      -- What the draft carries is dropped.
      obtain ⟨call, hcall, hbroke⟩ := hacc.broke reason rfl
      have hbroken : ∀ f call, (Task.done (Project.broken d.id reason)).Answers p w.files t.bridge
          f call := fun _ _ => .inr ⟨reason, call, rfl, hcall, hbroke⟩
      exact ⟨hacc.adds.mono fun f call h => ⟨h.1, hbroken f call⟩, fun f call _ => hbroken f call⟩
    | ok mentions =>
      dsimp only
      -- A draft whose mentions are all resolved becomes its module.
      have hnext : ∀ f call, Draft.Admits p w.files { d with mentions } f call →
          Task.Answers p w.files t.bridge f call
            (if (Draft.openMentions { d with mentions }).isEmpty then
              .done (Draft.toModule { d with mentions })
            else .resolving { d with mentions }) := by
        intro f call h
        split
        · exact .inl h.toModule
        · exact h
      refine ⟨hacc.adds.mono ?_, fun f call h => hnext f call ?_⟩
      · rintro f call ⟨hcall, hamong⟩
        obtain ⟨m, x, hmem, rfl, hfell⟩ := hamong mentions rfl
        exact ⟨hcall, hnext f _ ⟨m, x, hmem, rfl, hfell⟩⟩
      · cases call with
        | load id => exact h
        | resolve q =>
          obtain ⟨m, x, hmem, hcall, hfell⟩ := h
          exact ⟨m, x, hacc.kept mentions rfl m x hmem, hcall, hfell⟩
  | done m => exact ⟨.refl hs _, fun f call h => h⟩

theorem adds_stepAll (late : Bool) (ts : List (Task × Bool)) (hs : s.bridge.AtRest) :
    (s.bridge.Adds (stepAll p w late s ts).1.bridge fun f call =>
      ∃ t ∈ (stepAll p w late s ts).2, call.module? = some t.id.text ∧
        t.Answers p w.files (stepAll p w late s ts).1.bridge f call) ∧
    ∀ t ∈ ts, ∃ t' ∈ (stepAll p w late s ts).2, t'.id = t.1.id ∧
      ∀ f call, t.1.Answers p w.files s.bridge f call →
        t'.Answers p w.files (stepAll p w late s ts).1.bridge f call := by
  induction ts generalizing s with
  | nil => exact ⟨.refl hs _, fun t h => nomatch h⟩
  | cons x ts ih =>
    obtain ⟨t, held⟩ := x
    have hhead : ∃ j t', t'.id = t.id ∧
        (s.bridge.Adds j.bridge fun f call =>
          call.module? = some t'.id.text ∧ t'.Answers p w.files j.bridge f call) ∧
        (∀ f call, t.Answers p w.files s.bridge f call → t'.Answers p w.files j.bridge f call) ∧
        stepAll p w late s ((t, held) :: ts) =
          ((stepAll p w late j ts).1, t' :: (stepAll p w late j ts).2) := by
      cases held with
      | true => exact ⟨s, t, rfl, .refl hs _, fun f call h => h, rfl⟩
      | false =>
        obtain ⟨h1, h2⟩ := adds_step (p := p) (w := w) hs late t
        refine ⟨(t.step p w late s).1, (t.step p w late s).2, id_step p w late s t, ?_, h2, rfl⟩
        rw [id_step]
        exact h1
    obtain ⟨j, t', hid, hadds, hkeep, he⟩ := hhead
    obtain ⟨h1, h2⟩ := ih hadds.atRest
    rw [he]
    refine ⟨.trans (hadds.mono ?_) (h1.mono ?_), ?_⟩
    · rintro f call ⟨hcall, h⟩
      exact ⟨t', List.mem_cons_self, hcall, h.mono h1.broken⟩
    · rintro f call ⟨u, hu, h⟩
      exact ⟨u, List.mem_cons_of_mem _ hu, h⟩
    · intro x hx
      rcases List.mem_cons.mp hx with rfl | hx
      · exact ⟨t', List.mem_cons_self, hid, fun f call h => (hkeep f call h).mono h1.broken⟩
      · obtain ⟨u, hu, hid, h⟩ := h2 x hx
        exact ⟨u, List.mem_cons_of_mem _ hu, hid, fun f call hx => h f call (hx.mono hadds.broken)⟩

theorem adds_round (ts : List Task) (hs : s.bridge.AtRest) :
    (s.bridge.Adds (round p w s ts).1.bridge fun f call =>
      ∃ t ∈ (round p w s ts).2, call.module? = some t.id.text ∧
        t.Answers p w.files (round p w s ts).1.bridge f call) ∧
    ∀ t ∈ ts, ∃ t' ∈ (round p w s ts).2, t'.id = t.id ∧
      ∀ f call, t.Answers p w.files s.bridge f call →
        t'.Answers p w.files (round p w s ts).1.bridge f call := by
  unfold round
  dsimp only
  generalize ts.all _ = late
  obtain ⟨h1, h2⟩ := adds_stepAll (p := p) (w := w) late
    (ts.map fun t => (t, !late && t.isStalled p w s.bridge)) hs
  exact ⟨h1, fun t ht => h2 _ (List.mem_map_of_mem ht)⟩

end Task

/-! ## Modules that are in -/

namespace Pass

/-- The task of an id is over. -/
def Over (p : Pass) (id : ModuleId) : Prop := id ∈ p.visited ∧ id ∉ p.outstanding

/-- The task of an id is over, and its module is in the graph. -/
def Holds (p : Pass) (Q : Module → Prop) (id : ModuleId) : Prop :=
  p.Over id ∧ ∃ m, p.graph.get? id = some m ∧ m.id = id ∧ Q m

variable {p : Pass} {Q : Module → Prop} {id : ModuleId}

/-- All that can come of a dependency: nothing, a module that was not loaded where there was none,
or a task for an id that had none. -/
theorem follow_cases (p : Pass) (lazyCompilation c : Bool) (d : Dependency) :
    p.follow lazyCompilation c d = p ∨
      (∃ m, p.graph.contains m.id = false ∧ p.follow lazyCompilation c d = p.record m) ∨
      ∃ t, t ∉ p.visited ∧ p.follow lazyCompilation c d = p.spawn c t :=
  follow_keeps (I := fun q => q = p ∨ (∃ m, p.graph.contains m.id = false ∧ q = p.record m) ∨
      ∃ t, t ∉ p.visited ∧ q = p.spawn c t) (.inl rfl) lazyCompilation c d
    (fun t hc => .inr (.inl ⟨.outside t, hc, rfl⟩))
    (fun t hc _ => .inr (.inl ⟨.placeholder t, hc, rfl⟩))
    fun t hv _ => .inr (.inr ⟨t, hv, rfl⟩)

theorem Over.spawn (h : p.Over id) (c : Bool) {t : ModuleId} (ht : t ∉ p.visited) :
    (p.spawn c t).Over id := by
  have hne : id ≠ t := fun he => ht (he ▸ h.1)
  cases c with
  | true => exact ⟨List.mem_cons_of_mem _ h.1, h.2⟩
  | false =>
    refine ⟨List.mem_cons_of_mem _ h.1, ?_⟩
    intro hm
    rcases List.mem_append.mp hm with hm | hm
    · exact h.2 hm
    · exact hne (List.mem_singleton.mp hm)

theorem get?_spawn_of_ne (p : Pass) (c : Bool) {t : ModuleId} (hne : id ≠ t) :
    (p.spawn c t).graph.get? id = p.graph.get? id := by
  cases c with
  | true =>
    rw [spawn_true, get?_record]
    exact if_neg hne
  | false =>
    rw [spawn_false]
    dsimp only
    rw [ModuleGraph.get?_setState, if_neg hne]

theorem Over.follow (h : p.Over id) (lazyCompilation c : Bool) (d : Dependency) :
    (p.follow lazyCompilation c d).Over id := by
  rcases p.follow_cases lazyCompilation c d with he | ⟨m, hm, he⟩ | ⟨t, ht, he⟩ <;> rw [he]
  · exact h
  · exact h
  · exact h.spawn c ht

theorem Holds.mono {Q' : Module → Prop} (h : p.Holds Q id) (hQ : ∀ m, Q m → Q' m) :
    p.Holds Q' id := by
  obtain ⟨hover, m, hget, hid, hq⟩ := h
  exact ⟨hover, m, hget, hid, hQ m hq⟩

theorem Holds.follow (h : p.Holds Q id) (lazyCompilation c : Bool) (d : Dependency) :
    (p.follow lazyCompilation c d).Holds Q id := by
  obtain ⟨hover, m, hget, hm⟩ := h
  refine ⟨hover.follow lazyCompilation c d, m, ?_, hm⟩
  rcases p.follow_cases lazyCompilation c d with he | ⟨m', hc, he⟩ | ⟨t, ht, he⟩ <;> rw [he]
  · exact hget
  · rw [get?_record, if_neg]
    · exact hget
    · rintro rfl
      rw [ModuleGraph.contains_eq_false.mp hc] at hget
      cases hget
  · rw [get?_spawn_of_ne]
    · exact hget
    · rintro rfl
      exact ht hover.1

theorem Holds.deliver (h : p.Holds Q id) (lazyCompilation c : Bool) {m : Module} (hne : id ≠ m.id) :
    (p.deliver lazyCompilation c m.id m).Holds Q id := by
  have htake : (p.takeIn m.id).Holds Q id :=
    ⟨⟨h.1.1, fun hm => h.1.2 (List.mem_of_mem_erase hm)⟩, h.2⟩
  obtain ⟨hover, m', hget, hm'⟩ := (follow_each lazyCompilation c m.dependencies (p.takeIn m.id)).keeps
    (I := fun q => q.Holds Q id) (fun c' _ d _ q hq => hq.follow lazyCompilation c' d) htake
  refine ⟨hover, m', ?_, hm'⟩
  unfold Pass.deliver
  rw [get?_accept, if_neg hne]
  exact hget

/-- A task that delivers is over, and its module is in. -/
theorem holds_deliver (hp : p.Tidy) (lazyCompilation c : Bool) {m : Module}
    (hm : m.id ∈ p.outstanding) (hq : Q m) :
    (p.deliver lazyCompilation c m.id m).Holds Q m.id := by
  have htake : (p.takeIn m.id).Over m.id :=
    ⟨hp.started m.id hm, hp.outstanding.not_mem_erase⟩
  have hover := (follow_each lazyCompilation c m.dependencies (p.takeIn m.id)).keeps
    (I := fun q => q.Over m.id) (fun c' _ d _ q hq => hq.follow lazyCompilation c' d) htake
  refine ⟨hover, m, ?_, rfl, hq⟩
  unfold Pass.deliver
  rw [get?_accept, if_pos rfl]

theorem Tidy.deliver (hp : p.Tidy) (lazyCompilation c : Bool) {m : Module}
    (hm : m.id ∈ p.outstanding) : (p.deliver lazyCompilation c m.id m).Tidy :=
  hp.delivers (r := ⟨lazyCompilation, fun _ _ => True, fun _ => True⟩)
    (.of_deliver hm trivial trivial)

theorem holds_deliverAll (lazyCompilation c : Bool) (ts : List Task) (hp : p.Tidy)
    (hn : (ts.map Task.id).Nodup) (ho : ∀ id ∈ ts.map Task.id, id ∈ p.outstanding) :
    (∀ Q id, p.Holds Q id → (p.deliverAll lazyCompilation c ts).Holds Q id) ∧
      ∀ (Q : Module → Prop) m, .done m ∈ ts → Q m →
        (p.deliverAll lazyCompilation c ts).Holds Q m.id := by
  induction ts generalizing p with
  | nil => exact ⟨fun Q id h => h, fun Q m h => nomatch h⟩
  | cons t ts ih =>
    rw [List.map_cons, List.nodup_cons] at hn
    have ho' : ∀ id ∈ ts.map Task.id, id ∈ p.outstanding :=
      fun x hx => ho x (List.mem_cons_of_mem _ hx)
    have hskip : t.module? = none →
        p.deliverAll lazyCompilation c (t :: ts) = p.deliverAll lazyCompilation c ts := by
      intro hnone
      unfold deliverAll
      rw [List.filterMap_cons_none hnone]
    cases t with
    | done m =>
      have hm : m.id ∈ p.outstanding := ho m.id List.mem_cons_self
      obtain ⟨i1, i2⟩ := ih (hp.deliver lazyCompilation c hm) hn.2 fun x hx =>
        mem_outstanding_deliver (ho' x hx) (ne_of_mem_of_not_mem hx hn.1) lazyCompilation c m
      refine ⟨fun Q id h => i1 Q id (h.deliver lazyCompilation c ?_), ?_⟩
      · rintro rfl
        exact h.1.2 hm
      · intro Q m' hmem hq
        rcases List.mem_cons.mp hmem with hmem | hmem
        · cases hmem
          exact i1 Q m.id (holds_deliver hp lazyCompilation c hm hq)
        · exact i2 Q m' hmem hq
    | loading x =>
      obtain ⟨i1, i2⟩ := ih hp hn.2 ho'
      rw [hskip rfl]
      exact ⟨i1, fun Q m hmem => i2 Q m ((List.mem_cons.mp hmem).resolve_left fun he => nomatch he)⟩
    | resolving d =>
      obtain ⟨i1, i2⟩ := ih hp hn.2 ho'
      rw [hskip rfl]
      exact ⟨i1, fun Q m hmem => i2 Q m ((List.mem_cons.mp hmem).resolve_left fun he => nomatch he)⟩

/-! ## Whole passes -/

/-- Each question that failed since some time is told of by the task of its module or, when that is
over, by the module, unless it broke down. -/
def Accounts (project : Project) (files : FileTree) (since b : Bridge) (p : Pass)
    (ts : List Task) : Prop :=
  ∀ f call id, since.Failed b f call → call.module? = some id.text →
    (∃ t ∈ ts, t.id = id ∧ t.Answers project files b f call) ∨
      p.Holds (Module.Answers project files b f call) id

variable {project : Project} {w : World} {since : Bridge} {s s' : Inquiries} {ts : List Task}

theorem Accounts.round (h : p.Accounts project w.files since s.bridge ts) (hs : s.bridge.AtRest)
    (hp : p.Tidy) {out : Inquiries × List Task} (hout : Task.round project w s ts = out)
    (hn : (out.2.map Task.id).Nodup) (ho : ∀ id ∈ out.2.map Task.id, id ∈ p.outstanding)
    (c : Bool) :
    (s.bridge.Adds out.1.bridge fun _ call => ∃ id, call.module? = some id) ∧
      (p.deliverAll project.lazyCompilation c out.2).Accounts project w.files since out.1.bridge
        ((p.deliverAll project.lazyCompilation c out.2).nextTasks out.2) := by
  obtain ⟨hadds, hkeep⟩ := Task.adds_round (p := project) (w := w) ts hs
  rw [hout] at hadds hkeep
  refine ⟨hadds.mono fun f call ⟨t, _, hmodule, _⟩ => ⟨_, hmodule⟩, ?_⟩
  intro f call id hf hmodule
  obtain ⟨hold, hdone⟩ := holds_deliverAll project.lazyCompilation c out.2 hp hn ho
  -- A task that tells of a question goes on, or leaves a module that tells of it.
  have hnext : ∀ t ∈ out.2, t.id = id → t.Answers project w.files out.1.bridge f call →
      (∃ t ∈ (p.deliverAll project.lazyCompilation c out.2).nextTasks out.2, t.id = id ∧
        t.Answers project w.files out.1.bridge f call) ∨
      (p.deliverAll project.lazyCompilation c out.2).Holds
        (Module.Answers project w.files out.1.bridge f call) id := by
    rintro t ht rfl hanswers
    cases hm : t.module? with
    | none =>
      refine .inl ⟨t, List.mem_append_left _ (List.mem_filter.mpr ⟨ht, ?_⟩), rfl, hanswers⟩
      rw [hm]
      rfl
    | some m =>
      cases t with
      | done m' => exact .inr (hdone (Module.Answers project w.files _ f call) m' ht hanswers)
      | loading id => cases hm
      | resolving d => cases hm
  rcases hadds.failed since f call hf with hf | ⟨t, ht, hmodule', hanswers⟩
  · rcases h f call id hf hmodule with ⟨t, ht, hid, hanswers⟩ | hholds
    · obtain ⟨t', ht', hid', hstep⟩ := hkeep t ht
      exact hnext t' ht' (hid'.trans hid) (hstep f call hanswers)
    · exact .inr (hold _ id (hholds.mono fun m hm => hm.mono hadds.broken))
  · rw [hmodule] at hmodule'
    have hid : t.id = id := by
      obtain ⟨text⟩ := id
      cases htext : t.id
      rw [htext] at hmodule'
      cases hmodule'
      rfl
    exact hnext t ht hid hanswers

variable {r : Rules} {I : Inquiries → Prop} {T : Task → Prop} {G : ModuleId → Prop}

theorem Accounts.runTasks (h : Task.Discipline project w r I T G) {fuel : Nat} {q : Pass}
    (hrun : runTasks project w fuel p ts s = some (q, s')) (hs : I s) (ht : ∀ t ∈ ts, T t)
    (hp : p.Tidy) (hm : p.Matches ts) (hg : ∀ id ∈ p.outstanding, G id)
    (hrest : s.bridge.AtRest) (ha : p.Accounts project w.files since s.bridge ts) :
    (s.bridge.Adds s'.bridge fun _ call => ∃ id, call.module? = some id) ∧
      q.Accounts project w.files since s'.bridge [] := by
  fun_induction Pass.runTasks project w fuel p ts s with
  | case1 p ts s hnone =>
    cases hrun
    exact ⟨.refl hrest _, hm.eq_nil (hp.outstanding_eq_nil.mpr hnone) ▸ ha⟩
  | case2 p ts s => cases hrun
  | case3 fuel p ts s hnone =>
    cases hrun
    exact ⟨.refl hrest _, hm.eq_nil (hp.outstanding_eq_nil.mpr hnone) ▸ ha⟩
  | case4 fuel p ts s _ s₁ ts₁ hround p₁ ih =>
    obtain ⟨i1, t1, e1⟩ := Task.round_keeps h s ts hs ht
    rw [hround] at i1 t1 e1
    have hn : (ts₁.map Task.id).Nodup := e1 ▸ hm.1
    have ho : ∀ id ∈ ts₁.map Task.id, id ∈ p.outstanding := fun id hid => (hm.2 id).mp (e1 ▸ hid)
    obtain ⟨d1, d2, d3⟩ := deliverAll_runs h (h.seen s₁ i1) ts₁ p t1 hp hn ho hg
    have hp₁ : p₁.Tidy := hp.runs d1
    obtain ⟨hadds, ha₁⟩ := ha.round hrest hp hround hn ho s₁.bridge.cancelled
    obtain ⟨hadds', ha'⟩ := ih hrun i1 (fun t ht => (nextTasks_keep h d2 t1 t ht).1) hp₁
      (matches_nextTasks hp₁ hn d3) d2 hadds.atRest ha₁
    exact ⟨hadds.trans hadds', ha'⟩

/-- When a pass is at rest, each module in the graph tells of the questions for it that failed,
unless it broke down. -/
theorem run_accounts (h : Task.Discipline project w r I T G) {fuel : Nat} {q : Pass}
    (hrun : p.run project w fuel s = some (q, s')) (hs : I s) (hp : p.Tidy)
    (hg : ∀ id ∈ p.outstanding, G id) (hrest : s.bridge.AtRest)
    (hnone : ∀ f call id, since.Failed s.bridge f call → call.module? = some id → False) :
    (s.bridge.Adds s'.bridge fun _ call => ∃ id, call.module? = some id) ∧
    ∀ f call id, since.Failed s'.bridge f call →
      call.module? = some id.text →
        ∃ m, q.graph.get? id = some m ∧ m.id = id ∧
          m.Answers project w.files s'.bridge f call := by
  have hbegin : p.Accounts project w.files since s.bridge (p.nextTasks []) :=
    fun f call id hf hm => (hnone f call id.text hf hm).elim
  obtain ⟨hadds, ha⟩ := Accounts.runTasks h hrun hs
    (fun t ht => (nextTasks_keep h hg (List.forall_mem_nil T) t ht).1) hp
    (matches_nextTasks hp .nil fun _ h => nomatch h) hg hrest hbegin
  refine ⟨hadds, ?_⟩
  intro f call id hf hm
  rcases ha f call id hf hm with ⟨t, ht, -⟩ | ⟨-, hholds⟩
  · cases ht
  · exact hholds

end Pass

end Bundler

import Bundler.Load
import Bundler.Proofs.Hook.Trips

/-!
# What falls through

When the host fails, a request is looked up in the file tree and a module is read from its file. The
failure stays with the result, whatever the look-up or the file gives.
-/

namespace Bundler

theorem ok_of_map {ε α β : Type} {f : α → β} {x : Except ε α} {b : β} (h : x.map f = .ok b) :
    ∃ a, x = .ok a ∧ b = f a := by
  cases x with
  | error e => cases h
  | ok a =>
    cases h
    exact ⟨a, rfl, rfl⟩

namespace Resolver

/-- Where a look-up for a specifier is said to come from. -/
def source (importer : Option ModuleId) (dir : Path) : Path :=
  match importer with
  | some id => id.path
  | none => dir

end Resolver

/-- A resolution for which the host failed: it has the failure, and its error, if it has one, is that
of the look-up. -/
structure Resolution.FellThrough (x : Resolution) (r : Resolver) (specifier : String)
    (source : Path) (f : HookFailure) : Prop where
  hookError : x.hookError = some (Bridge.failure .resolve (r.asked specifier) f)
  error : ∀ e, x.outcome = .error e → e.specifier = specifier ∧ e.source = source.text

namespace Resolver

variable {r : Resolver} {w : World} {s : Inquiries} {importer : Option ModuleId} {dir : Path}

theorem resolveInFiles_bridge (files : FileTree) (specifier request : String)
    (query : Option String) (hookError : Option BuildError) :
    (r.resolveInFiles files s specifier importer dir request query hookError).1.bridge =
      s.bridge := by
  unfold resolveInFiles lookup
  dsimp only
  split <;> rfl

theorem resolveInFiles_fellThrough (files : FileTree) (specifier : String) (f : HookFailure)
    (request : String) (query : Option String) :
    (r.resolveInFiles files s specifier importer dir request query
      (some (Bridge.failure .resolve (r.asked specifier) f))).2.FellThrough r specifier
        (source importer dir) f := by
  unfold resolveInFiles
  dsimp only
  split
  · exact ⟨rfl, fun e he => nomatch he⟩
  · refine ⟨rfl, ?_⟩
    intro e he
    cases he
    exact ⟨rfl, rfl⟩

/-- A question that failed is the one for the specifier, which then fell through; and so is one that
broke down. -/
theorem adds_resolve (hs : s.bridge.AtRest) (specifier : String) :
    (s.bridge.Adds (r.resolve w s specifier importer dir).1.bridge fun f call =>
      call = .resolve ⟨importer.map (·.text), r.asked specifier⟩ ∧
        ∃ x, (r.resolve w s specifier importer dir).2 = .ok x ∧
          x.FellThrough r specifier (source importer dir) f) ∧
    ∀ reason, (r.resolve w s specifier importer dir).2 = .error reason →
      (r.resolve w s specifier importer dir).1.bridge.Broken
        (.resolve ⟨importer.map (·.text), r.asked specifier⟩) := by
  obtain ⟨hask, hbroke⟩ := hs.adds_resolve w.host ⟨importer.map (·.text), r.asked specifier⟩
  unfold resolve
  dsimp only
  by_cases hx : r.isExternal (r.expand (splitQuery specifier).1) = true
  · rw [if_pos hx]
    exact ⟨.refl hs _, fun reason h => nomatch h⟩
  · rw [if_neg hx]
    generalize s.bridge.resolve w.host _ = out at hask hbroke ⊢
    obtain ⟨bridge, o⟩ := out
    cases o with
    | answered a =>
      refine ⟨?_, fun reason h => by cases a <;> cases h⟩
      cases a with
      | some a => exact hask.mono fun f call h => by cases h.2
      | none =>
        dsimp only
        rw [resolveInFiles_bridge]
        exact hask.mono fun f call h => by cases h.2
    | panicked reason =>
      exact ⟨hask.mono fun f call h => (nomatch h.2), fun reason' _ => hbroke reason rfl⟩
    | failed f =>
      refine ⟨?_, fun reason h => nomatch h⟩
      dsimp only
      rw [resolveInFiles_bridge]
      refine hask.mono ?_
      rintro f' call ⟨hcall, ho⟩
      cases ho
      exact ⟨hcall, _, rfl, resolveInFiles_fellThrough ..⟩

section
variable {α : Type} {specifier : α → String}

/-! ## Items that are resolved together -/

theorem names_resolveOpen (r : Resolver) (w : World) (specifier : α → String)
    (importer : Option ModuleId) (dir : Path) (late : Bool) (items : List (α × Option Resolution))
    {i : Inquiries} {out : List (α × Option Resolution)}
    (h : (r.resolveOpen w specifier importer dir late items i).2 = .ok out) :
    out.map (·.1) = items.map (·.1) := by
  induction items generalizing i out with
  | nil =>
    cases h
    rfl
  | cons item items ih =>
    obtain ⟨a, found⟩ := item
    cases found with
    | some x =>
      obtain ⟨rest, hrest, rfl⟩ := ok_of_map h
      exact congrArg (a :: ·) (ih hrest)
    | none =>
      unfold resolveOpen at h
      split at h
      · split at h
        next hopen =>
          cases h
          exact congrArg (a :: ·) (ih (congrArg Prod.snd hopen))
        next => cases h
      · split at h
        next =>
          obtain ⟨rest, hrest, rfl⟩ := ok_of_map h
          exact congrArg (a :: ·) (ih hrest)
        next => cases h

theorem sublist_resolveTogether {r : Resolver} {w : World} {specifier : α → String}
    {importer : Option ModuleId} {dir : Path} {items : List α} {i : Inquiries}
    {out : List (α × Resolution)}
    (h : (r.resolveTogether w specifier importer dir items i).2 = .ok out) :
    (out.map (·.1)).Sublist items := by
  have hsettled : ∀ late : List (α × Option Resolution),
      ((late.filterMap fun x => x.2.map (x.1, ·)).map (·.1)).Sublist (late.map (·.1)) := by
    intro late
    induction late with
    | nil => exact .slnil
    | cons x late ih =>
      obtain ⟨a, found⟩ := x
      cases found with
      | none => exact .cons a ih
      | some y => exact .cons_cons a ih
  unfold resolveTogether at h
  split at h
  next => cases h
  next found hfound =>
    obtain ⟨late, hlate, rfl⟩ := ok_of_map h
    have hnames := r.names_resolveOpen w specifier importer dir false _ (congrArg Prod.snd hfound)
    have hsub := hsettled late
    rw [r.names_resolveOpen w specifier importer dir true _ hlate, hnames, List.map_map] at hsub
    have hid : items.map ((·.1) ∘ fun a => (a, (none : Option Resolution))) = items :=
      List.map_id _
    exact hid ▸ hsub

/-! ## Failures on the way -/

/-- A question that failed is the one for an item whose resolution fell through. -/
def FellAmong (r : Resolver) (specifier : α → String) (importer : Option ModuleId) (dir : Path)
    (out : List (α × Option Resolution)) (f : HookFailure) (call : HostCall) : Prop :=
  ∃ a x, (a, some x) ∈ out ∧ call = .resolve ⟨importer.map (·.text), r.asked (specifier a)⟩ ∧
    x.FellThrough r (specifier a) (source importer dir) f

/-- Some items were resolved: a question that failed is the one for an item, one that broke down ends
it all, and items that were resolved before stay as they are. -/
structure Accounted (r : Resolver) (specifier : α → String) (importer : Option ModuleId)
    (dir : Path) (s : Inquiries) (items : List (α × Option Resolution)) (t : Inquiries)
    (res : Except String (List (α × Option Resolution))) : Prop where
  adds : s.bridge.Adds t.bridge fun f call => call.module? = importer.map (·.text) ∧
    ∀ out, res = .ok out → r.FellAmong specifier importer dir out f call
  kept : ∀ out, res = .ok out → ∀ a x, (a, some x) ∈ items → (a, some x) ∈ out
  broke : ∀ reason, res = .error reason →
    ∃ call : HostCall, call.module? = importer.map (·.text) ∧ t.bridge.Broken call

theorem Accounted.cons {i j t : Inquiries} {items : List (α × Option Resolution)}
    {res : Except String (List (α × Option Resolution))} {a : α} {found now : Option Resolution}
    (h : r.Accounted specifier importer dir j items t res)
    (hj : i.bridge.Adds j.bridge fun f call =>
      call = .resolve ⟨importer.map (·.text), r.asked (specifier a)⟩ ∧
        ∃ x, now = some x ∧ x.FellThrough r (specifier a) (source importer dir) f)
    (hkeep : ∀ x, found = some x → now = some x) :
    r.Accounted specifier importer dir i ((a, found) :: items) t (res.map ((a, now) :: ·)) := by
  refine ⟨.trans (hj.mono ?_) (h.adds.mono ?_), ?_, ?_⟩
  · rintro f call ⟨rfl, x, rfl, hfell⟩
    refine ⟨rfl, fun out ho => ?_⟩
    obtain ⟨out', -, rfl⟩ := ok_of_map ho
    exact ⟨a, x, List.mem_cons_self, rfl, hfell⟩
  · rintro f call ⟨hcall, hout⟩
    refine ⟨hcall, fun out ho => ?_⟩
    obtain ⟨out', ho', rfl⟩ := ok_of_map ho
    obtain ⟨b, x, hx, hb, hfell⟩ := hout out' ho'
    exact ⟨b, x, List.mem_cons_of_mem _ hx, hb, hfell⟩
  · intro out ho b x hx
    obtain ⟨out', ho', rfl⟩ := ok_of_map ho
    rcases List.mem_cons.mp hx with hx | hx
    · cases hx
      rw [hkeep x rfl]
      exact List.mem_cons_self
    · exact List.mem_cons_of_mem _ (h.kept out' ho' b x hx)
  · intro reason he
    cases res with
    | error reason' => exact h.broke reason' rfl
    | ok out' => cases he

variable (r w importer dir specifier) in
theorem accounted_resolveOpen (late : Bool) (items : List (α × Option Resolution))
    (hs : s.bridge.AtRest) : r.Accounted specifier importer dir s items
      (r.resolveOpen w specifier importer dir late items s).1
      (r.resolveOpen w specifier importer dir late items s).2 := by
  induction items generalizing s with
  | nil =>
    refine ⟨.refl hs _, fun out ho a x hx => (nomatch hx), fun reason h => nomatch h⟩
  | cons item items ih =>
    obtain ⟨a, found⟩ := item
    cases found with
    | some x =>
      simp only [resolveOpen]
      exact (ih hs).cons (.refl hs _) fun _ h => h
    | none =>
      by_cases hl : (!late && r.isStalled w s.bridge (specifier a) importer) = true
      · -- The item waits; it is given up if one behind it breaks down.
        have hrest := ih hs
        rw [resolveOpen, if_pos hl]
        generalize r.resolveOpen w specifier importer dir late items s = x at hrest ⊢
        obtain ⟨t, res⟩ := x
        cases res with
        | ok out => exact hrest.cons (.refl hs _) fun _ h => h
        | error reason =>
          have hgone := hrest.adds.atRest.adds_abandon w.host
            ⟨importer.map (·.text), r.asked (specifier a)⟩
            fun _ call => call.module? = importer.map (·.text)
          refine ⟨.trans (hrest.adds.mono fun f call h => ⟨h.1, fun out h => nomatch h⟩)
            (hgone.mono fun f call h => ⟨h, fun out h => nomatch h⟩), fun out h => (nomatch h), ?_⟩
          intro reason' _
          obtain ⟨call, hcall, hb⟩ := hrest.broke reason rfl
          exact ⟨call, hcall, hgone.broken call hb⟩
      · obtain ⟨hadds, hbroke⟩ := @adds_resolve r w s importer dir hs (specifier a)
        rw [resolveOpen, if_neg hl]
        generalize r.resolve w s (specifier a) importer dir = x at hadds hbroke ⊢
        obtain ⟨t, res⟩ := x
        cases res with
        | ok x =>
          refine (ih hadds.atRest).cons (hadds.mono ?_) fun _ h => nomatch h
          rintro f call ⟨rfl, y, hy, hfell⟩
          cases hy
          exact ⟨rfl, x, rfl, hfell⟩
        | error reason =>
          refine ⟨hadds.mono fun f call h => ?_, fun out h => (nomatch h), fun reason' _ =>
            ⟨_, rfl, hbroke reason rfl⟩⟩
          obtain ⟨-, y, hy, -⟩ := h
          cases hy

variable (r w importer dir specifier) in
theorem adds_resolveTogether (items : List α) (hs : s.bridge.AtRest) :
    s.bridge.Adds (r.resolveTogether w specifier importer dir items s).1.bridge fun f call =>
      ∀ out, (r.resolveTogether w specifier importer dir items s).2 = .ok out →
        r.FellAmong specifier importer dir (out.map fun x => (x.1, some x.2)) f call := by
  have hfirst := r.accounted_resolveOpen w importer dir specifier false (items.map (·, none)) hs
  unfold resolveTogether
  generalize r.resolveOpen w specifier importer dir false (items.map (·, none)) s = x at hfirst ⊢
  obtain ⟨t, res⟩ := x
  cases res with
  | error reason => exact hfirst.adds.mono fun f call _ out h => nomatch h
  | ok found =>
    have hlate := r.accounted_resolveOpen w importer dir specifier true found hfirst.adds.atRest
    dsimp only
    generalize r.resolveOpen w specifier importer dir true found t = x at hlate ⊢
    obtain ⟨u, res⟩ := x
    -- What was told of an item in either turn is told in the end.
    have hmem : ∀ (late : List (α × Option Resolution)) a x, (a, some x) ∈ late →
        (a, some x) ∈ (late.filterMap fun x => x.2.map (x.1, ·)).map fun x => (x.1, some x.2) :=
      fun _ a x hx =>
        List.mem_map.mpr ⟨(a, x), List.mem_filterMap.mpr ⟨(a, some x), hx, rfl⟩, rfl⟩
    refine .trans (hfirst.adds.mono ?_) (hlate.adds.mono ?_)
    · rintro f call ⟨-, h⟩ out ho
      obtain ⟨late, rfl, rfl⟩ := ok_of_map ho
      obtain ⟨a, x, hx, hcall, hfell⟩ := h found rfl
      exact ⟨a, x, hmem late a x (hlate.kept late rfl a x hx), hcall, hfell⟩
    · rintro f call ⟨-, h⟩ out ho
      obtain ⟨late, rfl, rfl⟩ := ok_of_map ho
      obtain ⟨a, x, hx, hcall, hfell⟩ := h late rfl
      exact ⟨a, x, hmem late a x hx, hcall, hfell⟩

end

end Resolver

/-- A question that failed while a module was loaded is the one for that module, which is then read
from its file; and so is one that broke down. -/
theorem Loading.adds_load {p : Loading} {w : World} {b : Bridge} (hb : b.AtRest) (id : ModuleId) :
    (b.Adds (p.load w b id).1 fun f call => call = .load id.text ∧
      (p.load w b id).2 =
        .ok ⟨p.ofFile w.files id none, some (Bridge.failure .load id.text f)⟩) ∧
    ∀ reason, (p.load w b id).2 = .error reason → (p.load w b id).1.Broken (.load id.text) := by
  obtain ⟨hask, hbroke⟩ := hb.adds_load w.host id.text
  unfold Loading.load
  generalize b.load w.host id.text = out at hask hbroke
  obtain ⟨bridge, o⟩ := out
  cases o with
  | answered a =>
    cases a <;> exact ⟨hask.mono fun f call h => (nomatch h.2), fun reason h => nomatch h⟩
  | panicked reason =>
    exact ⟨hask.mono fun f call h => (nomatch h.2), fun reason' _ => hbroke reason rfl⟩
  | failed f =>
    refine ⟨hask.mono ?_, fun reason h => nomatch h⟩
    rintro f' call ⟨hcall, ho⟩
    cases ho
    exact ⟨hcall, rfl⟩

end Bundler

import Bundler.Proofs.Hook.Steady
import Bundler.Proofs.Path
import Bundler.Resolve.Resolver

/-!
# What a resolution tells

A resolution depends on the files and the host, and on nothing that was asked before, but for one
thing: a look-up that failed before tells "module not found", whatever its own fault is.

Look-ups are kept by the components of the directories they start from, so that one directory may
stand for another spelling of it. Here the directories are taken from a set `D` in which spellings
do not matter.
-/

namespace Bundler

/-! ## Look-ups -/

/-- From spellings of one directory that are in `D`, the same is found. -/
def Lookup.Blind (l : Lookup) (D : Path → Prop) : Prop :=
  ∀ dir dir', D dir → D dir' → dir.components = dir'.components →
    ∀ request, (l.find dir request).toOption = (l.find dir' request).toOption

/-- Tidy directories have one spelling each. -/
theorem Lookup.blind_tidy (l : Lookup) : l.Blind Path.Tidy := by
  intro dir dir' hd hd' hc request
  rw [hd.eq_of_components hd' hc]

namespace LookupCache

variable {D : Path → Prop}

/-- What is known was found in these files, from directories in `D`. -/
def Sound (c : LookupCache) (D : Path → Prop) (l : Lookup) : Prop :=
  ∀ e ∈ c.known, ∃ dir request, D dir ∧ e = (key dir request, (l.find dir request).toOption)

theorem sound_empty (D : Path → Prop) (l : Lookup) : Sound {} D l := fun _ h => nomatch h

theorem Sound.get? {c : LookupCache} {l : Lookup} (h : c.Sound D l) (hb : l.Blind D) {dir : Path}
    (hd : D dir) {request : String} {found : Option Path} (hf : c.get? dir request = some found) :
    found = (l.find dir request).toOption := by
  unfold LookupCache.get? at hf
  obtain ⟨e, he, rfl⟩ := Option.map_eq_some_iff.mp hf
  obtain ⟨dir', request', hd', rfl⟩ := h e (List.mem_of_find?_eq_some he)
  have hk := List.find?_some he
  simp only [key, decide_eq_true_eq, Prod.mk.injEq] at hk
  obtain ⟨hc, rfl⟩ := hk
  exact hb dir' dir hd' hd hc request'

/-- A look-up finds what is there, or fails as it has to, perhaps with another fault. -/
theorem Sound.lookup {c : LookupCache} {l : Lookup} (h : c.Sound D l) (hb : l.Blind D) {dir : Path}
    (hd : D dir) (request : String) :
    (c.lookup l dir request).1.Sound D l ∧
      ((c.lookup l dir request).2 = l.find dir request ∨
        (∃ fault, l.find dir request = .error fault) ∧
          (c.lookup l dir request).2 = .error .notFound) := by
  unfold LookupCache.lookup
  split
  next p hp =>
    refine ⟨h, .inl ?_⟩
    have hf := h.get? hb hd hp
    cases hr : l.find dir request with
    | ok q => rw [hr] at hf; cases hf; rfl
    | error fault => rw [hr] at hf; cases hf
  next hp =>
    refine ⟨h, .inr ⟨?_, rfl⟩⟩
    have hf := h.get? hb hd hp
    cases hr : l.find dir request with
    | ok q => rw [hr] at hf; cases hf
    | error fault => exact ⟨fault, rfl⟩
  next =>
    refine ⟨fun e he => ?_, .inl rfl⟩
    rcases List.mem_cons.mp he with rfl | he
    · exact ⟨dir, request, hd, rfl⟩
    · exact h e he

end LookupCache

/-! ## Resolutions -/

/-- What a resolution may tell that would otherwise be `r`. -/
def Resolution.Tells (r told : Resolution) : Prop :=
  told = r ∨ ∃ e, r.outcome = .error e ∧
    told = ⟨.error { e with reason := LookupFault.notFound.message }, r.hookError⟩

theorem Resolution.Tells.ok {r told : Resolution} (h : r.Tells told) {t : Resolved}
    (ht : r.outcome = .ok t) : told = r := by
  rcases h with h | ⟨e, he, -⟩
  · exact h
  · rw [ht] at he
    cases he

/-- What is kept about earlier questions has no effect on later ones, but for the faults of
look-ups. -/
structure Inquiries.Steady (i : Inquiries) (limit : Option Nat) (D : Path → Prop) (l : Lookup) :
    Prop where
  bridge : i.bridge.Quiet
  limit : i.bridge.limit = limit
  cache : i.cache.Sound D l
  blind : l.Blind D

theorem Bridge.quiet_new (limit : Option Nat) : Bridge.Quiet { limit } :=
  ⟨rfl, ⟨rfl, rfl⟩, ⟨rfl, rfl⟩⟩

/-- A host of a world, if there is one, answers. -/
def World.Answers (w : World) : Prop := ∀ h, w.host = some h → h.Answers

namespace Resolver

variable {r : Resolver} {w : World} {limit : Option Nat} {D : Path → Prop}

/-- A resolution before which nothing was asked. It is meant for a host that answers: a breakdown
is the reason why there is none. -/
def ideal (r : Resolver) (w : World) (limit : Option Nat) (specifier : String)
    (importer : Option ModuleId) (dir : Path) : Resolution :=
  match (r.resolve w { bridge := { limit } } specifier importer dir).2 with
  | .ok x => x
  | .error reason => ⟨.error ⟨specifier, dir.text, reason⟩, none⟩

theorem lookup_tells {i : Inquiries} (hi : i.Steady limit D ⟨w.files, r.extensions⟩) {dir : Path}
    (hd : D dir) (request : String) :
    (r.lookup w.files i dir request).1.Steady limit D ⟨w.files, r.extensions⟩ ∧
      ((r.lookup w.files i dir request).2 = Lookup.find ⟨w.files, r.extensions⟩ dir request ∨
        (∃ fault, Lookup.find ⟨w.files, r.extensions⟩ dir request = .error fault) ∧
          (r.lookup w.files i dir request).2 = .error .notFound) := by
  obtain ⟨h1, h2⟩ := hi.cache.lookup hi.blind hd request
  exact ⟨⟨hi.bridge, hi.limit, h1, hi.blind⟩, h2⟩

theorem resolveInFiles_tells {i j : Inquiries} (hi : i.Steady limit D ⟨w.files, r.extensions⟩)
    (hj : j.cache = {}) {dir : Path} (hd : D dir) (specifier : String)
    (importer : Option ModuleId) (request : String) (query : Option String)
    (hookError : Option BuildError) :
    (r.resolveInFiles w.files i specifier importer dir request query hookError).1.Steady limit D
        ⟨w.files, r.extensions⟩ ∧
      (r.resolveInFiles w.files j specifier importer dir request query hookError).2.Tells
        (r.resolveInFiles w.files i specifier importer dir request query hookError).2 := by
  obtain ⟨hs, ht⟩ := lookup_tells (r := r) hi hd request
  have hfresh : (r.lookup w.files j dir request).2 =
      Lookup.find ⟨w.files, r.extensions⟩ dir request := by
    unfold lookup
    rw [hj]
    rfl
  unfold resolveInFiles
  dsimp only
  rw [hfresh]
  rcases ht with he | ⟨⟨fault, hf⟩, he⟩
  · rw [he]
    cases Lookup.find ⟨w.files, r.extensions⟩ dir request <;> exact ⟨hs, .inl rfl⟩
  · rw [he, hf]
    exact ⟨hs, .inr ⟨_, rfl, rfl⟩⟩

/-- A resolution does not depend on earlier questions, but for the fault of a look-up. -/
theorem resolve_tells (hw : w.Answers) {i : Inquiries}
    (hi : i.Steady limit D ⟨w.files, r.extensions⟩) {dir : Path} (hd : D dir) (specifier : String)
    (importer : Option ModuleId) :
    (r.resolve w i specifier importer dir).1.Steady limit D ⟨w.files, r.extensions⟩ ∧
      ∃ x, (r.resolve w i specifier importer dir).2 = .ok x ∧
        (r.ideal w limit specifier importer dir).Tells x := by
  unfold ideal resolve
  dsimp only
  split
  next => exact ⟨hi, _, rfl, .inl rfl⟩
  next =>
    obtain ⟨hb, hl, ho⟩ := hi.bridge.resolve hw ⟨importer.map (·.text), r.asked specifier⟩
    obtain ⟨-, -, ho'⟩ := (Bridge.quiet_new limit).resolve hw
      ⟨importer.map (·.text), r.asked specifier⟩
    rw [hi.limit] at hl ho
    have hne := Bridge.resolve_ne_panicked hw limit ⟨importer.map (·.text), r.asked specifier⟩
    rw [← ho] at hne
    have hsame : (Bridge.resolve { limit } w.host
        ⟨importer.map (·.text), r.asked specifier⟩).2 = _ := ho'.trans ho.symm
    rw [hsame]
    have hi' : Inquiries.Steady { i with bridge := _ } limit D ⟨w.files, r.extensions⟩ :=
      ⟨hb, hl, hi.cache, hi.blind⟩
    generalize (i.bridge.resolve w.host ⟨importer.map (·.text), r.asked specifier⟩).2 = o at hne
    -- What the files come to is the same, whatever the bridge.
    have hfiles := fun bridge => @resolveInFiles_tells r w limit D _ { bridge } hi' rfl dir hd
      specifier importer (r.expand (splitQuery specifier).1) (splitQuery specifier).2
    cases o with
    | answered a =>
      cases a with
      | some a => exact ⟨hi', _, rfl, .inl rfl⟩
      | none => exact (hfiles _ none).imp_right fun h => ⟨_, rfl, h⟩
    | failed f => exact (hfiles _ (some _)).imp_right fun h => ⟨_, rfl, h⟩
    | panicked reason => exact absurd rfl (hne reason)

/-! ## Several at once -/

theorem isStalled_eq {b : Bridge} (h : b.Quiet) (specifier : String)
    (importer : Option ModuleId) :
    r.isStalled w b specifier importer = r.isStalled w {} specifier importer := by
  unfold isStalled
  rw [h.isStalled]

section
variable {α : Type} {specifier : α → String} {importer : Option ModuleId} {dir : Path}

/-- A resolution, if there is one yet, tells what it has to. -/
def Fits (r : Resolver) (w : World) (limit : Option Nat) (specifier : α → String)
    (importer : Option ModuleId) (dir : Path) (x : α × Option Resolution) : Prop :=
  ∀ res, x.2 = some res → (r.ideal w limit (specifier x.1) importer dir).Tells res

/-- What stays open waits for a silent host, and not once it is late. -/
theorem resolveOpen_fits (hw : w.Answers) (hd : D dir) (late : Bool)
    (items : List (α × Option Resolution)) {i : Inquiries}
    (hi : i.Steady limit D ⟨w.files, r.extensions⟩)
    (hf : ∀ x ∈ items, r.Fits w limit specifier importer dir x) :
    (r.resolveOpen w specifier importer dir late items i).1.Steady limit D ⟨w.files, r.extensions⟩ ∧
    ∃ out, (r.resolveOpen w specifier importer dir late items i).2 = .ok out ∧
      (∀ x ∈ out, r.Fits w limit specifier importer dir x ∧
        (x.2 = none → late = false ∧ r.isStalled w {} (specifier x.1) importer = true)) ∧
      out.map (·.1) = items.map (·.1) := by
  induction items generalizing i with
  | nil => exact ⟨hi, [], rfl, fun x hx => (nomatch hx), rfl⟩
  | cons x items ih =>
    obtain ⟨a, found⟩ := x
    have hf' := fun x hx => hf x (List.mem_cons_of_mem _ hx)
    have hstall : r.isStalled w i.bridge (specifier a) importer =
        r.isStalled w {} (specifier a) importer := isStalled_eq hi.bridge _ _
    -- What becomes of the first item, and of what is known.
    have hhead : ∃ j res, j.Steady limit D ⟨w.files, r.extensions⟩ ∧
        r.Fits w limit specifier importer dir (a, res) ∧
        (res = none → late = false ∧ r.isStalled w {} (specifier a) importer = true) ∧
        ∀ out, (r.resolveOpen w specifier importer dir late items j).2 = .ok out →
          r.resolveOpen w specifier importer dir late ((a, found) :: items) i =
            ((r.resolveOpen w specifier importer dir late items j).1, .ok ((a, res) :: out)) := by
      cases found with
      | some res =>
        refine ⟨i, some res, hi, hf _ List.mem_cons_self, fun h => (nomatch h), fun out ho => ?_⟩
        simp only [resolveOpen, ho, Except.map]
      | none =>
        by_cases hl : (!late && r.isStalled w i.bridge (specifier a) importer) = true
        · refine ⟨i, none, hi, fun _ h => (nomatch h), fun _ => ?_, fun out ho => ?_⟩
          · simpa [hstall] using hl
          · rw [resolveOpen, if_pos hl]
            generalize r.resolveOpen w specifier importer dir late items i = x at ho
            obtain ⟨j, res⟩ := x
            obtain rfl : res = .ok out := ho
            rfl
        · obtain ⟨hj, x, hx, ht⟩ := resolve_tells hw hi hd (specifier a) importer
          refine ⟨_, some x, hj, fun res hres => ?_, fun h => (nomatch h), fun out ho => ?_⟩
          · cases hres
            exact ht
          · rw [resolveOpen, if_neg hl]
            generalize r.resolve w i (specifier a) importer dir = y at hx ho
            obtain ⟨j, res⟩ := y
            obtain rfl : res = .ok x := hx
            simp only [ho, Except.map]
    obtain ⟨j, res, hj, hfit, hopen, he⟩ := hhead
    obtain ⟨h1, out, ho, h2, h3⟩ := ih hj hf'
    rw [he out ho]
    refine ⟨h1, _, rfl, fun x hx => ?_, congrArg (a :: ·) h3⟩
    rcases List.mem_cons.mp hx with rfl | hx
    · exact ⟨hfit, hopen⟩
    · exact h2 x hx

theorem map_fst_filterMap {β : Type} {out : List (α × Option β)} (h : ∀ x ∈ out, x.2 ≠ none) :
    (out.filterMap fun x => x.2.map (x.1, ·)).map (·.1) = out.map (·.1) := by
  induction out with
  | nil => rfl
  | cons x out ih =>
    obtain ⟨a, b⟩ := x
    cases b with
    | none => exact absurd rfl (h _ List.mem_cons_self)
    | some b => exact congrArg (a :: ·) (ih fun x hx => h x (List.mem_cons_of_mem _ hx))

theorem resolveTogether_tells (hw : w.Answers) (hd : D dir) (items : List α) {i : Inquiries}
    (hi : i.Steady limit D ⟨w.files, r.extensions⟩) :
    (r.resolveTogether w specifier importer dir items i).1.Steady limit D ⟨w.files, r.extensions⟩ ∧
    ∃ out, (r.resolveTogether w specifier importer dir items i).2 = .ok out ∧
      (∀ x ∈ out, (r.ideal w limit (specifier x.1) importer dir).Tells x.2) ∧
      out.map (·.1) = items := by
  obtain ⟨h1, out, ho, h2, h3⟩ := @resolveOpen_fits r w limit D α specifier importer dir hw hd false
    (items.map (·, none)) i hi (fun x hx => by
      obtain ⟨a, -, rfl⟩ := List.mem_map.mp hx
      exact fun _ h => nomatch h)
  obtain ⟨h4, out', ho', h5, h6⟩ := resolveOpen_fits hw hd true _ h1 fun x hx => (h2 x hx).1
  unfold resolveTogether
  generalize r.resolveOpen w specifier importer dir false (items.map (·, none)) i = x at *
  obtain ⟨j, res⟩ := x
  obtain rfl : res = .ok out := ho
  simp only [ho', Except.map]
  refine ⟨h4, _, rfl, fun x hx => ?_, ?_⟩
  · obtain ⟨y, hy, he⟩ := List.mem_filterMap.mp hx
    obtain ⟨res, hres, rfl⟩ := Option.map_eq_some_iff.mp he
    exact (h5 y hy).1 res hres
  · have hall := map_fst_filterMap fun x hx hn => nomatch ((h5 x hx).2 hn).1
    refine (hall.trans h6).trans (h3.trans ?_)
    rw [List.map_map]
    exact List.map_id _

end

end Resolver

end Bundler

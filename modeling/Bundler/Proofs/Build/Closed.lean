import Bundler.Proofs.Build.Ideal
import Bundler.Proofs.FileTree.Canonical

/-!
# The directories of ids

Where imports are looked up is told apart by components, so that what is known of one directory is
used for another spelling of it. The ids that a project finds in its files lie in tidy directories,
which have one spelling each. A host may name ids in other directories too, if it does not matter
to look-ups how these are spelled.
-/

namespace Bundler

/-- A host that names modules inside by ids in directories in `D`. -/
def Host.NamesIn (h : Host) (D : Path → Prop) : Prop :=
  ∀ q a, h.resolve q = .answer (some a) → a.external = false → D (ModuleId.mk a.uri).dir

/-- A world with names of directories where relative paths start, and a host, if there is one, that
answers. The directories of ids are in `D`, in which spellings do not matter to look-ups. -/
structure World.Proper (w : World) (D : Path → Prop) : Prop where
  answers : w.Answers
  start : w.files.Proper
  tidy : ∀ dir : Path, dir.Tidy → D dir
  named : ∀ h, w.host = some h → h.NamesIn D
  blind : ∀ extensions, Lookup.Blind ⟨w.files, extensions⟩ D

theorem World.proper_of_files {t : FileTree} (h : t.Proper) : World.Proper ⟨t, none⟩ Path.Tidy where
  answers _ h := nomatch h
  start := h
  tidy _ h := h
  named _ h := nomatch h
  blind _ := Lookup.blind_tidy _

theorem Bridge.answer_of_ending {α : Type} {limit : Option Nat} {r : Reply α} {a : Option α}
    (hr : r.Answers) (h : ending limit r = .answered a) : r = .answer a := by
  unfold ending outcome at h
  rw [if_neg fun h => nomatch h] at h
  cases r with
  | answer a => cases h; rfl
  | reject message => cases h
  | silence => cases limit <;> cases h
  | cancel => exact hr.elim
  | panic reason => exact hr.elim

namespace Resolver

variable {r : Resolver} {w : World} {limit : Option Nat} {D : Path → Prop}

theorem tidy_of_resolveInFiles (hw : w.files.Proper) {i : Inquiries} (hi : i.cache = {})
    {specifier : String} {importer : Option ModuleId} {dir : Path} {request : String}
    {query : Option String} {hookError : Option BuildError} {t : Resolved}
    (h : (r.resolveInFiles w.files i specifier importer dir request query hookError).2.outcome =
      .ok t) : t.id.dir.Tidy := by
  have hfind : (r.lookup w.files i dir request).2 =
      Lookup.find ⟨w.files, r.extensions⟩ dir request := by
    unfold lookup
    rw [hi]
    rfl
  unfold resolveInFiles at h
  dsimp only at h
  rw [hfind] at h
  cases hf : Lookup.find ⟨w.files, r.extensions⟩ dir request with
  | error fault =>
    rw [hf] at h
    cases h
  | ok path =>
    rw [hf] at h
    cases h
    obtain ⟨p, -, hp⟩ := Lookup.finds_of_find hf
    obtain ⟨names, hn, rfl⟩ := FileTree.plain_of_canonical hw hp
    exact Path.tidy_dir_ofPath hn query

theorem dir_of_ideal (hw : w.Proper D) {specifier : String} {importer : Option ModuleId}
    {dir : Path} {t : Resolved} (h : (r.ideal w limit specifier importer dir).outcome = .ok t)
    (hx : t.external = false) : D t.id.dir := by
  unfold ideal resolve at h
  dsimp only at h
  by_cases hext : r.isExternal (r.expand (splitQuery specifier).1) = true
  · rw [if_pos hext] at h
    cases h
    cases hx
  rw [if_neg hext] at h
  obtain ⟨-, -, ho⟩ := (Bridge.quiet_new limit).resolve hw.answers
    ⟨importer.map (·.text), r.asked specifier⟩
  generalize Bridge.resolve _ _ _ = out at h ho
  obtain ⟨b, o⟩ := out
  dsimp only at h ho
  cases o with
  | answered a =>
    cases a with
    | some a =>
      cases h
      cases hh : w.host with
      | none =>
        rw [hh] at ho
        cases ho
      | some host =>
        rw [hh] at ho
        have hr := Bridge.answer_of_ending ((hw.answers host hh).resolve _) ho.symm
        exact hw.named host hh _ a hr hx
    | none => exact hw.tidy _ (tidy_of_resolveInFiles hw.start rfl h)
  | failed f => exact hw.tidy _ (tidy_of_resolveInFiles hw.start rfl h)
  | panicked reason => cases h

end Resolver

namespace Project

variable {p : Project} {w : World} {limit : Option Nat} {D : Path → Prop}

theorem exists_mention {id : ModuleId} {d : Dependency}
    (h : d ∈ (p.ideal w limit id).dependencies) : ∃ m : Mention,
      d = (dependency m (p.resolver.ideal w limit m.specifier (some id) id.dir)).1 := by
  unfold ideal at h
  split at h
  next => cases h
  next =>
    split at h
    next hm =>
      unfold search at hm
      dsimp only at hm
      split at hm
      · cases hm
        cases h
      · split at hm
        · cases hm
          cases h
        · split at hm <;> cases hm
    next draft hd =>
      obtain rfl : draft.id = id := id_of_search hd
      obtain ⟨x, hx, rfl⟩ := List.mem_map.mp h
      obtain ⟨y, hy, he⟩ := List.mem_filterMap.mp hx
      obtain ⟨z, -, rfl⟩ := List.mem_map.mp hy
      cases he
      exact ⟨z.1, rfl⟩

/-- In a proper world, imports lead to ids in the directories that there are. -/
theorem closed_of_proper (hw : w.Proper D) : p.Closed w limit D := by
  intro id _ d hd hx t ht
  obtain ⟨m, rfl⟩ := exists_mention hd
  unfold dependency at hx ht
  cases ho : (p.resolver.ideal w limit m.specifier (some id) id.dir).outcome with
  | error e =>
    rw [ho] at ht
    cases ht
  | ok r =>
    rw [ho] at hx ht
    cases ht
    exact Resolver.dir_of_ideal hw ho hx

end Project

end Bundler

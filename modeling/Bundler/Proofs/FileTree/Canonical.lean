import Bundler.Proofs.Path
import Bundler.Resolve.Lookup

/-!
# Canonical paths

What a look-up finds is the canonical path of a file: a path of plain names.
-/

namespace Bundler

theorem Text.not_mem_of_mem_pieces {sep : Char} {cs p : List Char} (h : p ∈ pieces sep cs) :
    sep ∉ p := by
  induction cs generalizing p with
  | nil =>
    rw [List.mem_singleton.mp h]
    exact List.not_mem_nil
  | cons c cs ih =>
    rw [pieces] at h
    split at h
    next =>
      rcases List.mem_cons.mp h with rfl | h
      · exact List.not_mem_nil
      · exact ih h
    next hc =>
      split at h
      next =>
        rw [List.mem_singleton.mp h, List.mem_singleton]
        exact fun e => hc e.symm
      next q qs hq =>
        rcases List.mem_cons.mp h with rfl | h
        · rw [List.mem_cons, not_or]
          exact ⟨fun e => hc e.symm, ih (hq ▸ List.mem_cons_self)⟩
        · exact ih (hq ▸ List.mem_cons_of_mem _ h)

theorem Path.not_mem_of_mem_splitSlashes {cs : List Char} {s : String} (h : s ∈ splitSlashes cs) :
    '/' ∉ s.toList := by
  obtain ⟨p, hp, rfl⟩ := List.mem_map.mp h
  rw [String.toList_ofList]
  exact Text.not_mem_of_mem_pieces hp

namespace FileTree

/-- The names of the directory where relative paths start are names. -/
def Proper (t : FileTree) : Prop := ∀ s ∈ t.start, '/' ∉ s.toList

variable {t : FileTree}

theorem plain_of_follow {segments : List String} {trail out : Trail}
    (hs : ∀ s ∈ segments, '/' ∉ s.toList) (ht : ∀ e ∈ trail, Path.Plain e.1)
    (h : t.follow segments trail = .ok out) : ∀ e ∈ out, Path.Plain e.1 := by
  induction segments generalizing trail with
  | nil =>
    cases h
    exact ht
  | cons s segments ih =>
    have hs' := fun x hx => hs x (List.mem_cons_of_mem _ hx)
    rw [follow] at h
    split at h
    next => cases h
    next =>
      split at h
      next => exact ih hs' ht h
      next hv =>
        split at h
        next => exact ih hs' (fun e he => ht e (List.mem_of_mem_tail he)) h
        next hu =>
          split at h
          next => cases h
          next =>
            split at h
            next =>
              refine ih hs' (fun e he => ?_) h
              rcases List.mem_cons.mp he with rfl | he
              · exact ⟨hs s List.mem_cons_self, eq_false_of_ne_true hv, hu⟩
              · exact ht e he
            next => cases h

theorem plain_of_startTrail (hp : t.Proper) : ∀ e ∈ t.startTrail, Path.Plain e.1 := by
  unfold startTrail
  split
  next hf => exact plain_of_follow hp (fun _ h => absurd h List.not_mem_nil) hf
  next => exact fun _ h => nomatch h

theorem follow_of_locate {p : Path} {trail : Trail} (h : t.locate p = .ok trail) :
    p.isEmpty = false ∧
      t.followFrom p.isAbsolute (Path.splitSlashes p.text.toList) = .ok trail := by
  unfold locate at h
  cases hc : checkText p with
  | error e =>
    rw [hc] at h
    cases h
  | ok u =>
    rw [hc] at h
    refine ⟨eq_false_of_ne_true fun he => ?_, h⟩
    unfold checkText at hc
    rw [if_pos he] at hc
    split at hc <;> cases hc

theorem plain_of_locate (hp : t.Proper) {p : Path} {trail : Trail} (h : t.locate p = .ok trail) :
    ∀ e ∈ trail, Path.Plain e.1 := by
  obtain ⟨-, h⟩ := follow_of_locate h
  refine plain_of_follow (fun s hs => Path.not_mem_of_mem_splitSlashes hs) ?_ h
  split
  · exact fun _ h => nomatch h
  · exact plain_of_startTrail hp

theorem plain_of_canonical (hp : t.Proper) {p q : Path} (h : t.canonical p = .ok q) :
    ∃ names, (∀ s ∈ names, Path.Plain s) ∧ q = .ofNames names := by
  unfold canonical at h
  cases hl : t.locate p with
  | error e =>
    rw [hl] at h
    cases h
  | ok trail =>
    rw [hl] at h
    cases h
    refine ⟨names trail, fun s hs => ?_, rfl⟩
    obtain ⟨e, he, rfl⟩ := List.mem_map.mp (List.mem_reverse.mp hs)
    exact plain_of_locate hp hl e he

end FileTree

/-! ## What look-ups find -/

namespace Lookup

/-- A path of a file as it is really called. -/
def Finds (l : Lookup) (q : Path) : Prop :=
  ∃ p, l.files.isFile p = true ∧ l.files.canonical p = .ok q

variable {l : Lookup} {q : Path}

theorem orElse_found {s : Search} {next : Unit → Search} (h : s.orElse next = .found q) :
    s = .found q ∨ next () = .found q := by
  cases s with
  | found p => exact .inl h
  | absent => exact .inr h
  | endless => exact .inl h

theorem finds_of_file {p : Path} (h : l.file p = .found q) : l.Finds q := by
  unfold file at h
  split at h
  next hf =>
    split at h
    next hc =>
      cases h
      exact ⟨p, hf, hc⟩
    next => cases h
  next => cases h

theorem finds_of_firstFile {ps : List Path} (h : l.firstFile ps = .found q) : l.Finds q := by
  induction ps with
  | nil => cases h
  | cons p ps ih => exact (orElse_found h).elim finds_of_file ih

theorem finds_of_firstOf {α : Type} {search : α → Search}
    (hs : ∀ a, search a = .found q → l.Finds q) {as : List α}
    (h : firstOf search as = .found q) : l.Finds q := by
  induction as with
  | nil => cases h
  | cons a as ih => exact (orElse_found h).elim (hs a) ih

theorem finds_of_fileOrDirectory {fuel : Nat} {target : Path}
    (h : l.fileOrDirectory fuel target = .found q) : l.Finds q := by
  induction fuel generalizing target with
  | zero => cases h
  | succ fuel ih =>
    rw [fileOrDirectory] at h
    rcases orElse_found h with h | h
    · exact finds_of_file h
    · rcases orElse_found h with h | h
      · exact finds_of_firstFile h
      · split at h
        next =>
          rcases orElse_found h with h | h
          · exact finds_of_firstFile h
          · split at h
            next =>
              split at h
              next => exact finds_of_firstOf (fun _ h => ih h) h
              next => cases h
            next => cases h
        next => cases h

theorem finds_of_packageIn {fuel : Nat} {request : Package.Request} {dir : Path}
    (h : l.packageIn fuel request dir = .found q) : l.Finds q := by
  unfold packageIn at h
  dsimp only at h
  split at h
  next =>
    rcases orElse_found h with h | h
    · unfold packageEntry at h
      split at h
      next => exact finds_of_firstOf (fun _ h => finds_of_fileOrDirectory h) h
      next => cases h
    · exact finds_of_fileOrDirectory h
  next => cases h

theorem finds_of_find {dir : Path} {request : String} (h : l.find dir request = .ok q) :
    l.Finds q := by
  have hanswer : ∀ {fault s}, answer fault s = .ok q → s = .found q := by
    intro fault s h
    cases s <;> cases h
    rfl
  unfold find at h
  split at h
  · cases h
  · split at h
    · exact finds_of_fileOrDirectory (hanswer h)
    · split at h
      · exact finds_of_fileOrDirectory (hanswer h)
      · split at h
        · cases h
        · exact finds_of_firstOf (fun _ h => finds_of_packageIn h) (hanswer h)

end Lookup

end Bundler

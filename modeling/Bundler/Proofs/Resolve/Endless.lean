import Mathlib.Data.List.Duplicate
import Mathlib.Data.List.Perm.Subperm
import Mathlib.Logic.Relation
import Bundler.Proofs.FileTree.Directories
import Bundler.Proofs.Resolve.Candidates

/-!
# Look-ups that come to no end

A `package.json` may lead to a directory whose `package.json` leads back. The search then goes round,
and this is the only way in which it comes to no end: there are only so many directories, so that
among targets that lead to each other for long enough one comes up again.
-/

namespace Bundler

namespace Lookup

open Relation (TransGen ReflTransGen)

/-! ## How a search goes on -/

/-- A target without a file is passed, and those that it leads to come next. -/
inductive Passes (l : Lookup) : List Path → List Path → Prop
  | intro {t : Path} (ts : List Path) (h : l.fileOf? t = none) : Passes l (t :: ts) (l.leadsTo t ++ ts)

/-- What a search of some targets comes to: the first file among their candidates, or none. -/
inductive Settles (l : Lookup) : List Path → Option Path → Prop
  | vain : Settles l [] none
  | found {t c : Path} (ts : List Path) (h : l.fileOf? t = some c) : Settles l (t :: ts) (some c)
  | next {t : Path} {ts : List Path} {r : Option Path} (h : l.fileOf? t = none)
      (hs : Settles l (l.leadsTo t ++ ts) r) : Settles l (t :: ts) r

/-- One target comes up while those that another one leads to are gone through. -/
def Under (l : Lookup) (t u : Path) : Prop :=
  ∃ more, ∀ rest, TransGen l.Passes (t :: rest) (u :: (more ++ rest))

/-- A search meets a target that comes up again under itself. -/
def Recurs (l : Lookup) (ts : List Path) : Prop :=
  ∃ u rest, ReflTransGen l.Passes ts (u :: rest) ∧ l.Under u u

variable {l : Lookup}

theorem Under.trans {t u v : Path} (h : l.Under t u) (h' : l.Under u v) : l.Under t v := by
  obtain ⟨more, h⟩ := h
  obtain ⟨more', h'⟩ := h'
  refine ⟨more' ++ more, fun rest => ?_⟩
  rw [List.append_assoc]
  exact (h rest).trans (h' (more ++ rest))

namespace Settles

theorem unique {ts : List Path} {r r' : Option Path} (h : l.Settles ts r) (h' : l.Settles ts r') :
    r = r' := by
  induction h with
  | vain =>
    cases h'
    rfl
  | found ts h =>
    cases h' with
    | found _ h' => exact h.symm.trans h'
    | next h' _ => exact nomatch h.symm.trans h'
  | next h _ ih =>
    cases h' with
    | found _ h' => exact nomatch h.symm.trans h'
    | next _ hs' => exact ih hs'

theorem of_passes {ts ts' : List Path} {r : Option Path} (h : ReflTransGen l.Passes ts ts')
    (hs : l.Settles ts' r) : l.Settles ts r := by
  induction h using ReflTransGen.head_induction_on with
  | refl => exact hs
  | head h _ ih =>
    obtain ⟨_, hnone⟩ := h
    exact .next hnone ih

/-- A search that comes to something goes on only so often. -/
theorem acc {ts : List Path} {r : Option Path} (h : l.Settles ts r) :
    Acc (Function.swap l.Passes) ts := by
  induction h with
  | vain => exact .intro _ fun _ h => nomatch h
  | found ts h =>
    refine .intro _ fun ts' h' => ?_
    obtain ⟨_, hnone⟩ := h'
    exact nomatch h.symm.trans hnone
  | next h _ ih =>
    refine .intro _ fun ts' h' => ?_
    obtain ⟨_, -⟩ := h'
    exact ih

end Settles

/-- From a target that comes up again under itself, a search goes on for ever. -/
theorem Under.not_acc {u : Path} (h : l.Under u u) (rest : List Path) :
    ¬ Acc (Function.swap l.Passes) (u :: rest) := by
  obtain ⟨more, hmore⟩ := h
  intro hacc
  have hnone : ∀ ts, Acc (TransGen (Function.swap l.Passes)) ts → ∀ rest, ts ≠ u :: rest := by
    intro ts hacc
    induction hacc with
    | intro ts _ ih =>
      rintro rest rfl
      exact ih _ (Relation.transGen_swap.mpr (hmore rest)) (more ++ rest) rfl
  exact hnone _ hacc.transGen rest rfl

theorem Recurs.not_settles {ts : List Path} (h : l.Recurs ts) (r : Option Path) :
    ¬ l.Settles ts r := by
  obtain ⟨u, rest, hpasses, hu⟩ := h
  intro hs
  have hacc : ∀ ts', ReflTransGen l.Passes ts ts' → Acc (Function.swap l.Passes) ts' := by
    intro ts' hp
    induction hp with
    | refl => exact hs.acc
    | tail _ hp ih => exact ih.inv hp
  exact hu.not_acc rest (hacc _ hpasses)

/-! ## What is found, and what is not -/

theorem orElse_eq_absent {s : Search} {next : Unit → Search} (h : s.orElse next = .absent) :
    s = .absent ∧ next () = .absent := by
  cases s with
  | found p => cases h
  | absent => exact ⟨rfl, h⟩
  | endless => cases h

theorem passes_of_absent {n : Nat} {as : List Path} (h : firstOf (l.fileOrDirectory n) as = .absent)
    (ts : List Path) : ReflTransGen l.Passes (as ++ ts) ts := by
  induction n generalizing as ts with
  | zero =>
    cases as with
    | nil => exact .refl
    | cons a as => cases h
  | succ n ih =>
    induction as with
    | nil => exact .refl
    | cons a as ih' =>
      obtain ⟨ha, has⟩ := orElse_eq_absent h
      rw [fileOrDirectory_succ] at ha
      obtain ⟨hplain, hleads⟩ := orElse_eq_absent ha
      rcases firstFile_cases (l := l) (l.plainCandidates a) with ⟨hnone, -⟩ | ⟨c, q, -, -, hfound⟩
      · exact .head (.intro (as ++ ts) hnone) ((ih hleads (as ++ ts)).trans (ih' has))
      · exact nomatch hplain.symm.trans hfound

theorem exists_of_found {n : Nat} {as : List Path} {q : Path}
    (h : firstOf (l.fileOrDirectory n) as = .found q) (ts : List Path) : ∃ t rest c,
      ReflTransGen l.Passes (as ++ ts) (t :: rest) ∧ l.fileOf? t = some c ∧
        l.files.canonical c = .ok q := by
  induction n generalizing as ts with
  | zero =>
    cases as with
    | nil => cases h
    | cons a as => cases h
  | succ n ih =>
    obtain ⟨before, a, after, rfl, hbefore, ha⟩ := exists_of_firstOf h fun h => nomatch h
    have hp : ReflTransGen l.Passes (before ++ a :: after ++ ts) (a :: (after ++ ts)) := by
      rw [List.append_assoc]
      exact passes_of_absent hbefore (a :: after ++ ts)
    rw [fileOrDirectory_succ] at ha
    rcases firstFile_cases (l := l) (l.plainCandidates a) with ⟨hnone, habsent⟩ | ⟨c, q', hc, hq, hfound⟩
    · rw [habsent] at ha
      have ha : firstOf (l.fileOrDirectory n) (l.leadsTo a) = .found q := ha
      obtain ⟨t, rest, c, hp', hc⟩ := ih ha (after ++ ts)
      exact ⟨t, rest, c, hp.trans (.head (.intro _ hnone) hp'), hc⟩
    · rw [hfound] at ha
      cases ha
      exact ⟨a, after ++ ts, c, hp, hc, hq⟩

/-- If the steps do not suffice, they do not suffice at one of the targets. -/
theorem exists_of_endless {n : Nat} {as : List Path}
    (h : firstOf (l.fileOrDirectory n) as = .endless) : ∃ u more, u ∈ as ∧
      (∀ ts, ReflTransGen l.Passes (as ++ ts) (u :: (more ++ ts))) ∧
        l.fileOrDirectory n u = .endless := by
  obtain ⟨before, u, after, rfl, hbefore, hu⟩ := exists_of_firstOf h fun h => nomatch h
  refine ⟨u, after, List.mem_append_right _ List.mem_cons_self, fun ts => ?_, hu⟩
  rw [List.append_assoc]
  exact passes_of_absent hbefore (u :: after ++ ts)

/-- And then not at one of those that it leads to either. -/
theorem under_of_endless {n : Nat} {t : Path} (h : l.fileOrDirectory (n + 1) t = .endless) :
    ∃ u ∈ l.leadsTo t, l.Under t u ∧ l.fileOrDirectory n u = .endless := by
  rw [fileOrDirectory_succ] at h
  rcases firstFile_cases (l := l) (l.plainCandidates t) with ⟨hnone, habsent⟩ | ⟨c, q, -, -, hfound⟩
  · rw [habsent] at h
    obtain ⟨u, more, hmem, hp, hu⟩ := exists_of_endless h
    exact ⟨u, hmem, ⟨more, fun rest => .head' (.intro rest hnone) (hp rest)⟩, hu⟩
  · rw [hfound] at h
    cases h

/-! ## Directories that lead to each other -/

theorem isDir_of_mem_leadsTo {t u : Path} (h : u ∈ l.leadsTo t) : l.files.isDir t = true := by
  unfold leadsTo at h
  split at h
  next ht => exact ht
  next => cases h

/-- What a target leads to is a normalized path. -/
theorem exists_of_mem_leadsTo {t u : Path} (h : u ∈ l.leadsTo t) : ∃ p : Path, p.normalize = u := by
  unfold leadsTo offers at h
  split at h
  next =>
    split at h
    next =>
      obtain ⟨entry, -, rfl⟩ := List.mem_map.mp h
      exact ⟨_, rfl⟩
    next => cases h
  next => cases h

/-- If `n + 1` steps do not suffice at a target, `n` directories come up one under the other. -/
theorem exists_chain {n : Nat} {t : Path} (h : l.fileOrDirectory (n + 1) t = .endless) :
    ∃ us, us.length = n ∧ (t :: us).Pairwise l.Under ∧ us ⊆ l.files.dirPaths := by
  induction n generalizing t with
  | zero => exact ⟨[], rfl, List.pairwise_singleton _ _, List.nil_subset _⟩
  | succ n ih =>
    obtain ⟨u, hmem, hunder, hu⟩ := under_of_endless h
    obtain ⟨us, hlen, hpair, hsub⟩ := ih hu
    obtain ⟨v, hv, -⟩ := under_of_endless hu
    obtain ⟨p, rfl⟩ := exists_of_mem_leadsTo hmem
    refine ⟨p.normalize :: us, congrArg (· + 1) hlen, ?_, ?_⟩
    · refine List.pairwise_cons.mpr ⟨fun x hx => ?_, hpair⟩
      rcases List.mem_cons.mp hx with rfl | hx
      · exact hunder
      · exact hunder.trans (List.rel_of_pairwise_cons hpair hx)
    · exact List.cons_subset.mpr ⟨FileTree.mem_dirPaths (isDir_of_mem_leadsTo hv), hsub⟩

/-- There are not so many directories, so that one of them comes up again under itself. -/
theorem recurs_of_endless {as : List Path} (h : firstOf (l.fileOrDirectory l.fuel) as = .endless) :
    l.Recurs as := by
  obtain ⟨t, more, -, hp, ht⟩ := exists_of_endless h
  obtain ⟨us, hlen, hpair, hsub⟩ := exists_chain ht
  have hdup : ¬ us.Nodup := by
    intro hnodup
    have hle := (hnodup.subperm hsub).length_le
    rw [hlen, FileTree.length_dirPaths] at hle
    omega
  obtain ⟨u, hu⟩ := List.exists_duplicate_iff_not_nodup.mpr hdup
  have hu := List.duplicate_iff_sublist.mp hu
  obtain ⟨hfirst, hpair⟩ := List.pairwise_cons.mp hpair
  have hself : l.Under u u := List.rel_of_pairwise_cons (hpair.sublist hu) List.mem_cons_self
  obtain ⟨rest, hrest⟩ := hfirst u (hu.subset List.mem_cons_self)
  have hall := (hp []).trans (hrest _).to_reflTransGen
  rw [List.append_nil] at hall
  exact ⟨u, _, hall, hself⟩

/-! ## What look-ups come to -/

/-- A search finds the first file, or nothing because there is none, or it goes round. -/
theorem search_cases (l : Lookup) (as : List Path) :
    (∃ c q, firstOf (l.fileOrDirectory l.fuel) as = .found q ∧ l.Settles as (some c) ∧
      l.files.canonical c = .ok q) ∨
    (firstOf (l.fileOrDirectory l.fuel) as = .absent ∧ l.Settles as none) ∨
    firstOf (l.fileOrDirectory l.fuel) as = .endless ∧ l.Recurs as := by
  cases hs : firstOf (l.fileOrDirectory l.fuel) as with
  | found q =>
    obtain ⟨t, rest, c, hp, hc, hq⟩ := exists_of_found hs []
    rw [List.append_nil] at hp
    exact .inl ⟨c, q, rfl, .of_passes hp (.found rest hc), hq⟩
  | absent =>
    have hp := passes_of_absent hs []
    rw [List.append_nil] at hp
    exact .inr (.inl ⟨rfl, .of_passes hp .vain⟩)
  | endless => exact .inr (.inr ⟨rfl, recurs_of_endless hs⟩)

theorem fault_ne_endless (request : String) : fault request ≠ .endless := by
  unfold fault
  split
  · exact fun h => nomatch h
  · split
    · exact fun h => nomatch h
    · split <;> exact fun h => nomatch h

section
variable (l : Lookup) (dir : Path) (request : String)

theorem find_cases :
    (∃ c q, l.find dir request = .ok q ∧ l.Settles (l.targets dir request) (some c) ∧
      l.files.canonical c = .ok q) ∨
    (l.find dir request = .error (fault request) ∧ l.Settles (l.targets dir request) none) ∨
    l.find dir request = .error .endless ∧ l.Recurs (l.targets dir request) := by
  rw [find_eq]
  rcases l.search_cases (l.targets dir request) with ⟨c, q, hs, hset⟩ | ⟨hs, hset⟩ | ⟨hs, hrec⟩
  · exact .inl ⟨c, q, by rw [hs]; rfl, hset⟩
  · exact .inr (.inl ⟨by rw [hs]; rfl, hset⟩)
  · exact .inr (.inr ⟨by rw [hs]; rfl, hrec⟩)

theorem find_eq_ok (p : Path) : l.find dir request = .ok p ↔
    ∃ c, l.Settles (l.targets dir request) (some c) ∧ l.files.canonical c = .ok p := by
  rcases l.find_cases dir request with ⟨c, q, hf, hset, hq⟩ | ⟨hf, hset⟩ | ⟨hf, hrec⟩
  · constructor
    · intro h
      rw [Except.ok.inj (h.symm.trans hf)]
      exact ⟨c, hset, hq⟩
    · rintro ⟨c', hset', hp⟩
      cases hset.unique hset'
      rw [hf, Except.ok.inj (hq.symm.trans hp)]
  · exact iff_of_false (fun h => nomatch hf.symm.trans h)
      fun ⟨c, hset', _⟩ => nomatch hset.unique hset'
  · exact iff_of_false (fun h => nomatch hf.symm.trans h)
      fun ⟨c, hset, _⟩ => hrec.not_settles _ hset

theorem find_eq_fault :
    l.find dir request = .error (fault request) ↔ l.Settles (l.targets dir request) none := by
  rcases l.find_cases dir request with ⟨c, q, hf, hset, -⟩ | ⟨hf, hset⟩ | ⟨hf, hrec⟩
  · exact iff_of_false (fun h => nomatch hf.symm.trans h) fun hset' => nomatch hset.unique hset'
  · exact iff_of_true hf hset
  · exact iff_of_false
      (fun h => fault_ne_endless request (Except.error.inj (h.symm.trans hf))) (hrec.not_settles _)

theorem find_eq_endless :
    l.find dir request = .error .endless ↔ l.Recurs (l.targets dir request) := by
  rcases l.find_cases dir request with ⟨c, q, hf, hset, -⟩ | ⟨hf, hset⟩ | ⟨hf, hrec⟩
  · exact iff_of_false (fun h => nomatch hf.symm.trans h) fun hrec => hrec.not_settles _ hset
  · exact iff_of_false (fun h => fault_ne_endless request (Except.error.inj (hf.symm.trans h)))
      fun hrec => hrec.not_settles _ hset
  · exact iff_of_true hf hrec

theorem exists_settles : (∃ r, l.Settles (l.targets dir request) r) ↔
    ¬ l.Recurs (l.targets dir request) := by
  rcases l.find_cases dir request with ⟨c, q, -, hset, -⟩ | ⟨-, hset⟩ | ⟨-, hrec⟩
  · exact iff_of_true ⟨_, hset⟩ fun hrec => hrec.not_settles _ hset
  · exact iff_of_true ⟨_, hset⟩ fun hrec => hrec.not_settles _ hset
  · exact iff_of_false (fun ⟨r, hset⟩ => hrec.not_settles r hset) (not_not_intro hrec)

/-- A look-up ends with a path or with the fault of its request, as its search does, and comes to no
end if and only if the search meets a target that comes up again under itself. -/
theorem find_settles :
    (∀ p, l.find dir request = .ok p ↔
      ∃ c, l.Settles (l.targets dir request) (some c) ∧ l.files.canonical c = .ok p) ∧
    (l.find dir request = .error (fault request) ↔ l.Settles (l.targets dir request) none) ∧
    (l.find dir request = .error .endless ↔ l.Recurs (l.targets dir request)) ∧
    ((∃ r, l.Settles (l.targets dir request) r) ↔ ¬ l.Recurs (l.targets dir request)) :=
  ⟨l.find_eq_ok dir request, l.find_eq_fault dir request, l.find_eq_endless dir request,
    l.exists_settles dir request⟩

end

/-- A directory `d` whose `package.json` names the directory itself. -/
def roundTree : FileTree where
  root := .dir [("d", .dir [("package.json", .file (Text.Utf8.encode "\x7b\"main\":\".\"\x7d"))])]
  start := []

/-- Such a directory has no file and no end. -/
theorem find_settles_of_round_tree :
    (find ⟨roundTree, [".js"]⟩ ⟨"/"⟩ "./d") = .error .endless ∧
      ∀ r, ¬ Settles ⟨roundTree, [".js"]⟩ (targets ⟨roundTree, [".js"]⟩ ⟨"/"⟩ "./d") r := by
  obtain ⟨-, -, hrec, hset⟩ := find_settles ⟨roundTree, [".js"]⟩ ⟨"/"⟩ "./d"
  have h : find ⟨roundTree, [".js"]⟩ ⟨"/"⟩ "./d" = .error .endless := by decide +kernel
  exact ⟨h, fun r hr => hset.mp ⟨r, hr⟩ (hrec.mp h)⟩

end Lookup

end Bundler

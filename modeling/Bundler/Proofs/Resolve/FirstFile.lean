import Bundler.Proofs.Resolve.Endless

/-!
# The first candidate that is a file

The candidates of a request stand in one order, whichever way the search takes through packages and
their directories, and a look-up answers with the first one that is a file.
-/

namespace Bundler

namespace Lookup

variable {l : Lookup}

/-! ## Candidates in their order -/

theorem candidates_grow (n : Nat) (ts : List Path) : l.candidates n ts <+: l.candidates (n + 1) ts := by
  induction n generalizing ts with
  | zero => exact List.nil_prefix
  | succ n ih =>
    cases ts with
    | nil => exact List.prefix_refl _
    | cons t ts => exact (List.prefix_append_right_inj _).mpr (ih _)

theorem settles_of_candidates {n : Nat} {ts : List Path} {c : Path}
    (h : (l.candidates n ts).find? l.files.isFile = some c) : l.Settles ts (some c) := by
  induction n generalizing ts with
  | zero => cases h
  | succ n ih =>
    cases ts with
    | nil => cases h
    | cons t ts =>
      rw [candidates, List.find?_append] at h
      cases ht : l.fileOf? t with
      | some c' =>
        rw [show List.find? _ _ = some c' from ht] at h
        exact h ▸ .found ts ht
      | none =>
        rw [show List.find? _ _ = none from ht] at h
        exact .next ht (ih h)

theorem settles_of_no_more {n : Nat} {ts : List Path}
    (hend : l.candidates (n + 1) ts = l.candidates n ts)
    (h : ∀ c ∈ l.candidates n ts, l.files.isFile c = false) : l.Settles ts none := by
  induction n generalizing ts with
  | zero =>
    cases ts with
    | nil => exact .vain
    | cons t ts => cases hend
  | succ n ih =>
    cases ts with
    | nil => exact .vain
    | cons t ts =>
      have hnone : l.fileOf? t = none := by
        refine List.find?_eq_none.mpr fun c hc => ?_
        rw [h c (List.mem_append_left _ hc)]
        decide
      exact .next hnone (ih (List.append_cancel_left hend)
        fun c hc => h c (List.mem_append_right _ hc))

/-- A search that settles has gone through finitely many targets. -/
theorem Settles.exists_candidates {ts : List Path} {r : Option Path} (h : l.Settles ts r) :
    ∃ n, (l.candidates n ts).find? l.files.isFile = r ∧
      (r = none → l.candidates (n + 1) ts = l.candidates n ts) := by
  induction h with
  | vain => exact ⟨0, rfl, fun _ => rfl⟩
  | found ts h =>
    refine ⟨1, ?_, fun h => nomatch h⟩
    rw [candidates, List.find?_append, show List.find? _ _ = some _ from h]
    rfl
  | next h _ ih =>
    obtain ⟨n, hfind, hend⟩ := ih
    refine ⟨n + 1, ?_, fun hr => congrArg _ (hend hr)⟩
    rw [candidates, List.find?_append, show List.find? _ _ = none from h]
    exact hfind

/-! ## What is answered -/

/-- A look-up answers with the canonical path of the first candidate that is a file, whenever there
is one, and with its fault if there are only so many candidates and none is a file. -/
theorem find_first_candidate (l : Lookup) (dir : Path) (request : String) :
    let listed := fun n => l.candidates n (l.targets dir request)
    (∀ n, listed n <+: listed (n + 1)) ∧
    (∀ p, l.find dir request = .ok p ↔ ∃ n c, (listed n).find? l.files.isFile = some c ∧
      l.files.canonical c = .ok p) ∧
    ((∃ p, l.find dir request = .ok p) ↔ ∃ n, ∃ c ∈ listed n, l.files.isFile c = true) ∧
    (l.find dir request = .error (fault request) ↔
      ∃ n, listed (n + 1) = listed n ∧ ∀ c ∈ listed n, l.files.isFile c = false) := by
  intro listed
  have hok : ∀ p, l.find dir request = .ok p ↔ ∃ n c,
      (listed n).find? l.files.isFile = some c ∧ l.files.canonical c = .ok p := by
    intro p
    rw [find_eq_ok]
    constructor
    · rintro ⟨c, hset, hp⟩
      obtain ⟨n, hfind, -⟩ := hset.exists_candidates
      exact ⟨n, c, hfind, hp⟩
    · rintro ⟨n, c, hfind, hp⟩
      exact ⟨c, settles_of_candidates hfind, hp⟩
  refine ⟨fun n => candidates_grow n _, hok, ?_, ?_⟩
  · constructor
    · rintro ⟨p, hp⟩
      obtain ⟨n, c, hfind, -⟩ := (hok p).mp hp
      exact ⟨n, c, List.mem_of_find?_eq_some hfind, List.find?_some hfind⟩
    · rintro ⟨n, c, hc, hfile⟩
      obtain ⟨c', hfind⟩ := Option.isSome_iff_exists.mp (List.find?_isSome.mpr ⟨c, hc, hfile⟩)
      obtain ⟨q, hq⟩ := exists_canonical (List.find?_some hfind)
      exact ⟨q, (hok q).mpr ⟨n, c', hfind, hq⟩⟩
  · rw [find_eq_fault]
    constructor
    · intro hset
      obtain ⟨n, hfind, hend⟩ := hset.exists_candidates
      refine ⟨n, hend rfl, fun c hc => ?_⟩
      exact eq_false_of_ne_true (List.find?_eq_none.mp hfind c hc)
    · rintro ⟨n, hend, hnone⟩
      exact settles_of_no_more hend hnone

/-- A package with a scope. Its exports have one subpath, with a condition in a condition. -/
def scopedTree : FileTree where
  root := .dir
    [("node_modules", .dir [("@s", .dir [("p", .dir
      [("main.js", .file []),
        ("package.json", .file (Text.Utf8.encode
          ("\x7b\"exports\":\x7b\"./x\":\x7b\"require\":\"./main.js\"," ++
            "\"default\":\x7b\"import\":\"./x\"\x7d\x7d\x7d,\"main\":\"./main\"\x7d"))),
        ("x.js", .file [])])])]),
      ("src", .dir [])]
  start := []

theorem targets_of_scoped_package {request : String} (hne : request.isEmpty = false)
    (hn : isNear request = false) (ha : Path.isAbsolute ⟨request⟩ = false)
    (hc : request.toList.contains ':' = false) :
    targets ⟨scopedTree, [".js"]⟩ ⟨"/src"⟩ request =
      [⟨"/src"⟩, ⟨"/"⟩].flatMap (packageTargets ⟨scopedTree, [".js"]⟩ request) := by
  have hup : (Path.parent? ⟨"/src"⟩) = some ⟨"/"⟩ := by decide +kernel
  have htop : (Path.parent? ⟨"/"⟩) = none := by decide +kernel
  unfold targets
  rw [hne, hn, ha, hc, Path.ancestry_of_parent hup, Path.ancestry_of_top htop]
  rfl

/-- The subpath leads to the target of its preferred condition, and the package itself, for which
there is nothing in the exports, to its main file. -/
theorem find_first_candidate_of_scoped_package :
    find ⟨scopedTree, [".js"]⟩ ⟨"/src"⟩ "@s/p/x" = .ok ⟨"/node_modules/@s/p/x.js"⟩ ∧
      find ⟨scopedTree, [".js"]⟩ ⟨"/src"⟩ "@s/p" = .ok ⟨"/node_modules/@s/p/main.js"⟩ := by
  constructor
  · obtain ⟨-, hok, -⟩ := find_first_candidate ⟨scopedTree, [".js"]⟩ ⟨"/src"⟩ "@s/p/x"
    refine (hok _).mpr ⟨1, ⟨"/node_modules/@s/p/x.js"⟩, ?_, by decide +kernel⟩
    rw [targets_of_scoped_package (by decide) (by decide +kernel) (by decide +kernel) (by decide)]
    decide +kernel
  · obtain ⟨-, hok, -⟩ := find_first_candidate ⟨scopedTree, [".js"]⟩ ⟨"/src"⟩ "@s/p"
    refine (hok _).mpr ⟨1, ⟨"/node_modules/@s/p/main.js"⟩, ?_, by decide +kernel⟩
    rw [targets_of_scoped_package (by decide) (by decide +kernel) (by decide +kernel) (by decide)]
    decide +kernel

end Lookup

end Bundler

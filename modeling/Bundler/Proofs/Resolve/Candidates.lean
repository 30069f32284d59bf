import Bundler.Proofs.Resolve.Ancestors
import Bundler.Proofs.Resolve.Packages

/-!
# Candidates of a request

What a look-up is to try, apart from how it is searched, and from how requests and manifests are
read. A request has targets, the targets have candidates, which are paths of files, and a directory
leads to further targets by its `package.json`: these are tried before the targets that follow.
-/

namespace Bundler

namespace Lookup

/-! ## Targets and candidates -/

section
variable (l : Lookup)

/-- The paths of files that a target stands for: itself, itself with an extension and, for a
directory, its index files. -/
def plainCandidates (t : Path) : List Path :=
  t :: l.extensions.map (fun ext => ⟨t.text ++ ext⟩) ++
    if l.files.isDir t then l.extensions.map fun ext => t.join ⟨"index" ++ ext⟩ else []

/-- What the `package.json` of a directory says, if it is a file with JSON in it. -/
def said? (dir : Path) : Option Json :=
  (l.files.readText (dir.join ⟨"package.json"⟩)).toOption.bind fun text =>
    (Json.parse (Text.Utf8.encode text)).toOption

/-- The targets that the `package.json` in a directory offers for a request. -/
def offers (dir : Path) (subpath : Option String) : List Path :=
  match l.said? dir with
  | some manifest =>
    (Package.contributed manifest subpath).map fun entry => (dir.join ⟨entry⟩).normalize
  | none => []

/-- The targets that a target leads to. -/
def leadsTo (t : Path) : List Path := if l.files.isDir t then l.offers t none else []

/-- The targets of a request for a package in the `node_modules` of a directory. -/
def packageTargets (request : String) (dir : Path) : List Path :=
  let package := (dir.join ⟨"node_modules"⟩).join ⟨Package.nameOf request⟩
  if l.files.isDir package then
    l.offers package (Package.subpathOf request) ++ [match Package.subpathOf request with
      | some sub => package.join ⟨sub⟩
      | none => package]
  else []

/-- Whether a request is for a place near by: its first part is one dot, or two. -/
def isNear (request : String) : Bool :=
  (Package.parts request).head? = some ['.'] || (Package.parts request).head? = some ['.', '.']

/-- The targets of a request from a directory. -/
def targets (dir : Path) (request : String) : List Path :=
  if request.isEmpty then []
  else if isNear request then [(dir.join ⟨request⟩).normalize]
  else if Path.isAbsolute ⟨request⟩ then [⟨request⟩]
  else if request.toList.contains ':' then []
  else dir.ancestry.flatMap (l.packageTargets request)

/-- The fault of a request that nothing is found for. -/
def fault (request : String) : LookupFault :=
  if request.isEmpty then .emptySpecifier
  else if isNear request || Path.isAbsolute ⟨request⟩ then .notFound
  else if request.toList.contains ':' then .unsupportedScheme
  else .noPackage (Package.nameOf request)

/-- The candidates of `n` targets, of which each is followed by those that it leads to. -/
def candidates : Nat → List Path → List Path
  | n + 1, t :: ts => l.plainCandidates t ++ candidates n (l.leadsTo t ++ ts)
  | _, _ => []

/-- The first candidate of a target that is a file. -/
def fileOf? (t : Path) : Option Path := (l.plainCandidates t).find? l.files.isFile

end

/-! ## Searches -/

variable {l : Lookup}

theorem orElse_absent (s : Search) : (s.orElse fun _ => .absent) = s := by
  cases s <;> rfl

theorem orElse_assoc (s : Search) (f g : Unit → Search) :
    (s.orElse f).orElse g = s.orElse fun _ => (f ()).orElse g := by
  cases s <;> rfl

section
variable {α β : Type}

theorem firstOf_append (f : α → Search) (as bs : List α) :
    firstOf f (as ++ bs) = (firstOf f as).orElse fun _ => firstOf f bs := by
  induction as with
  | nil => rfl
  | cons a as ih => rw [List.cons_append, firstOf, firstOf, ih, orElse_assoc]

theorem firstOf_singleton (f : α → Search) (a : α) : firstOf f [a] = f a := orElse_absent (f a)

theorem firstOf_map (f : β → Search) (g : α → β) (as : List α) :
    firstOf f (as.map g) = firstOf (fun a => f (g a)) as := by
  induction as with
  | nil => rfl
  | cons a as ih => rw [List.map_cons, firstOf, firstOf, ih]

theorem firstOf_flatMap (f : β → Search) (g : α → List β) (as : List α) :
    firstOf f (as.flatMap g) = firstOf (fun a => firstOf f (g a)) as := by
  induction as with
  | nil => rfl
  | cons a as ih => rw [List.flatMap_cons, firstOf_append, firstOf, ih]

/-- A search that is not in vain comes after some that are. -/
theorem exists_of_firstOf {f : α → Search} {as : List α} {s : Search} (h : firstOf f as = s)
    (hs : s ≠ .absent) :
    ∃ before a after, as = before ++ a :: after ∧ firstOf f before = .absent ∧ f a = s := by
  induction as with
  | nil => exact absurd h.symm hs
  | cons a as ih =>
    rw [firstOf] at h
    cases ha : f a with
    | absent =>
      rw [ha] at h
      obtain ⟨before, x, after, rfl, hb, hx⟩ := ih h
      exact ⟨a :: before, x, after, rfl, by rw [firstOf, ha]; exact hb, hx⟩
    | found p =>
      rw [ha] at h
      exact ⟨[], a, as, rfl, rfl, ha.trans h⟩
    | endless =>
      rw [ha] at h
      exact ⟨[], a, as, rfl, rfl, ha.trans h⟩

end

theorem exists_canonical {p : Path} (h : l.files.isFile p = true) :
    ∃ q, l.files.canonical p = .ok q := by
  unfold FileTree.isFile FileTree.node? at h
  unfold FileTree.canonical
  cases hl : l.files.locate p with
  | error e =>
    rw [hl] at h
    cases h
  | ok trail => exact ⟨_, rfl⟩

theorem firstFile_eq_firstOf (ps : List Path) : l.firstFile ps = firstOf l.file ps := by
  induction ps with
  | nil => rfl
  | cons p ps ih => rw [firstFile, firstOf, ih]

/-- The first of some paths that is a file is found by its canonical path. -/
theorem firstFile_cases (ps : List Path) :
    (ps.find? l.files.isFile = none ∧ l.firstFile ps = .absent) ∨
      ∃ c q, ps.find? l.files.isFile = some c ∧ l.files.canonical c = .ok q ∧
        l.firstFile ps = .found q := by
  induction ps with
  | nil => exact .inl ⟨rfl, rfl⟩
  | cons p ps ih =>
    rw [firstFile, file]
    cases hp : l.files.isFile p with
    | true =>
      obtain ⟨q, hq⟩ := exists_canonical hp
      refine .inr ⟨p, q, List.find?_cons_of_pos hp, hq, ?_⟩
      rw [if_pos rfl, hq]
      rfl
    | false =>
      rw [List.find?_cons_of_neg (by rw [hp]; decide), if_neg Bool.false_ne_true]
      exact ih

/-! ## One target, and a request -/

theorem readText_eq_error {p : Path} (h : l.files.isFile p = false) :
    ∃ e, l.files.readText p = .error e := by
  unfold FileTree.isFile FileTree.node? at h
  unfold FileTree.readText FileTree.read
  cases hl : l.files.locate p with
  | error e => exact ⟨e, rfl⟩
  | ok trail =>
    rw [hl] at h
    cases hn : l.files.here trail with
    | file bytes =>
      simp only [Except.toOption, Option.map_some, hn] at h
      cases h
    | dir children =>
      refine ⟨.isDirectory, ?_⟩
      simp only [bind, Except.bind, hn]

/-- A manifest is what the `package.json` says. -/
theorem manifest?_eq (dir : Path) : l.manifest? dir = l.said? dir := by
  unfold manifest? said?
  dsimp only
  cases hf : l.files.isFile (dir.join ⟨"package.json"⟩) with
  | false =>
    obtain ⟨e, he⟩ := readText_eq_error hf
    rw [if_neg Bool.false_ne_true, he]
    rfl
  | true =>
    rw [if_pos rfl]
    cases l.files.readText (dir.join ⟨"package.json"⟩) <;> rfl

theorem said?_eq_none {dir : Path} (h : l.files.isFile (dir.join ⟨"package.json"⟩) = false) :
    l.said? dir = none := by
  obtain ⟨e, he⟩ := readText_eq_error h
  unfold said?
  rw [he]
  rfl

theorem packageEntry_eq (n : Nat) (dir : Path) (subpath : Option String) :
    l.packageEntry n dir subpath = firstOf (l.fileOrDirectory n) (l.offers dir subpath) := by
  unfold packageEntry offers
  rw [manifest?_eq]
  cases l.said? dir with
  | none => rfl
  | some manifest =>
    dsimp only
    rw [Package.entries_eq]
    exact (firstOf_map _ _ _).symm

theorem isRelative_eq (request : String) : isRelative request = isNear request := by
  have hpart : ∀ (s start : String) (part : List Char), s.toList = part → '/' ∉ part →
      start.toList = part ++ ['/'] →
      ((Package.parts request).head? = some part ↔
        request = s ∨ Text.startsWith request start = true) := by
    rintro s start part rfl hfree hstart
    rw [Package.parts, Package.head?_splitOn hfree, String.toList_inj, Text.startsWith, hstart,
      List.isPrefixOf_iff_prefix]
    refine or_congr_right ⟨?_, ?_⟩
    · rintro ⟨rest, h⟩
      exact ⟨rest, by rw [h, List.append_assoc]; rfl⟩
    · rintro ⟨rest, h⟩
      exact ⟨rest, by rw [← h, List.append_assoc]; rfl⟩
  rw [Bool.eq_iff_iff]
  unfold isRelative isNear
  simp only [Bool.or_eq_true, decide_eq_true_eq]
  have hdot := hpart "." "./" ['.'] rfl (by decide) rfl
  have hdots := hpart ".." "../" ['.', '.'] rfl (by decide) rfl
  rw [hdot, hdots]
  tauto

/-- At a target its candidates are tried, and then the targets that it leads to. -/
theorem fileOrDirectory_succ (n : Nat) (t : Path) : l.fileOrDirectory (n + 1) t =
    (l.firstFile (l.plainCandidates t)).orElse fun _ =>
      firstOf (l.fileOrDirectory n) (l.leadsTo t) := by
  rw [fileOrDirectory]
  unfold plainCandidates leadsTo
  simp only [firstFile_eq_firstOf, List.cons_append, firstOf, firstOf_append, orElse_assoc]
  cases l.files.isDir t with
  | false => simp only [Bool.false_eq_true, if_false, firstOf, orElse_absent]
  | true =>
    simp only [if_true]
    cases hf : l.files.isFile (t.join ⟨"package.json"⟩) with
    | false =>
      unfold offers
      rw [said?_eq_none hf]
      rfl
    | true =>
      simp only [if_true, ← packageEntry_eq]
      rfl

theorem packageIn_eq (n : Nat) (request : String) (dir : Path) :
    l.packageIn n (.parse request) dir =
      firstOf (l.fileOrDirectory n) (l.packageTargets request dir) := by
  have hpackage : ∀ dir subpath last, (l.packageEntry n dir subpath).orElse
      (fun _ => l.fileOrDirectory n last) =
        firstOf (l.fileOrDirectory n) (l.offers dir subpath ++ [last]) := by
    intro dir subpath last
    rw [firstOf_append, firstOf_singleton, packageEntry_eq]
  unfold packageIn packageTargets
  rw [Package.parse_eq]
  dsimp only
  split
  next => exact hpackage _ _ _
  next => rfl

/-- A request is answered with what is found at the first of its targets at which something is. -/
theorem find_eq (dir : Path) (request : String) : l.find dir request =
    answer (fault request) (firstOf (l.fileOrDirectory l.fuel) (l.targets dir request)) := by
  unfold find targets fault
  by_cases hempty : request.isEmpty = true
  · rw [if_pos hempty, if_pos hempty, if_pos hempty]
    rfl
  rw [if_neg hempty, if_neg hempty, if_neg hempty]
  rw [isRelative_eq]
  by_cases hrelative : isNear request = true
  · rw [if_pos hrelative, if_pos hrelative, firstOf_singleton, hrelative]
    rfl
  rw [if_neg hrelative, if_neg hrelative, eq_false_of_ne_true hrelative]
  by_cases habsolute : Path.isAbsolute ⟨request⟩ = true
  · rw [if_pos habsolute, if_pos habsolute, firstOf_singleton, habsolute]
    rfl
  rw [if_neg habsolute, if_neg habsolute, eq_false_of_ne_true habsolute]
  by_cases hscheme : request.toList.contains ':' = true
  · rw [if_pos hscheme, if_pos hscheme, if_neg (by decide), if_pos hscheme]
    rfl
  rw [if_neg hscheme, if_neg hscheme, if_neg (by decide), if_neg hscheme, firstOf_flatMap,
    ← upward_eq dir (Nat.lt_succ_self _)]
  have hname : (Package.Request.parse request).name = Package.nameOf request := by
    rw [Package.parse_eq]
  dsimp only
  rw [hname]
  exact congrArg (answer _ <| firstOf · _) (funext (packageIn_eq l.fuel request))

end Lookup

end Bundler

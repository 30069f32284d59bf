import Bundler.Proofs.FileTree.Overwrite
import Bundler.Proofs.Resolve.Told

/-!
# What look-ups read

Of the content of files, look-ups read that of a `package.json` only. Other content in another file
leaves every request where it leads.
-/

namespace Bundler

namespace Lookup

/-! ## Look-ups that see the same -/

/-- Look-ups that see the same files, directories and manifests. -/
structure Agrees (l l' : Lookup) : Prop where
  extensions : l'.extensions = l.extensions
  isFile : ∀ p, l'.files.isFile p = l.files.isFile p
  isDir : ∀ p, l'.files.isDir p = l.files.isDir p
  canonical : ∀ p, l'.files.canonical p = l.files.canonical p
  manifest : ∀ dir, l'.manifest? dir = l.manifest? dir
  fuel : l'.fuel = l.fuel

section
variable {l l' : Lookup} (h : l.Agrees l')
include h

theorem Agrees.file (p : Path) : l'.file p = l.file p := by
  unfold Lookup.file
  rw [h.isFile, h.canonical]

theorem Agrees.firstFile (ps : List Path) : l'.firstFile ps = l.firstFile ps := by
  induction ps with
  | nil => rfl
  | cons p ps ih => rw [Lookup.firstFile, Lookup.firstFile, h.file, ih]

omit h in
theorem firstOf_congr {α : Type} {f f' : α → Search} (hf : ∀ a, f' a = f a) (as : List α) :
    firstOf f' as = firstOf f as := by
  induction as with
  | nil => rfl
  | cons a as ih => rw [firstOf, firstOf, hf, ih]

theorem Agrees.fileOrDirectory (fuel : Nat) (target : Path) :
    l'.fileOrDirectory fuel target = l.fileOrDirectory fuel target := by
  induction fuel generalizing target with
  | zero => rfl
  | succ fuel ih =>
    rw [Lookup.fileOrDirectory, Lookup.fileOrDirectory]
    simp only [h.extensions, h.file, h.firstFile, h.isDir, h.isFile, h.manifest]
    cases l.manifest? target with
    | none => rfl
    | some manifest => simp only [firstOf_congr fun entry => ih (target.join ⟨entry⟩).normalize]

theorem Agrees.packageIn (fuel : Nat) (request : Package.Request) (dir : Path) :
    l'.packageIn fuel request dir = l.packageIn fuel request dir := by
  unfold Lookup.packageIn Lookup.packageEntry
  simp only [h.isDir, h.manifest, h.fileOrDirectory]

theorem Agrees.find (dir : Path) (request : String) : l'.find dir request = l.find dir request := by
  unfold Lookup.find
  simp only [h.fuel, h.fileOrDirectory, firstOf_congr fun d => h.packageIn l.fuel _ d]

end

/-! ## Other content -/

theorem countDirsIn_map {f : String × Node → Node} {children : List (String × Node)}
    (h : ∀ e ∈ children, countDirs (f e) = countDirs e.2) :
    countDirsIn (children.map fun e => (e.1, f e)) = countDirsIn children := by
  induction children with
  | nil => rfl
  | cons e children ih =>
    rw [List.map_cons, countDirsIn, countDirsIn, h e List.mem_cons_self,
      ih fun e he => h e (List.mem_cons_of_mem _ he)]

theorem countDirs_overwrite (bytes : Bytes) (names : List String) (node : Node) :
    countDirs (node.overwrite bytes names) = countDirs node := by
  induction names generalizing node with
  | nil => cases node <;> rfl
  | cons n names ih =>
    cases node with
    | file old => rfl
    | dir children =>
      rw [Node.overwrite, countDirs, countDirs, countDirsIn_map]
      intro e _
      by_cases he : e.1 = n
      · simp only [if_pos he, ih]
      · simp only [if_neg he]

theorem plain_manifest : Path.Plain "package.json" := ⟨by decide, by decide, by decide⟩

theorem agrees_overwrite (t : FileTree) (extensions : List String) {names : List String}
    (bytes : Bytes) (hn : names.getLast? ≠ some "package.json") :
    Agrees ⟨t, extensions⟩ ⟨t.overwrite names bytes, extensions⟩ where
  extensions := rfl
  isFile := (t.sameShape_overwrite names bytes).isFile_path
  isDir := (t.sameShape_overwrite names bytes).isDir_path
  canonical := (t.sameShape_overwrite names bytes).canonical
  manifest dir := by
    unfold manifest? FileTree.readText
    simp only [(t.sameShape_overwrite names bytes).isFile_path,
      FileTree.read_overwrite_of_join bytes dir plain_manifest hn]
  fuel := congrArg (2 * · + 3) (countDirs_overwrite bytes names t.root)

end Lookup

/-! ## Resolutions -/

section
variable {t t' : FileTree} {host : Option Host} {limit : Option Nat}

theorem Resolver.ideal_of_agrees {r : Resolver}
    (h : Lookup.Agrees ⟨t, r.extensions⟩ ⟨t', r.extensions⟩) (specifier : String)
    (importer : Option ModuleId) (dir : Path) :
    r.ideal ⟨t', host⟩ limit specifier importer dir =
      r.ideal ⟨t, host⟩ limit specifier importer dir := by
  have hfiles : ∀ (i : Inquiries), i.cache = {} → ∀ request query hookError,
      (r.resolveInFiles t' i specifier importer dir request query hookError).2 =
        (r.resolveInFiles t i specifier importer dir request query hookError).2 := by
    intro i hi request query hookError
    have hl : ∀ t : FileTree, (r.lookup t i dir request).2 =
        Lookup.find ⟨t, r.extensions⟩ dir request := by
      intro t
      unfold Resolver.lookup
      rw [hi]
      rfl
    unfold Resolver.resolveInFiles
    dsimp only
    rw [hl, hl, h.find]
    cases Lookup.find ⟨t, r.extensions⟩ dir request <;> rfl
  unfold Resolver.ideal Resolver.resolve
  dsimp only
  by_cases hext : r.isExternal (r.expand (splitQuery specifier).1) = true
  · rw [if_pos hext, if_pos hext]
  · rw [if_neg hext, if_neg hext]
    generalize Bridge.resolve _ _ _ = x
    obtain ⟨b, o⟩ := x
    cases o with
    | answered a =>
      cases a with
      | some a => rfl
      | none => exact hfiles _ rfl _ _ _
    | failed f => exact hfiles _ rfl _ _ _
    | panicked reason => rfl

end

end Bundler

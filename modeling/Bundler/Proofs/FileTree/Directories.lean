import Bundler.Proofs.FileTree.Overwrite
import Bundler.Proofs.Resolve.Ancestors

/-!
# Where the directories of a tree are

A normalized path names a directory in one way if it is absolute, and in one way if it is relative.
So the normalized paths of the directories of a tree are among twice as many as it has directories.
-/

namespace Bundler

/-! ## The names of directories -/

namespace Node

mutual

/-- The names that lead to the directories at or below a node. -/
def dirNames : Node → List (List String)
  | .file _ => []
  | .dir children => [] :: dirNamesIn children

def dirNamesIn : List (String × Node) → List (List String)
  | [] => []
  | (n, node) :: rest => (dirNames node).map (n :: ·) ++ dirNamesIn rest

end

mutual

theorem length_dirNames (node : Node) : node.dirNames.length = Lookup.countDirs node := by
  cases node with
  | file bytes => rfl
  | dir children => exact congrArg (· + 1) (length_dirNamesIn children)

theorem length_dirNamesIn (children : List (String × Node)) :
    (dirNamesIn children).length = Lookup.countDirsIn children := by
  cases children with
  | nil => rfl
  | cons e rest =>
    obtain ⟨n, node⟩ := e
    rw [dirNamesIn, Lookup.countDirsIn, List.length_append, List.length_map, length_dirNames node,
      length_dirNamesIn rest]

end

theorem mem_dirNamesIn {children : List (String × Node)} {n : String} {node : Node}
    {names : List String} (h : Table.find n children = some node) (hn : names ∈ node.dirNames) :
    n :: names ∈ dirNamesIn children := by
  induction children with
  | nil => cases h
  | cons e rest ih =>
    rw [Table.find] at h
    rw [dirNamesIn]
    split at h
    next he =>
      cases h
      rw [Std.LawfulEqCmp.eq_of_compare he]
      exact List.mem_append_left _ (List.mem_map_of_mem hn)
    next => exact List.mem_append_right _ (ih h)

theorem mem_dirNames {node : Node} {names : List String} {children : List (String × Node)}
    (h : node.at? names = some (.dir children)) : names ∈ node.dirNames := by
  induction names generalizing node with
  | nil =>
    rw [at?] at h
    cases h
    exact List.mem_cons_self
  | cons n names ih =>
    obtain ⟨c, hc, hat⟩ := Option.bind_eq_some_iff.mp h
    cases node with
    | file bytes => cases hc
    | dir children => exact List.mem_cons_of_mem _ (mem_dirNamesIn hc (ih hat))

end Node

/-! ## Normalized paths -/

namespace Path

theorem plain_of_mem_components {p : Path} {s : String} (h : .name s ∈ p.components) : Plain s := by
  unfold components at h
  rcases List.mem_append.mp h with h | h
  · cases ha : p.anchor <;> rw [ha] at h <;> simp [Anchor.components] at h
  · obtain ⟨s', hs, he⟩ := List.mem_map.mp h
    obtain ⟨hs, hv⟩ := List.mem_filter.mp hs
    unfold component at he
    split at he
    next => cases he
    next hu =>
      cases he
      exact ⟨not_mem_of_mem_splitSlashes hs, by simpa using hv, hu⟩

/-- The names that are left when `.` and `..` are followed. -/
def keptNames (p : Path) : List String :=
  p.components.foldl (fun names c =>
    match c with
    | .up => names.dropLast
    | .name s => names ++ [s]
    | _ => names) []

theorem plain_keptNames (p : Path) : ∀ s ∈ p.keptNames, Plain s := by
  refine List.foldlRecOn (motive := fun names => ∀ s ∈ names, Plain s) p.components _
    (fun _ h => absurd h List.not_mem_nil) ?_
  intro names hnames c hc s hs
  cases c with
  | up => exact hnames s (List.dropLast_subset names hs)
  | name x =>
    rcases List.mem_append.mp hs with hs | hs
    · exact hnames s hs
    · exact List.mem_singleton.mp hs ▸ plain_of_mem_components hc
  | root => exact hnames s hs
  | here => exact hnames s hs

/-- A normalized path is the absolute or the relative path of names. -/
theorem normalize_cases (p : Path) :
    p.normalize = .ofNames p.keptNames ∨ p.normalize = ⟨"/".intercalate p.keptNames⟩ := by
  unfold normalize
  by_cases ha : p.isAbsolute = true
  · rw [if_pos ha]
    exact .inl rfl
  · rw [if_neg ha]
    exact .inr (congrArg Path.mk String.empty_append)

end Path

/-! ## Where they are -/

namespace FileTree

variable {t : FileTree}

theorem stands_of_locate {p : Path} {trail : Trail} (h : t.locate p = .ok trail) :
    t.Stands trail := by
  have hl := (SameShape.refl t).locate p
  rw [h] at hl
  cases hl with
  | ok h1 _ _ => exact h1

theorem exists_of_isDir {p : Path} (h : t.isDir p = true) :
    ∃ trail, t.locate p = .ok trail ∧ names trail ∈ t.root.dirNames := by
  unfold isDir at h
  split at h
  next children hn =>
    obtain ⟨trail, ht, hk⟩ := Option.map_eq_some_iff.mp hn
    cases hl : t.locate p with
    | error e =>
      rw [hl] at ht
      cases ht
    | ok trail' =>
      rw [hl] at ht
      cases ht
      exact ⟨trail, rfl, Node.mem_dirNames (hk ▸ at?_of_stands (stands_of_locate hl))⟩
  next => cases h

theorem names_of_locate_ofNames {ns : List String} (hn : ∀ s ∈ ns, Path.Plain s) {trail : Trail}
    (h : t.locate (.ofNames ns) = .ok trail) : names trail = ns := by
  obtain ⟨-, h⟩ := follow_of_locate h
  rw [Path.isAbsolute_ofNames] at h
  cases ns with
  | nil =>
    have h : t.follow ["", ""] [] = .ok trail := h
    cases follow_void (follow_void h)
    rfl
  | cons s ns =>
    rw [splitSlashes_ofNames (fun s hs => (hn s hs).slash) (List.cons_ne_nil _ _)] at h
    exact names_of_follow hn (follow_void h)

theorem names_of_locate_relative {ns : List String} (hn : ∀ s ∈ ns, Path.Plain s) {trail : Trail}
    (h : t.locate ⟨"/".intercalate ns⟩ = .ok trail) : names trail = names t.startTrail ++ ns := by
  obtain ⟨hempty, h⟩ := follow_of_locate h
  cases ns with
  | nil => cases hempty
  | cons s ns =>
    have hsplit : Path.splitSlashes ("/".intercalate (s :: ns)).toList = s :: ns := by
      rw [String.toList_intercalate]
      exact Path.splitSlashes_intercalate (fun s hs => (hn s hs).slash) (List.cons_ne_nil _ _)
    have habs : Path.isAbsolute ⟨"/".intercalate (s :: ns)⟩ = false := by
      -- Otherwise nothing would stand before the first slash.
      refine eq_false_of_ne_true fun ha => ?_
      unfold Path.isAbsolute Text.startsWith at ha
      obtain ⟨cs, hcs⟩ := List.isPrefixOf_iff_prefix.mp ha
      rw [← hcs] at hsplit
      have hs : "" = s := (List.cons.inj hsplit).1
      have hv : Path.isVoid "" = false := hs ▸ (hn s List.mem_cons_self).void
      exact nomatch hv
    rw [habs, hsplit] at h
    exact names_of_follow hn h

/-- The normalized paths of the directories of a tree. -/
def dirPaths (t : FileTree) : List Path :=
  t.root.dirNames.map .ofNames ++
    t.root.dirNames.map fun ns => ⟨"/".intercalate (ns.drop (names t.startTrail).length)⟩

theorem length_dirPaths (t : FileTree) : t.dirPaths.length = 2 * Lookup.countDirs t.root := by
  unfold dirPaths
  rw [List.length_append, List.length_map, List.length_map, Node.length_dirNames, Nat.two_mul]

theorem mem_dirPaths {p : Path} (h : t.isDir p.normalize = true) : p.normalize ∈ t.dirPaths := by
  obtain ⟨trail, hl, hmem⟩ := exists_of_isDir h
  rcases p.normalize_cases with hp | hp
  · rw [hp] at hl ⊢
    rw [names_of_locate_ofNames p.plain_keptNames hl] at hmem
    exact List.mem_append_left _ (List.mem_map_of_mem hmem)
  · rw [hp] at hl ⊢
    rw [names_of_locate_relative p.plain_keptNames hl] at hmem
    refine List.mem_append_right _ (List.mem_map.mpr ⟨_, hmem, ?_⟩)
    rw [List.drop_left]

end FileTree

end Bundler

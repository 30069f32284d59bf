import Bundler.Proofs.FileTree.Canonical
import Bundler.Proofs.Table

/-!
# Files with other content

Other content in a file moves nothing: every path leads where it led before, and every other file
is read as before.
-/

namespace Bundler

namespace Node

/-- Puts other content into the file at the end of some names. -/
def overwrite (bytes : Bytes) : List String → Node → Node
  | [], .file _ => .file bytes
  | [], .dir children => .dir children
  | _ :: _, .file old => .file old
  | n :: rest, .dir children =>
    .dir (children.map fun e => (e.1, if e.1 = n then overwrite bytes rest e.2 else e.2))

theorem at?_append (ns ns' : List String) (node : Node) :
    node.at? (ns ++ ns') = (node.at? ns).bind (at? ns') := by
  induction ns generalizing node with
  | nil => rfl
  | cons n ns ih =>
    rw [List.cons_append, at?, at?]
    cases node.child? n with
    | none => rfl
    | some c => exact ih c

theorem at?_overwrite (bytes : Bytes) (names ns : List String) (node : Node) :
    (node.overwrite bytes names).at? ns = (node.at? ns).map fun c =>
      if ns <+: names then c.overwrite bytes (names.drop ns.length) else c := by
  induction ns generalizing names node with
  | nil => simp [at?]
  | cons n ns ih =>
    cases names with
    | nil =>
      cases node with
      | file old => rfl
      | dir children => simp [overwrite, at?]
    | cons m names =>
      cases node with
      | file old => rfl
      | dir children =>
        simp only [overwrite, at?, child?]
        rw [Table.find_map fun k c => if k = m then overwrite bytes names c else c]
        cases Table.find n children with
        | none => rfl
        | some c =>
          by_cases hn : n = m
          · subst hn
            simp [ih]
          · simp [hn]

theorem at?_overwrite_of_ne {bytes old : Bytes} {names ns : List String} {node : Node}
    (hne : ns ≠ names) (h : node.at? ns = some (.file old)) :
    (node.overwrite bytes names).at? ns = some (.file old) := by
  rw [at?_overwrite, h, Option.map_some]
  by_cases hp : ns <+: names
  · obtain ⟨rest, rfl⟩ := hp
    rw [if_pos (List.prefix_append ns rest), List.drop_left]
    cases rest with
    | nil => exact absurd (List.append_nil ns).symm hne
    | cons n rest => rfl
  · rw [if_neg hp]

theorem at?_overwrite_self {bytes old : Bytes} {names : List String} {node : Node}
    (h : node.at? names = some (.file old)) :
    (node.overwrite bytes names).at? names = some (.file bytes) := by
  rw [at?_overwrite, h, Option.map_some, if_pos (List.prefix_refl names), List.drop_length]
  rfl

theorem isFile_overwrite (bytes : Bytes) (names : List String) (node : Node) :
    (node.overwrite bytes names).isFile = node.isFile := by
  cases names <;> cases node <;> rfl

end Node

namespace FileTree

/-- The tree with other content in a file. -/
def overwrite (t : FileTree) (names : List String) (bytes : Bytes) : FileTree :=
  { t with root := t.root.overwrite bytes names }

/-! ## Trails -/

/-- The nodes of a trail are those on the way. -/
def Stands (t : FileTree) : Trail → Prop
  | [] => True
  | (n, node) :: rest => (t.here rest).child? n = some node ∧ t.Stands rest

theorem names_cons (e : String × Node) (trail : Trail) : names (e :: trail) = names trail ++ [e.1] := by
  simp [names]

theorem at?_of_stands {t : FileTree} {trail : Trail} (h : t.Stands trail) :
    t.root.at? (names trail) = some (t.here trail) := by
  induction trail with
  | nil => rfl
  | cons e trail ih => rw [names_cons, Node.at?_append, ih h.2, Option.bind_some, Node.at?, h.1]; rfl

theorem Stands.tail {t : FileTree} {trail : Trail} (h : t.Stands trail) : t.Stands trail.tail := by
  cases trail with
  | nil => exact h
  | cons e trail => exact h.2

/-! ## Trees of one shape -/

/-- Trees with files and directories in the same places. -/
structure SameShape (t t' : FileTree) : Prop where
  start : t'.start = t.start
  isFile : ∀ ns, (t'.root.at? ns).map Node.isFile = (t.root.at? ns).map Node.isFile

/-- Places with the same names, or the same refusal. -/
inductive Abreast (t t' : FileTree) : Except OsError Trail → Except OsError Trail → Prop
  | error (e : OsError) : Abreast t t' (.error e) (.error e)
  | ok {trail trail' : Trail} (h : t.Stands trail) (h' : t'.Stands trail')
      (hn : names trail' = names trail) : Abreast t t' (.ok trail) (.ok trail')

variable {t t' : FileTree}

theorem SameShape.refl (t : FileTree) : t.SameShape t := ⟨rfl, fun _ => rfl⟩

theorem SameShape.isFile_here (h : t.SameShape t') {trail trail' : Trail} (ht : t.Stands trail)
    (ht' : t'.Stands trail') (hn : names trail' = names trail) :
    (t'.here trail').isFile = (t.here trail).isFile := by
  have hf := h.isFile (names trail)
  rw [at?_of_stands ht, ← hn, at?_of_stands ht'] at hf
  exact Option.some.inj hf

/-- At the same place there are files, or directories with the same names. -/
theorem SameShape.here (h : t.SameShape t') {trail trail' : Trail} (ht : t.Stands trail)
    (ht' : t'.Stands trail') (hn : names trail' = names trail) :
    (∃ b b', t.here trail = .file b ∧ t'.here trail' = .file b') ∨
      ∃ cs cs', t.here trail = .dir cs ∧ t'.here trail' = .dir cs' ∧
        ∀ s, (Table.find s cs').isSome = (Table.find s cs).isSome := by
  have hf := h.isFile_here ht ht' hn
  have hs : ∀ s, ((t'.here trail').child? s).isSome = ((t.here trail).child? s).isSome := by
    intro s
    have hs := congrArg Option.isSome (h.isFile (names trail ++ [s]))
    rw [Node.at?_append, Node.at?_append, at?_of_stands ht, ← hn, at?_of_stands ht'] at hs
    simpa [Node.at?] using hs
  cases hn1 : t.here trail with
  | file b =>
    cases hn2 : t'.here trail' with
    | file b' => exact .inl ⟨b, b', rfl, rfl⟩
    | dir cs' => rw [hn1, hn2] at hf; cases hf
  | dir cs =>
    cases hn2 : t'.here trail' with
    | file b' => rw [hn1, hn2] at hf; cases hf
    | dir cs' =>
      rw [hn1, hn2] at hs
      exact .inr ⟨cs, cs', rfl, rfl, hs⟩

theorem names_tail {trail trail' : Trail} (h : names trail' = names trail) :
    names trail'.tail = names trail.tail := by
  unfold names at h ⊢
  simpa using congrArg List.tail (List.reverse_inj.mp h)

theorem SameShape.follow (h : t.SameShape t') (segments : List String) {trail trail' : Trail}
    (ht : t.Stands trail) (ht' : t'.Stands trail') (hn : names trail' = names trail) :
    Abreast t t' (t.follow segments trail) (t'.follow segments trail') := by
  induction segments generalizing trail trail' with
  | nil => exact .ok ht ht' hn
  | cons s segments ih =>
    rw [FileTree.follow, FileTree.follow]
    rcases h.here ht ht' hn with ⟨b, b', h1, h2⟩ | ⟨cs, cs', h1, h2, hfind⟩ <;> rw [h1, h2]
    · exact .error _
    dsimp only
    split
    next => exact ih ht ht' hn
    split
    next => exact ih ht.tail ht'.tail (names_tail hn)
    split
    next => exact .error _
    have hs := hfind s
    cases hc : Table.find s cs with
    | none =>
      cases hc' : Table.find s cs' with
      | none => exact .error _
      | some node' => rw [hc, hc'] at hs; cases hs
    | some node =>
      cases hc' : Table.find s cs' with
      | none => rw [hc, hc'] at hs; cases hs
      | some node' =>
        refine ih ⟨?_, ht⟩ ⟨?_, ht'⟩ (by rw [names_cons, names_cons, hn])
        · rw [h1]
          exact hc
        · rw [h2]
          exact hc'

theorem SameShape.startTrail (h : t.SameShape t') : t.Stands t.startTrail ∧
    t'.Stands t'.startTrail ∧ names t'.startTrail = names t.startTrail := by
  have hf : Abreast t t' (t.follow t.start []) (t'.follow t.start []) :=
    h.follow t.start trivial trivial rfl
  unfold FileTree.startTrail
  rw [h.start]
  generalize t.follow t.start [] = r at hf
  generalize t'.follow t.start [] = r' at hf
  cases hf with
  | error e => exact ⟨trivial, trivial, rfl⟩
  | ok h1 h2 hn => exact ⟨h1, h2, hn⟩

theorem SameShape.locate (h : t.SameShape t') (p : Path) : Abreast t t' (t.locate p) (t'.locate p) := by
  unfold FileTree.locate
  cases checkText p with
  | error e => exact .error e
  | ok u =>
    refine h.follow _ ?_ ?_ ?_
    all_goals split
    · trivial
    · exact h.startTrail.1
    · trivial
    · exact h.startTrail.2.1
    · rfl
    · exact h.startTrail.2.2

theorem SameShape.canonical (h : t.SameShape t') (p : Path) : t'.canonical p = t.canonical p := by
  have hl := h.locate p
  unfold FileTree.canonical
  generalize t.locate p = r at hl
  generalize t'.locate p = r' at hl
  cases hl with
  | error e => rfl
  | ok h1 h2 hn => exact congrArg (fun ns => Except.ok (Path.ofNames ns)) hn

theorem SameShape.node? (h : t.SameShape t') (p : Path) :
    (t'.node? p).map Node.isFile = (t.node? p).map Node.isFile := by
  have hl := h.locate p
  unfold FileTree.node?
  generalize t.locate p = r at hl
  generalize t'.locate p = r' at hl
  cases hl with
  | error e => rfl
  | ok h1 h2 hn => exact congrArg some (h.isFile_here h1 h2 hn)

theorem isFile_eq (t : FileTree) (p : Path) :
    t.isFile p = ((t.node? p).map Node.isFile == some true) ∧
      t.isDir p = ((t.node? p).map Node.isFile == some false) := by
  unfold isFile isDir
  cases t.node? p with
  | none => exact ⟨rfl, rfl⟩
  | some node => cases node <;> exact ⟨rfl, rfl⟩

theorem SameShape.isFile_path (h : t.SameShape t') (p : Path) : t'.isFile p = t.isFile p := by
  rw [(t'.isFile_eq p).1, (t.isFile_eq p).1, h.node?]

theorem SameShape.isDir_path (h : t.SameShape t') (p : Path) : t'.isDir p = t.isDir p := by
  rw [(t'.isFile_eq p).2, (t.isFile_eq p).2, h.node?]

/-! ## Other content -/

theorem sameShape_overwrite (t : FileTree) (names : List String) (bytes : Bytes) :
    t.SameShape (t.overwrite names bytes) where
  start := rfl
  isFile ns := by
    have h := Node.at?_overwrite bytes names ns t.root
    refine (congrArg (Option.map Node.isFile) h).trans ?_
    rw [Option.map_map]
    congr 1
    funext c
    simp only [Function.comp]
    by_cases hp : ns <+: names
    · rw [if_pos hp, Node.isFile_overwrite]
    · rw [if_neg hp]

/-- What is read at a node. -/
def contentOf : Node → Except OsError Bytes
  | .file bytes => .ok bytes
  | .dir _ => .error .isDirectory

theorem read_eq (t : FileTree) (p : Path) :
    t.read p = (t.locate p).bind fun trail => contentOf (t.here trail) := by
  unfold FileTree.read
  cases t.locate p with
  | error e => rfl
  | ok trail =>
    show Except.bind (.ok trail) _ = contentOf (t.here trail)
    simp only [Except.bind]
    cases t.here trail <;> rfl

theorem read_overwrite (t : FileTree) {names : List String} (bytes : Bytes) {p : Path}
    (h : ∀ trail, t.locate p = .ok trail → (t.here trail).isFile = true →
      FileTree.names trail ≠ names) : (t.overwrite names bytes).read p = t.read p := by
  have hl := (t.sameShape_overwrite names bytes).locate p
  rw [read_eq, read_eq]
  generalize t.locate p = r at hl h
  generalize (t.overwrite names bytes).locate p = r' at hl
  cases hl with
  | error e => rfl
  | @ok trail trail' h1 h2 hn =>
    show contentOf (FileTree.here (t.overwrite names bytes) trail') = contentOf (t.here trail)
    have hshape := (t.sameShape_overwrite names bytes).isFile_here h1 h2 hn
    have hat := at?_of_stands h1
    have hat' := at?_of_stands h2
    rw [hn] at hat'
    cases hk : t.here trail with
    | dir children =>
      rw [hk] at hshape
      cases hk' : FileTree.here (t.overwrite names bytes) trail' with
      | file new => rw [hk'] at hshape; cases hshape
      | dir children' => rfl
    | file old =>
      rw [hk] at hat
      have hold : (t.overwrite names bytes).root.at? (FileTree.names trail) = some (.file old) :=
        Node.at?_overwrite_of_ne (h trail rfl (by rw [hk]; rfl)) hat
      rw [Option.some.inj (hat'.symm.trans hold)]

/-! ## Where paths lead -/

theorem stands_of_follow {segments : List String} {trail : Trail}
    (h : t.follow segments [] = .ok trail) : t.Stands trail := by
  have hf := @SameShape.follow t t (.refl t) segments [] [] trivial trivial rfl
  rw [h] at hf
  cases hf with
  | ok h1 _ _ => exact h1

theorem follow_append (a b : List String) (trail : Trail) :
    t.follow (a ++ b) trail = (t.follow a trail).bind (t.follow b) := by
  induction a generalizing trail with
  | nil => rfl
  | cons s a ih =>
    rw [List.cons_append, FileTree.follow, FileTree.follow]
    split
    next => rfl
    next =>
      split
      next => exact ih trail
      next =>
        split
        next => exact ih trail.tail
        next =>
          split
          next => rfl
          next =>
            split
            next => exact ih _
            next => rfl

/-- A name leads on, unless it counts for nothing or leads back. -/
theorem names_of_follow_singleton {s : String} {trail out : Trail} (hv : Path.isVoid s = false)
    (hu : s ≠ "..") (h : t.follow [s] trail = .ok out) : names out = names trail ++ [s] := by
  rw [FileTree.follow] at h
  split at h
  next => cases h
  next =>
    rw [if_neg (by rw [hv]; decide), if_neg hu] at h
    split at h
    next => cases h
    next =>
      split at h
      next => cases h; exact names_cons _ _
      next => cases h

theorem exists_of_follow_append {a b : List String} {trail out : Trail}
    (h : t.follow (a ++ b) trail = .ok out) :
    ∃ mid, t.follow a trail = .ok mid ∧ t.follow b mid = .ok out := by
  rw [follow_append] at h
  cases hm : t.follow a trail with
  | error e => rw [hm] at h; cases h
  | ok mid => rw [hm] at h; exact ⟨mid, rfl, h⟩

theorem names_of_follow {segments : List String} (hs : ∀ s ∈ segments, Path.Plain s)
    {trail out : Trail} (h : t.follow segments trail = .ok out) :
    names out = names trail ++ segments := by
  induction segments generalizing trail with
  | nil => cases h; exact (List.append_nil _).symm
  | cons s segments ih =>
    have hp := hs s List.mem_cons_self
    obtain ⟨mid, hm, ho⟩ := exists_of_follow_append (a := [s]) h
    rw [ih (fun x hx => hs x (List.mem_cons_of_mem _ hx)) ho,
      names_of_follow_singleton hp.void hp.up hm, List.append_assoc]
    rfl

theorem isFile_of_follow_singleton {s : String} {trail out : Trail} (ht : t.Stands trail)
    (hs : Path.isVoid s = true ∨ s = "..") (h : t.follow [s] trail = .ok out) :
    (t.here out).isFile = false := by
  rw [FileTree.follow] at h
  split at h
  next => cases h
  next children hd =>
    by_cases hv : Path.isVoid s = true
    · rw [if_pos hv] at h
      cases h
      rw [hd]
      rfl
    · rw [if_neg hv, if_pos (hs.resolve_left hv)] at h
      cases h
      cases trail with
      | nil => rw [List.tail_nil, hd]; rfl
      | cons e trail =>
        rw [List.tail_cons]
        have hc := ht.1
        cases hh : t.here trail with
        | file bytes => rw [hh] at hc; cases hc
        | dir children => rfl

theorem splitSlashes_ofNames {names : List String} (h : ∀ s ∈ names, '/' ∉ s.toList)
    (hne : names ≠ []) : Path.splitSlashes (Path.ofNames names).text.toList = "" :: names := by
  have hs := Path.splitSlashes_intercalate h hne
  unfold Path.splitSlashes at hs ⊢
  rw [Path.toList_ofNames, Text.pieces, if_pos rfl, List.map_cons]
  exact congrArg ("" :: ·) hs

theorem follow_void {ns : List String} {trail out : Trail} (h : t.follow ("" :: ns) trail = .ok out) :
    t.follow ns trail = .ok out := by
  rw [follow] at h
  split at h
  next => cases h
  next => rwa [if_pos (by decide)] at h

/-- A path of names, plain but perhaps for the last one, leads to the file of these names. -/
theorem names_of_locate {names : List String} {last : String} (hn : ∀ s ∈ names, Path.Plain s)
    (hl : '/' ∉ last.toList) {trail : Trail} (h : t.locate (.ofNames (names ++ [last])) = .ok trail)
    (hf : (t.here trail).isFile = true) : FileTree.names trail = names ++ [last] := by
  have hslash : ∀ s ∈ names ++ [last], '/' ∉ s.toList := by
    intro s hs
    rcases List.mem_append.mp hs with hs | hs
    · exact (hn s hs).slash
    · exact List.mem_singleton.mp hs ▸ hl
  obtain ⟨-, h⟩ := follow_of_locate h
  rw [Path.isAbsolute_ofNames, splitSlashes_ofNames hslash (by simp)] at h
  -- The way splits into the root, the plain names and the last name.
  have h : t.follow (names ++ [last]) [] = .ok trail := follow_void h
  obtain ⟨mid, hm, ho⟩ := exists_of_follow_append h
  have hmid := names_of_follow hn hm
  have hstands : t.Stands mid := stands_of_follow hm
  by_cases hv : Path.isVoid last = true ∨ last = ".."
  · rw [isFile_of_follow_singleton hstands hv ho] at hf
    cases hf
  · rw [not_or, Bool.not_eq_true] at hv
    rw [names_of_follow_singleton hv.1 hv.2 ho, hmid]
    rfl

/-- What an id of a canonical path loads does not change, unless its own file does. -/
theorem read_overwrite_of_id {names ns : List String} (hns : ∀ s ∈ ns, Path.Plain s)
    (bytes : Bytes) {q : Option String}
    (hne : (ModuleId.ofPath (.ofNames ns) q).path ≠ .ofNames names) :
    (t.overwrite names bytes).read (ModuleId.ofPath (.ofNames ns) q).path =
      t.read (ModuleId.ofPath (.ofNames ns) q).path := by
  obtain ⟨k, last, hl, he⟩ := Path.exists_path_ofPath hns q
  refine t.read_overwrite bytes fun trail ht hf hn => hne ?_
  rw [he] at ht
  rw [he, ← hn, names_of_locate (fun s hs => hns s (List.mem_of_mem_take hs)) hl ht hf]

theorem read_overwrite_self {names : List String} (hn : ∀ s ∈ names, Path.Plain s) {old : Bytes}
    (bytes : Bytes) (h : t.read (.ofNames names) = .ok old) :
    (t.overwrite names bytes).read (.ofNames names) = .ok bytes := by
  have hl := (t.sameShape_overwrite names bytes).locate (.ofNames names)
  rw [read_eq] at h ⊢
  cases ht : t.locate (.ofNames names) with
  | error e => rw [ht] at h; cases h
  | ok trail =>
    rw [ht] at h hl
    have hnode : t.here trail = .file old := by
      have h : contentOf (t.here trail) = .ok old := h
      cases hk : t.here trail with
      | file content => rw [hk] at h; cases h; rfl
      | dir children => rw [hk] at h; cases h
    have hnames : FileTree.names trail = names := by
      rcases names.eq_nil_or_concat with rfl | ⟨init, last, rfl⟩
      · -- No file is at the root of the tree.
        have hfollow : t.follow ["", ""] [] = .ok trail := by
          unfold FileTree.locate at ht
          rw [show checkText (.ofNames []) = .ok () by decide +kernel] at ht
          exact ht
        obtain ⟨mid, hm, ho⟩ := exists_of_follow_append (a := [""]) hfollow
        have hdir := isFile_of_follow_singleton (stands_of_follow hm) (.inl (by decide)) ho
        rw [hnode] at hdir
        cases hdir
      · rw [List.concat_eq_append] at hn ht ⊢
        exact names_of_locate (fun s hs => hn s (List.mem_append_left _ hs))
          (hn last (List.mem_append_right _ List.mem_cons_self)).slash ht (by rw [hnode]; rfl)
    generalize (t.overwrite names bytes).locate (.ofNames names) = r at hl
    cases hl with
    | @ok _ trail' h1 h2 he =>
      have hat := at?_of_stands h1
      have hat' := at?_of_stands h2
      rw [he, hnames] at hat'
      rw [hnames, hnode] at hat
      have hnew := hat'.symm.trans (Node.at?_overwrite_self hat)
      show contentOf (FileTree.here _ trail') = .ok bytes
      rw [Option.some.inj hnew]
      rfl

/-! ## Manifests -/

theorem splitSlashes_join (dir : Path) {name : String} (hn : '/' ∉ name.toList) :
    ∃ init, Path.splitSlashes (dir.join ⟨name⟩).text.toList = init ++ [name] := by
  have hone : Text.pieces '/' name.toList = [name.toList] := by
    rw [Text.pieces_eq_splitOn]
    exact List.splitOn_eq_singleton hn
  have happ : ∀ a : List Char, ∃ init, Path.splitSlashes (a ++ '/' :: name.toList) =
      init ++ [name] := by
    intro a
    refine ⟨(Text.pieces '/' a).map String.ofList, ?_⟩
    unfold Path.splitSlashes
    rw [Text.pieces_eq_splitOn, List.splitOn_append_cons_self, ← Text.pieces_eq_splitOn,
      ← Text.pieces_eq_splitOn, hone, List.map_append]
    simp
  have habs : Path.isAbsolute ⟨name⟩ = false := by
    unfold Path.isAbsolute Text.startsWith
    cases h : name.toList with
    | nil => rfl
    | cons c cs =>
      rw [h] at hn
      have hc : '/' ≠ c := fun e => hn (e ▸ List.mem_cons_self)
      simp [List.isPrefixOf, hc]
  unfold Path.join
  rw [habs, if_neg (by decide)]
  by_cases hd : (dir.isEmpty || Text.endsWith dir.text "/") = true
  · rw [if_pos hd, String.toList_append]
    rcases Bool.or_eq_true_iff.mp hd with he | he
    · have hnil : dir.text = "" := String.isEmpty_iff.mp he
      refine ⟨[], ?_⟩
      unfold Path.splitSlashes
      rw [hnil]
      show (Text.pieces '/' name.toList).map String.ofList = [name]
      rw [hone]
      simp
    · obtain ⟨a, ha⟩ := List.isSuffixOf_iff_suffix.mp he
      rw [← ha, List.append_assoc]
      exact happ a
  · rw [if_neg hd, String.toList_append, String.toList_append, List.append_assoc]
    exact happ _

/-- A file of another name keeps what is read in its place. -/
theorem read_overwrite_of_join {names : List String} (bytes : Bytes) (dir : Path) {name : String}
    (hp : Path.Plain name) (hn : names.getLast? ≠ some name) :
    (t.overwrite names bytes).read (dir.join ⟨name⟩) = t.read (dir.join ⟨name⟩) := by
  refine t.read_overwrite bytes fun trail ht _ he => hn ?_
  obtain ⟨init, hi⟩ := splitSlashes_join dir hp.slash
  obtain ⟨-, ht⟩ := follow_of_locate ht
  rw [hi] at ht
  obtain ⟨mid, -, ho⟩ := exists_of_follow_append ht
  rw [← he, names_of_follow_singleton hp.void hp.up ho]
  simp

end FileTree

end Bundler

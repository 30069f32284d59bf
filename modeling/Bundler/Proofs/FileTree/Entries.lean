import Mathlib.Logic.Function.Basic
import Bundler.Proofs.FileTree.Spelling

/-!
# What stands where

What an operation changes in a tree is told by what stands at each place: a file with its bytes, a
directory, or nothing. An operation that makes or removes one entry changes what stands at one
place. The place that a path denotes depends on directories only, so it stays where it is while no
directory goes away.
-/

namespace Bundler

namespace Node

/-- What stands at a place. -/
inductive Entry
  | file (bytes : Bytes)
  | dir
deriving DecidableEq

def entry : Node → Entry
  | .file bytes => .file bytes
  | .dir _ => .dir

theorem entry_eq_dir {node : Node} : node.entry = .dir ↔ node.isFile = false := by
  cases node <;> simp [entry, isFile]

/-! ## Putting a node -/

theorem put_cons {new : Option Node} {n : String} {ns : List String} (h : ns ≠ [])
    (children : List (String × Node)) : put new (n :: ns) (.dir children) =
      match Table.find n children with
      | some c => .dir (Table.place n (put new ns c) children)
      | none => .dir children := by
  cases ns with
  | nil => exact absurd rfl h
  | cons m ns => rfl

theorem find_place (n m : String) (node : Node) (children : List (String × Node)) :
    Table.find m (Table.place n node children) =
      if m = n then some node else Table.find m children := by
  by_cases h : m = n
  · rw [if_pos h, h, Table.find_place_self]
  · rw [if_neg h, Table.find_place_of_ne fun he => h (Table.compare_eq_iff.mp he)]

theorem child?_put (new : Option Node) (n m : String) (children : List (String × Node)) :
    (put new [n] (.dir children)).child? m = if m = n then new else Table.find m children := by
  cases new with
  | some node => exact find_place n m node children
  | none =>
    have hp : (fun e : String × Node => decide (e.1 ≠ n)) = fun e => compare n e.1 != .eq := by
      funext e
      by_cases h : e.1 = n
      · simp [h, Std.ReflCmp.compare_self]
      · have : compare n e.1 ≠ .eq := fun he => h (Table.compare_eq_iff.mp he).symm
        simp [h, this]
    show Table.find m (children.filter fun e => decide (e.1 ≠ n)) = _
    rw [hp, Table.find_filter_ne]

/-- What is put stands at its place and below. -/
theorem at?_put {node : Node} {parent : List String} {children : List (String × Node)}
    (h : node.at? parent = some (.dir children)) (new : Option Node) (n : String)
    (rest : List String) :
    (node.put new (parent ++ [n])).at? (parent ++ n :: rest) = new.bind (at? rest) := by
  induction parent generalizing node with
  | nil =>
    cases h
    show ((put new [n] (.dir children)).child? n).bind (at? rest) = _
    rw [child?_put, if_pos rfl]
  | cons p parent ih =>
    obtain ⟨c, hc, hat⟩ := Option.bind_eq_some_iff.mp h
    cases node with
    | file bytes => cases hc
    | dir children =>
      rw [List.cons_append, List.cons_append, put_cons (by simp),
        show Table.find p children = some c from hc]
      show (Table.find p (Table.place p _ children)).bind (at? (parent ++ n :: rest)) = _
      rw [Table.find_place_self]
      exact ih hat

/-- Elsewhere everything stands as it did. -/
theorem entry_put {node : Node} {parent : List String} {children : List (String × Node)}
    (h : node.at? parent = some (.dir children)) (new : Option Node) (n : String) {ms : List String}
    (hm : ¬parent ++ [n] <+: ms) :
    ((node.put new (parent ++ [n])).at? ms).map entry = (node.at? ms).map entry := by
  induction parent generalizing node ms with
  | nil =>
    cases h
    cases ms with
    | nil => rfl
    | cons m ms =>
      have hne : m ≠ n := fun he => hm ⟨ms, by rw [he]; rfl⟩
      show (((put new [n] (.dir children)).child? m).bind (at? ms)).map entry = _
      rw [child?_put, if_neg hne]
      rfl
  | cons p parent ih =>
    obtain ⟨c, hc, hat⟩ := Option.bind_eq_some_iff.mp h
    cases node with
    | file bytes => cases hc
    | dir children =>
      have hc : Table.find p children = some c := hc
      rw [List.cons_append, put_cons (by simp), hc]
      cases ms with
      | nil => rfl
      | cons m ms =>
        show ((Table.find m (Table.place p _ children)).bind (at? ms)).map entry =
          ((Table.find m children).bind (at? ms)).map entry
        rw [find_place]
        by_cases hmp : m = p
        · rw [if_pos hmp, hmp, hc]
          refine ih hat fun hpre => hm ?_
          rw [hmp]
          exact List.cons_prefix_cons.mpr ⟨rfl, hpre⟩
        · rw [if_neg hmp]

end Node

namespace FileTree

open Node (Entry)

/-- What stands at the end of some names. -/
def entry? (t : FileTree) (ns : List String) : Option Entry := (t.root.at? ns).map Node.entry

variable {t u : FileTree}

theorem exists_of_entry?_dir {ns : List String} (h : t.entry? ns = some .dir) :
    ∃ children, t.root.at? ns = some (.dir children) := by
  obtain ⟨node, hat, he⟩ := Option.map_eq_some_iff.mp h
  cases node with
  | file bytes => cases he
  | dir children => exact ⟨children, hat⟩

theorem entry?_of_stands {trail : Trail} (h : t.Stands trail) :
    t.entry? (names trail) = some (t.here trail).entry := by
  unfold entry?
  rw [at?_of_stands h]
  rfl

theorem entry?_child {trail : Trail} (h : t.Stands trail) (s : String) :
    t.entry? (names trail ++ [s]) = ((t.here trail).child? s).map Node.entry := by
  unfold entry?
  rw [Node.at?_append, at?_of_stands h]
  show (((t.here trail).child? s).bind some).map Node.entry = _
  cases (t.here trail).child? s <;> rfl

/-! ## One other entry -/

/-- The tree `u` is `t` but for what stands at one place. -/
structure Amends (t u : FileTree) (ns : List String) (e : Option Entry) : Prop where
  start : u.start = t.start
  entry : u.entry? = Function.update t.entry? ns e

/-- A file or an empty directory is put where no directory stands, or nothing is. -/
theorem amends_put {parent : List String} {n : String} (hp : t.entry? parent = some .dir)
    (hold : t.entry? (parent ++ [n]) ≠ some .dir) (new : Option Node)
    (hnew : ∀ children, new = some (.dir children) → children = []) :
    t.Amends { t with root := t.root.put new (parent ++ [n]) } (parent ++ [n])
      (new.map Node.entry) := by
  refine ⟨rfl, funext fun ms => ?_⟩
  obtain ⟨children, hat⟩ := exists_of_entry?_dir hp
  rw [Function.update_apply]
  by_cases hpre : parent ++ [n] <+: ms
  · obtain ⟨rest, rfl⟩ := hpre
    -- Nothing stands below the place, neither before nor after.
    have hafter : FileTree.entry? { t with root := t.root.put new (parent ++ [n]) }
        (parent ++ [n] ++ rest) = (new.bind (Node.at? rest)).map Node.entry := by
      show ((t.root.put new (parent ++ [n])).at? _).map Node.entry = _
      rw [List.append_assoc, List.singleton_append, Node.at?_put hat]
    rw [hafter]
    cases rest with
    | nil =>
      rw [List.append_nil, if_pos rfl]
      cases new <;> rfl
    | cons m rest =>
      rw [if_neg fun he => by simpa using congrArg List.length he]
      have hbefore : t.entry? (parent ++ [n] ++ m :: rest) = none := by
        unfold entry? at hold ⊢
        rw [Node.at?_append]
        cases hnode : t.root.at? (parent ++ [n]) with
        | none => rfl
        | some node =>
          rw [hnode] at hold
          cases node with
          | file bytes => rfl
          | dir children => exact absurd rfl hold
      rw [hbefore]
      cases new with
      | none => rfl
      | some node =>
        cases node with
        | file bytes => rfl
        | dir children => cases hnew children rfl; rfl
  · have hne : ms ≠ parent ++ [n] := fun he => hpre (he ▸ List.prefix_refl _)
    rw [if_neg hne]
    exact Node.entry_put hat new n hpre

/-! ## The place of a path -/

theorem Slot.entry?_parent {p : Path} {s : Slot} (h : t.slot p = .ok s) :
    t.entry? (FileTree.names s.parent) = some .dir := by
  obtain ⟨-, -, -, -, hdir, -⟩ := slot_eq_ok h
  rw [entry?_of_stands (Slot.stands h), Node.entry_eq_dir.mpr hdir]

/-- What an operation finds at the place of its path. -/
theorem Slot.entry? {p : Path} {s : Slot} (h : t.slot p = .ok s) :
    t.entry? s.names = ((t.here s.parent).child? s.name).map Node.entry :=
  entry?_child (Slot.stands h) s.name

theorem Slot.entry?_eq_file {p : Path} {s : Slot} (h : t.slot p = .ok s) {bytes : Bytes} :
    t.entry? s.names = some (.file bytes) ↔
      (t.here s.parent).child? s.name = some (.file bytes) := by
  rw [Slot.entry? h]
  cases (t.here s.parent).child? s.name with
  | none => exact ⟨nofun, nofun⟩
  | some node => cases node <;> simp [Node.entry]

theorem Slot.entry?_ne_dir {p : Path} {s : Slot} (h : t.slot p = .ok s)
    (hc : ∀ children, (t.here s.parent).child? s.name = some (.dir children) → False) :
    t.entry? s.names ≠ some .dir := by
  rw [Slot.entry? h]
  cases hn : (t.here s.parent).child? s.name with
  | none => exact nofun
  | some node =>
    cases node with
    | file bytes => exact nofun
    | dir children => exact (hc children hn).elim

/-! ## Reading at a place -/

theorem lastName_of_splitSlashes {p : Path} {init : List String} {s : String}
    (h : Path.splitSlashes p.text.toList = init ++ [s]) (hs : s ≠ "") :
    lastName p = (init, s, false) := by
  unfold lastName
  rw [h]
  dsimp only
  rw [List.reverse_append, List.reverse_singleton, List.singleton_append,
    List.dropWhile_cons_of_neg (by simpa using hs)]
  simp [hs]

/-- A path that leads to a file denotes its place. -/
theorem denotes_of_locate {p : Path} {trail : Trail} (h : t.locate p = .ok trail)
    (hf : (t.here trail).isFile = true) : t.Denotes p (names trail) := by
  have hcheck : checkText p = .ok () := by
    unfold locate at h
    cases hc : checkText p with
    | error e => rw [hc] at h; cases h
    | ok u => rfl
  obtain ⟨init, last, mid, hlast, hmid, hout, hplain⟩ := last_of_locate h hf
  have hne : last ≠ "" := fun he => nomatch he ▸ hplain.1
  have hslot : t.slot p = .ok ⟨mid, last, false⟩ := by
    unfold slot
    rw [hcheck, lastName_of_splitSlashes hlast hne]
    dsimp only [bind, Except.bind]
    rw [hmid]
    rw [follow] at hout
    dsimp only
    cases hh : t.here mid with
    | file bytes => rw [hh] at hout; cases hout
    | dir children =>
      rw [hh] at hout
      dsimp only at hout ⊢
      rw [if_neg (by rw [hplain.1]; decide), if_neg hplain.2] at hout
      split at hout
      next => cases hout
      next hlimit => rw [if_neg hlimit]
  refine ⟨_, hslot, rfl, ?_, (names_of_follow_singleton hplain.1 hplain.2 hout).symm⟩
  have hslash : last ≠ "/" := by
    rintro rfl
    exact Path.not_mem_of_mem_splitSlashes (hlast ▸ List.mem_concat_self) (by decide)
  simp only [Path.isVoid, Bool.or_eq_false_iff, decide_eq_false_iff_not] at hplain
  simp [Slot.isSpecial, hplain.1.2, hplain.2, hslash]

theorem Denotes.read {p : Path} {ns : List String} (h : t.Denotes p ns) {bytes : Bytes}
    (he : t.entry? ns = some (.file bytes)) : t.read p = .ok bytes := by
  obtain ⟨node, hat, hn⟩ := Option.map_eq_some_iff.mp he
  have hl := h.locate
  rw [hat] at hl
  obtain ⟨trail, hl, hns⟩ := hl
  have hhere := at?_of_stands (stands_of_locate hl)
  rw [hns, hat] at hhere
  rw [read_eq, hl, show Except.bind (.ok trail) (fun trail => contentOf (t.here trail)) =
    contentOf (t.here trail) from rfl, ← Option.some.inj hhere]
  cases node with
  | file b => cases hn; rfl
  | dir children => cases hn

theorem exists_denotes_of_read {p : Path} {bytes : Bytes} (h : t.read p = .ok bytes) :
    ∃ ns, t.Denotes p ns ∧ t.entry? ns = some (.file bytes) := by
  rw [read_eq] at h
  cases hl : t.locate p with
  | error e => rw [hl] at h; cases h
  | ok trail =>
    rw [hl] at h
    have h : contentOf (t.here trail) = .ok bytes := h
    cases hh : t.here trail with
    | dir children => rw [hh] at h; cases h
    | file b =>
      rw [hh] at h
      cases h
      refine ⟨_, denotes_of_locate hl (by rw [hh]; rfl), ?_⟩
      rw [entry?_of_stands (stands_of_locate hl), hh]
      rfl

/-! ## Trees with no fewer directories -/

/-- Every directory of `t` is one of `u`. -/
structure Wider (t u : FileTree) : Prop where
  start : u.start = t.start
  dir : ∀ ns, t.entry? ns = some .dir → u.entry? ns = some .dir

theorem Wider.refl (t : FileTree) : t.Wider t := ⟨rfl, fun _ h => h⟩

theorem Wider.trans {v : FileTree} (h : t.Wider u) (h' : u.Wider v) : t.Wider v :=
  ⟨h'.start.trans h.start, fun ns hd => h'.dir ns (h.dir ns hd)⟩

theorem stands_nil (t : FileTree) : t.Stands [] := trivial

theorem isFile_of_follow {segments : List String} {trail out : Trail}
    (h : t.follow segments trail = .ok out) (hd : (t.here out).isFile = false) :
    (t.here trail).isFile = false := by
  cases segments with
  | nil => cases h; exact hd
  | cons s segments =>
    rw [follow] at h
    cases hn : t.here trail with
    | file bytes => rw [hn] at h; cases h
    | dir children => rfl

theorem Wider.isFile_here (h : t.Wider u) {trail trail' : Trail} (ht : t.Stands trail)
    (hu : u.Stands trail') (hn : names trail' = names trail) (hd : (t.here trail).isFile = false) :
    (u.here trail').isFile = false := by
  have hdir := h.dir (names trail) (by rw [entry?_of_stands ht, Node.entry_eq_dir.mpr hd])
  rw [← hn, entry?_of_stands hu] at hdir
  exact Node.entry_eq_dir.mp (Option.some.inj hdir)

/-- Names that lead to a directory lead to the same one among more directories. -/
theorem Wider.follow (h : t.Wider u) {segments : List String} {trail trail' out : Trail}
    (ht : t.Stands trail) (hu : u.Stands trail') (hn : names trail' = names trail)
    (hout : t.follow segments trail = .ok out) (hd : (t.here out).isFile = false) :
    ∃ out', u.follow segments trail' = .ok out' ∧ names out' = names out := by
  induction segments generalizing trail trail' with
  | nil => cases hout; exact ⟨trail', rfl, hn⟩
  | cons s segments ih =>
    have hdir := h.isFile_here ht hu hn (isFile_of_follow hout hd)
    rw [FileTree.follow] at hout ⊢
    cases hh : t.here trail with
    | file bytes => rw [hh] at hout; cases hout
    | dir children =>
      cases hh' : u.here trail' with
      | file bytes => rw [hh'] at hdir; cases hdir
      | dir children' =>
        rw [hh] at hout
        dsimp only at hout ⊢
        split at hout
        next hv => rw [if_pos hv]; exact ih ht hu hn hout
        next hv =>
          rw [if_neg hv]
          split at hout
          next hup => rw [if_pos hup]; exact ih ht.tail hu.tail (names_tail hn) hout
          next hup =>
            rw [if_neg hup]
            split at hout
            next => cases hout
            next hlimit =>
              rw [if_neg hlimit]
              split at hout
              next node hfind =>
                have htc : t.Stands ((s, node) :: trail) := ⟨by rw [hh]; exact hfind, ht⟩
                -- So the name is found in the other tree.
                have hnode := h.dir _ (by
                  rw [entry?_of_stands htc, Node.entry_eq_dir.mpr (isFile_of_follow hout hd)])
                rw [names_cons, ← hn, entry?_child hu, hh'] at hnode
                obtain ⟨node', hfind', -⟩ := Option.map_eq_some_iff.mp hnode
                have hfind' : Table.find s children' = some node' := hfind'
                have huc : u.Stands ((s, node') :: trail') := ⟨by rw [hh']; exact hfind', hu⟩
                rw [hfind']
                exact ih htc huc (by rw [names_cons, names_cons, hn]) hout
              next => cases hout

/-- The directory where relative paths start is there. -/
def Rooted (t : FileTree) : Prop :=
  ∃ trail, t.follow t.start [] = .ok trail ∧ (t.here trail).isFile = false

/-- Paths that start at a directory that is there. -/
def Starts (t : FileTree) (p : Path) : Prop := p.isAbsolute = true ∨ t.Rooted

theorem Wider.rooted (h : t.Wider u) (ht : t.Rooted) : u.Rooted := by
  obtain ⟨trail, hf, hd⟩ := ht
  obtain ⟨trail', hf', hn⟩ := h.follow t.stands_nil u.stands_nil rfl hf hd
  refine ⟨trail', h.start ▸ hf', ?_⟩
  exact h.isFile_here (stands_of_follow hf) (stands_of_follow hf') hn hd

theorem Wider.starts (h : t.Wider u) {p : Path} (ht : t.Starts p) : u.Starts p := ht.imp_right h.rooted

theorem Wider.names_startTrail (h : t.Wider u) (ht : t.Rooted) :
    names u.startTrail = names t.startTrail := by
  obtain ⟨trail, hf, hd⟩ := ht
  obtain ⟨trail', hf', hn⟩ := h.follow t.stands_nil u.stands_nil rfl hf hd
  unfold startTrail
  rw [h.start, hf, hf']
  exact hn

/-- A path denotes the same place among more directories. -/
theorem Wider.slot (h : t.Wider u) {p : Path} (hp : t.Starts p) {s : Slot} (hs : t.slot p = .ok s) :
    ∃ parent, u.slot p = .ok { s with parent } ∧
      FileTree.names parent = FileTree.names s.parent := by
  obtain ⟨hcheck, before, hlast, hparent, hdir, hlimit⟩ := slot_eq_ok hs
  have hout : ∃ parent, u.followFrom p.isAbsolute before = .ok parent ∧
      FileTree.names parent = FileTree.names s.parent := by
    unfold followFrom at hparent ⊢
    rcases hp with ha | hr
    · rw [if_pos ha] at hparent ⊢
      exact h.follow t.stands_nil u.stands_nil rfl hparent hdir
    · refine h.follow (t.stands_from _) (u.stands_from _) ?_ hparent hdir
      split
      · rfl
      · exact h.names_startTrail hr
  obtain ⟨parent, hfollow, hn⟩ := hout
  refine ⟨parent, ?_, hn⟩
  have hd := h.isFile_here (Slot.stands hs) ((u.stands_from _).follow hfollow) hn hdir
  unfold FileTree.slot
  rw [hcheck, hlast]
  dsimp only [bind, Except.bind]
  rw [hfollow]
  dsimp only
  cases hh : u.here parent with
  | file bytes => rw [hh] at hd; cases hd
  | dir children => dsimp only; rw [if_neg (Nat.not_lt.mpr hlimit)]

theorem Wider.denotes (h : t.Wider u) {p : Path} (hp : t.Starts p) {ns : List String}
    (hd : t.Denotes p ns) : u.Denotes p ns := by
  obtain ⟨s, hs, hslash, hspecial, rfl⟩ := hd
  obtain ⟨parent, hs', hn⟩ := h.slot hp hs
  exact ⟨_, hs', hslash, hspecial, congrArg (· ++ [s.name]) hn⟩

/-! ## Operations -/

theorem Amends.wider {ns : List String} {e : Option Entry} (h : t.Amends u ns e)
    (hold : t.entry? ns ≠ some .dir) : t.Wider u := by
  refine ⟨h.start, fun ms hd => ?_⟩
  have hne : ms ≠ ns := fun he => hold (he ▸ hd)
  rw [h.entry, Function.update_of_ne hne]
  exact hd

theorem makeDir_eq_ok {p : Path} (h : t.makeDir p = .ok u) :
    ∃ s, t.slot p = .ok s ∧ t.entry? s.names = none ∧ t.Amends u s.names (some .dir) := by
  unfold makeDir at h
  cases hs : t.slot p with
  | error e => rw [hs] at h; cases h
  | ok s =>
    rw [hs] at h
    dsimp only [bind, Except.bind] at h
    split at h
    next => cases h
    next hnone =>
      cases h
      have hfree : t.entry? s.names = none := by
        rw [Slot.entry? hs]
        cases hc : (t.here s.parent).child? s.name with
        | none => rfl
        | some node => simp [hc] at hnone
      refine ⟨s, rfl, hfree, ?_⟩
      refine amends_put (Slot.entry?_parent hs) ?_ (some (.dir [])) ?_
      · show t.entry? s.names ≠ _
        rw [hfree]
        exact nofun
      · rintro children ⟨⟩
        rfl

/-- A file takes the place of a file, or one where nothing stands. -/
theorem amends_file {p : Path} {s : Slot} (hs : t.slot p = .ok s)
    (hold : t.entry? s.names ≠ some .dir) (bytes : Bytes) :
    t.Amends { t with root := t.root.put (some (.file bytes)) s.names } s.names
      (some (.file bytes)) :=
  amends_put (Slot.entry?_parent hs) hold (some (.file bytes)) nofun

theorem createFile_eq_ok {p : Path} (h : t.createFile p = .ok u) :
    ∃ s, t.slot p = .ok s ∧ t.entry? s.names ≠ some .dir ∧
      t.Amends u s.names (some (.file [])) := by
  unfold createFile at h
  cases hs : t.slot p with
  | error e => rw [hs] at h; cases h
  | ok s =>
    rw [hs] at h
    dsimp only [bind, Except.bind] at h
    split at h
    next => cases h
    next =>
      split at h
      next => cases h
      next hdir =>
        cases h
        have hold := Slot.entry?_ne_dir hs hdir
        exact ⟨s, rfl, hold, amends_file hs hold []⟩

theorem writeFile_eq_ok {p : Path} {bytes : Bytes} (h : t.writeFile p bytes = .ok u) :
    ∃ s, t.slot p = .ok s ∧
      (t.entry? s.names ≠ some .dir → t.Amends u s.names (some (.file bytes))) := by
  unfold writeFile at h
  cases hs : t.slot p with
  | error e => rw [hs] at h; cases h
  | ok s =>
    rw [hs] at h
    cases h
    exact ⟨s, rfl, fun hold => amends_file hs hold bytes⟩

/-- A file is removed; what is no file stays. -/
theorem removeFile_eq_ok {p : Path} (h : t.removeFile p = .ok u) :
    ∃ s bytes, t.slot p = .ok s ∧ t.entry? s.names = some (.file bytes) ∧
      t.Amends u s.names none := by
  unfold removeFile at h
  cases hs : t.slot p with
  | error e => rw [hs] at h; cases h
  | ok s =>
    rw [hs] at h
    dsimp only [bind, Except.bind] at h
    split at h
    next bytes hc =>
      cases h
      have hfile := (Slot.entry?_eq_file hs).mpr hc
      refine ⟨s, bytes, rfl, hfile, ?_⟩
      refine amends_put (Slot.entry?_parent hs) ?_ none nofun
      show t.entry? s.names ≠ _
      rw [hfile]
      exact nofun
    next => cases h
    next => cases h

theorem removeFile_of_entry? {p : Path} {s : Slot} (hs : t.slot p = .ok s) {bytes : Bytes}
    (he : t.entry? s.names = some (.file bytes)) : ∃ u, t.removeFile p = .ok u := by
  unfold removeFile
  rw [hs]
  dsimp only [bind, Except.bind]
  rw [(Slot.entry?_eq_file hs).mp he]
  exact ⟨_, rfl⟩

/-- A file that is moved stands where its target denotes, and not where it stood. -/
theorem rename_eq_ok {source target : Path} (h : t.rename source target = .ok u) :
    ∃ s d bytes, t.slot source = .ok s ∧ t.slot target = .ok d ∧ d.slash = false ∧
      d.isSpecial = false ∧ t.entry? s.names = some (.file bytes) ∧
      t.entry? d.names ≠ some .dir ∧ (d.names ≠ s.names → u.start = t.start ∧
        u.entry? = Function.update (Function.update t.entry? d.names (some (.file bytes)))
          s.names none) := by
  unfold rename at h
  cases hs : t.slot source with
  | error e => rw [hs] at h; cases h
  | ok s =>
    cases hd : t.slot target with
    | error e => rw [hs, hd] at h; cases h
    | ok d =>
      rw [hs, hd] at h
      dsimp only [bind, Except.bind] at h
      split at h
      next => cases h
      next hspecial =>
        split at h
        next => cases h
        next => cases h
        next bytes hc =>
          split at h
          next => cases h
          next hslash =>
            split at h
            next => cases h
            next hdir =>
              cases h
              have hold := Slot.entry?_ne_dir hd hdir
              have hfile := (Slot.entry?_eq_file hs).mpr hc
              have hput := amends_file hd hold bytes
              refine ⟨s, d, bytes, rfl, rfl, by simpa using hslash, by simpa using hspecial, hfile,
                hold, fun hne => ⟨rfl, ?_⟩⟩
              -- The directory of the source is still there.
              have hparent := (hput.wider hold).dir _ (Slot.entry?_parent hs)
              have hsource := congrFun hput.entry s.names
              rw [Function.update_of_ne hne.symm, hfile] at hsource
              rw [← hput.entry]
              exact (amends_put hparent (fun he => nomatch hsource.symm.trans he) none nofun).entry

end FileTree

end Bundler

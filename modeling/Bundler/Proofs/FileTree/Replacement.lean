import Bundler.Proofs.FileTree.Staging

/-!
# Writes are all or nothing

Whatever becomes of the operations of a write, and wherever it stops: before the last move every
file is as it was and at most the staging file is new; behind it the target holds the new bytes. A
write that fails leaves no file behind. The only directories that are made are missing ones above
the target.
-/

namespace Bundler

namespace Replacement

open FileTree

variable {r : Replacement} {t u v : FileTree}

/-! ## The stages -/

/-- The states that a write passes through, whatever becomes of its operations; only a staging file
that is there can always be removed. -/
inductive Reaches (r : Replacement) (t : FileTree) : Stage × FileTree → Prop
  | start : Reaches r t (r.start, t)
  | step {stage : Stage} {u : FileTree} (h : Reaches r t (stage, u)) (fate : Fate)
      (hf : ∀ e, stage = .cleanUp e → fate = .tried) : Reaches r t (r.step fate stage u)

/-- What holds at a stage. -/
def Holds (r : Replacement) (t : FileTree) : Stage × FileTree → Prop
  | (.makeDir p _ below, u) | (.inspect p _ below, u) =>
    r.Grown t u none ∧ ∀ q ∈ p :: below, r.Needs q
  | (.create, u) | (.failed _, u) => r.Grown t u none
  | (.fill, u) => ∃ v s, r.Staged t v u s []
  | (.sync, u) | (.move, u) => ∃ v s, r.Staged t v u s r.bytes
  | (.cleanUp _, u) => r.Grown t u none ∨ ∃ v s content, r.Staged t v u s content
  | (.done, u) => r.Written t u

theorem outcome_eq_ok {α : Type} {fate : Fate} {x : Except OsError α} {a : α}
    (h : fate.outcome x = .ok a) : x = .ok a := by
  cases fate with
  | tried => exact h
  | refused e => cases h
  | stopped n e => cases h

theorem holds_onward {below : List Path} (h : r.Grown t u none) (hb : ∀ q ∈ below, r.Needs q) :
    r.Holds t (.onward below, u) := by
  cases below with
  | nil => exact h
  | cons p below => exact ⟨h, hb⟩

theorem holds_demand {p : Path} {below : List Path} (h : r.Grown t u none)
    (hb : ∀ q ∈ p :: below, r.Needs q) : r.Holds t (.demand p below, u) := by
  unfold Stage.demand
  split
  · exact holds_onward h fun q hq => hb q (List.mem_cons_of_mem _ hq)
  · exact ⟨h, hb⟩

theorem holds_start (r : Replacement) (t : FileTree) : r.Holds t (r.start, t) := by
  unfold start
  split
  next p hp =>
    refine holds_demand (.refl r t) fun q hq => ⟨p, hp, ?_⟩
    rw [List.mem_singleton.mp hq]
    exact Path.mem_ancestry_self p
  next => exact .refl r t

section
variable (ht : t.Starts r.target) (htag : '/' ∉ r.tag.toList) (hf : r.Fresh t)
include ht

theorem holds_makeDir {p : Path} {again : Bool} {below : List Path} (fate : Fate)
    (hg : r.Grown t u none) (hb : ∀ q ∈ p :: below, r.Needs q) :
    r.Holds t (r.step fate (.makeDir p again below) u) := by
  obtain ⟨hp, hbelow⟩ := List.forall_mem_cons.mp hb
  rw [step]
  split
  next u' hm => exact holds_onward (hg.makeDir ht hp (outcome_eq_ok hm)) hbelow
  next =>
    split
    · exact ⟨hg, hb⟩
    · split
      next q hq => exact holds_demand hg (List.forall_mem_cons.mpr ⟨hp.parent hq, hb⟩)
      next => exact hg
  next => exact ⟨hg, hb⟩

theorem holds_fill {s : Slot} (fate : Fate) (hs : r.Staged t v u s []) :
    r.Holds t (r.step fate .fill u) := by
  cases fate with
  | tried =>
    cases hw : u.writeFile r.staging r.bytes with
    | error e => simpa only [step, Fate.outcome, hw] using .inr ⟨v, s, _, hs⟩
    | ok u' => simpa only [step, Fate.outcome, hw] using ⟨v, s, hs.write ht hw⟩
  | refused e => exact .inr ⟨v, s, _, hs⟩
  | stopped n e =>
    -- The bytes that were written before it stopped are in the file.
    rw [step]
    cases hw : u.writeFile r.staging (r.bytes.take n) with
    | error e => exact .inr ⟨v, s, _, hs⟩
    | ok u' => exact .inr ⟨v, s, _, hs.write ht hw⟩

include htag hf

theorem holds_cleanUp {e : OsError} (h : r.Holds t (.cleanUp e, u)) :
    r.Holds t (r.step .tried (.cleanUp e) u) := by
  show r.Grown t ((u.removeFile r.staging).toOption.getD u) none
  rcases h with hg | ⟨v, s, content, hs⟩
  · cases hr : u.removeFile r.staging with
    | error e => exact hg
    | ok u' =>
      obtain ⟨s, bytes, hslot, hfile, -⟩ := removeFile_eq_ok hr
      exact absurd hfile (hg.entry?_staging hf htag hslot bytes)
  · obtain ⟨u', hr, hg⟩ := hs.remove ht
    rw [hr]
    exact hg

/-- What holds at a stage leads to what holds at the next one. -/
theorem holds_step {stage : Stage} {fate : Fate} (hfate : ∀ e, stage = .cleanUp e → fate = .tried)
    (h : r.Holds t (stage, u)) : r.Holds t (r.step fate stage u) := by
  cases stage with
  | makeDir p again below => exact holds_makeDir ht fate h.1 h.2
  | inspect p e below =>
    rw [step]
    split
    next => exact holds_onward h.1 fun q hq => h.2 q (List.mem_cons_of_mem _ hq)
    next => exact h.1
  | create =>
    rw [step]
    split
    next u' hc =>
      obtain ⟨s, hs⟩ := Grown.stage h hf htag (outcome_eq_ok hc)
      exact ⟨u, s, hs⟩
    next => exact .inl h
  | fill =>
    obtain ⟨v, s, hs⟩ := h
    exact holds_fill ht fate hs
  | sync =>
    obtain ⟨v, s, hs⟩ := h
    rw [step]
    split
    next => exact ⟨v, s, hs⟩
    next => exact .inr ⟨v, s, _, hs⟩
  | move =>
    obtain ⟨v, s, hs⟩ := h
    rw [step]
    split
    next u' hm => exact hs.move ht htag (outcome_eq_ok hm)
    next => exact .inr ⟨v, s, _, hs⟩
  | cleanUp e =>
    rw [hfate e rfl]
    exact holds_cleanUp ht htag hf h
  | done => exact h
  | failed e => exact h

theorem Reaches.holds {x : Stage × FileTree} (h : r.Reaches t x) : r.Holds t x := by
  induction h with
  | start => exact r.holds_start t
  | step _ fate hfate ih => exact holds_step ht htag hf hfate ih

end

/-! ## The end of a write -/

/-- Whether a write has come to its end. -/
def Stage.Over : Stage → Prop
  | .done | .failed _ => True
  | _ => False

/-- How many operations are left at most. -/
def Stage.left : Stage → Nat
  | .makeDir p again below =>
    if again then 2 * below.length + 7 else 2 * below.length + 8 + 3 * p.components.length
  | .inspect _ _ below => 2 * below.length + 6
  | .create => 5
  | .fill => 4
  | .sync => 3
  | .move => 2
  | .cleanUp _ => 1
  | .done | .failed _ => 0

theorem left_onward (below : List Path) : (Stage.onward below).left = 2 * below.length + 5 := by
  cases below with
  | nil => rfl
  | cons p below => rfl

theorem left_demand (p : Path) (below : List Path) :
    (Stage.demand p below).left ≤ 2 * below.length + 8 + 3 * p.components.length := by
  unfold Stage.demand
  split
  · rw [left_onward]
    omega
  · exact Nat.le_refl _

theorem left_start (r : Replacement) : r.start.left ≤ r.limit := by
  unfold start limit
  split
  next p hp =>
    have hle := left_demand p []
    have hlt := Path.length_components_parent hp
    simp only [List.length_nil] at hle
    omega
  next => exact Nat.le_add_left _ _

theorem left_step (r : Replacement) (fate : Fate) (stage : Stage) (u : FileTree) :
    (r.step fate stage u).1.left ≤ stage.left - 1 := by
  cases stage with
  | makeDir p again below =>
    have hleft : 2 * below.length + 7 ≤ (Stage.makeDir p again below).left := by
      cases again
      · exact Nat.le_trans (Nat.le_succ _) (Nat.le_add_right _ _)
      · exact Nat.le_refl _
    have hinspect : ∀ e, (Stage.inspect p e below).left = 2 * below.length + 6 := fun _ => rfl
    rw [step]
    split
    next => dsimp only; rw [left_onward]; omega
    next =>
      split
      next => dsimp only; rw [hinspect]; omega
      next hagain =>
        have hfirst : (Stage.makeDir p again below).left =
            2 * below.length + 8 + 3 * p.components.length := if_neg hagain
        split
        next q hq =>
          have hle := left_demand q (p :: below)
          have hlt := Path.length_components_parent hq
          rw [List.length_cons] at hle
          dsimp only
          omega
        next => exact Nat.zero_le _
    next => dsimp only; rw [hinspect]; omega
  | inspect p e below =>
    have hleft : (Stage.inspect p e below).left = 2 * below.length + 6 := rfl
    rw [step]
    split
    next => dsimp only; rw [left_onward]; omega
    next => exact Nat.zero_le _
  | create => rw [step]; split <;> simp [Stage.left]
  | fill =>
    cases fate with
    | tried => cases hw : u.writeFile r.staging r.bytes <;> simp [step, Fate.outcome, hw, Stage.left]
    | refused e => simp [step, Fate.outcome, Stage.left]
    | stopped n e => simp [step, Stage.left]
  | sync => rw [step]; split <;> simp [Stage.left]
  | move => rw [step]; split <;> simp [Stage.left]
  | cleanUp e => exact Nat.zero_le _
  | done => exact Nat.zero_le _
  | failed e => exact Nat.zero_le _

/-- Whatever becomes of its operations, a write comes to its end. -/
theorem over_run (r : Replacement) (fates : List Fate) (s : Stage × FileTree)
    (h : s.1.left ≤ fates.length) : (r.run fates s).1.Over := by
  induction fates generalizing s with
  | nil =>
    obtain ⟨stage, u⟩ := s
    cases stage with
    | makeDir p again below => cases again <;> exact absurd h (by simp [Stage.left])
    | done => trivial
    | failed e => trivial
    | _ => exact absurd h (by simp [Stage.left])
  | cons f fates ih =>
    refine ih _ ?_
    have hstep := r.left_step f s.1 s.2
    rw [List.length_cons] at h
    omega

theorem reaches_run (r : Replacement) {t : FileTree} (n : Nat) {s : Stage × FileTree}
    (h : r.Reaches t s) : r.Reaches t (r.run (List.replicate n .tried) s) := by
  induction n generalizing s with
  | zero => exact h
  | succ n ih => exact ih (h.step .tried fun _ _ => rfl)

/-- What becomes of a write without failures but those of the tree. -/
theorem exists_replace (r : Replacement) (t : FileTree) :
    ∃ stage u, r.Reaches t (stage, u) ∧
      (stage = .done ∧ t.replace r.target r.bytes r.tag = (u, .ok ()) ∨
        ∃ e, stage = .failed e ∧ t.replace r.target r.bytes r.tag = (u, .error e)) := by
  have hreach := r.reaches_run r.limit (.start (t := t))
  have hover : (r.run (List.replicate r.limit .tried) (r.start, t)).1.Over :=
    r.over_run _ _ (by rw [List.length_replicate]; exact r.left_start)
  cases hrun : r.run (List.replicate r.limit .tried) (r.start, t) with
  | mk stage u =>
    rw [hrun] at hreach hover
    refine ⟨stage, u, hreach, ?_⟩
    cases stage with
    | done => exact .inl ⟨rfl, by simp only [FileTree.replace, hrun]⟩
    | failed e => exact .inr ⟨e, rfl, by simp only [FileTree.replace, hrun]⟩
    | _ => exact hover.elim

/-! ## All or nothing -/

/-- Every path that reads a file of `t` reads it in `u`, too. -/
def Reads (t u : FileTree) : Prop :=
  ∀ p bytes, t.Starts p → t.read p = .ok bytes → u.read p = .ok bytes

/-- What is left of `t` when a write is at a stage: before the target is replaced, all files as they
were, with at most the staging file besides; behind it, other content in the target alone. -/
def Keeps (r : Replacement) (t : FileTree) : Stage → FileTree → Prop
  | .done, u => ∃ d, u.Denotes r.target d ∧ t.entry? d ≠ some .dir ∧
      u.read r.target = .ok r.bytes ∧ r.Grown t u (some d) ∧
      ∀ p bytes, t.Starts p → t.read p = .ok bytes → u.Denotes p d ∨ u.read p = .ok bytes
  | .failed _, u => r.Grown t u none ∧ Reads t u
  | _, u => ∃ staged, r.Grown t u staged ∧ Reads t u ∧
      ∀ s ∈ staged, t.entry? s = none ∧ u.Denotes r.staging s ∧ ¬u.Denotes r.target s

theorem Grown.reads {spared : Option (List String)} (h : r.Grown t u spared)
    (hs : ∀ ns ∈ spared, t.entry? ns = none) : Reads t u := by
  intro p bytes hp hr
  rcases h.read (fun ns hn => by rw [hs ns hn]; exact nofun) hp hr with hread | ⟨ns, hn, -, he⟩
  · exact hread
  · rw [hs ns hn] at he
    cases he

theorem Written.keeps (h : r.Written t u) : r.Keeps t .done u := by
  obtain ⟨d, hd, hold, hfile, hg⟩ := h
  refine ⟨d, hd, hold, hd.read hfile, hg, fun p bytes hp hr => ?_⟩
  rcases hg.read (by rintro _ ⟨⟩; exact hold) hp hr with hread | ⟨_, ⟨⟩, hd', -⟩
  · exact .inr hread
  · exact .inl hd'

section
variable (ht : t.Starts r.target) (htag : '/' ∉ r.tag.toList)
include ht htag

theorem Staged.keeps {s : Slot} {content : Bytes} (h : r.Staged t v u s content) :
    ∃ staged, r.Grown t u staged ∧ Reads t u ∧
      ∀ s ∈ staged, t.entry? s = none ∧ u.Denotes r.staging s ∧ ¬u.Denotes r.target s := by
  have hg : r.Grown t u (some s.names) := by
    refine h.grown.amend (h.starts ht).1 h.wider fun ns hn => ?_
    rw [h.amends.entry, Function.update_of_ne fun he => hn (by rw [he]; rfl)]
  have hnone : t.entry? s.names = none := by
    cases he : t.entry? s.names with
    | none => rfl
    | some e => exact nomatch h.free.symm.trans (h.grown.kept nofun he)
  refine ⟨some s.names, hg, hg.reads (by rintro _ ⟨⟩; exact hnone), ?_⟩
  rintro _ ⟨⟩
  refine ⟨hnone, ?_, ?_⟩
  · exact h.wider.denotes (starts_staging (h.starts ht).1) (staging_slot htag h.slot).2
  · rintro ⟨d, hd, hslash, hspecial, he⟩
    exact names_ne_staging htag h.slot hd hslash hspecial he

theorem Holds.keeps {stage : Stage} (h : r.Holds t (stage, u)) : r.Keeps t stage u := by
  have hgrown : r.Grown t u none → ∃ staged, r.Grown t u staged ∧ Reads t u ∧
      ∀ s ∈ staged, t.entry? s = none ∧ u.Denotes r.staging s ∧ ¬u.Denotes r.target s :=
    fun hg => ⟨none, hg, hg.reads nofun, nofun⟩
  cases stage with
  | makeDir p again below => exact hgrown h.1
  | inspect p e below => exact hgrown h.1
  | create => exact hgrown h
  | fill =>
    obtain ⟨v, s, hs⟩ := h
    exact hs.keeps ht htag
  | sync =>
    obtain ⟨v, s, hs⟩ := h
    exact hs.keeps ht htag
  | move =>
    obtain ⟨v, s, hs⟩ := h
    exact hs.keeps ht htag
  | cleanUp e =>
    rcases h with hg | ⟨v, s, content, hs⟩
    · exact hgrown hg
    · exact hs.keeps ht htag
  | done => exact Written.keeps h
  | failed e => exact ⟨h, h.reads nofun⟩

end

/-- A write is all or nothing. At every stage that it can reach, also where it stops, all files are as
they were, except that behind the last move the target holds the new bytes; and it does come to its
end, with the answer that belongs to what it left. -/
theorem all_or_nothing (r : Replacement) {t : FileTree} (ht : t.Starts r.target)
    (htag : '/' ∉ r.tag.toList) (hf : r.Fresh t) :
    (∀ stage u, r.Reaches t (stage, u) → r.Keeps t stage u) ∧
      (∀ fates, r.limit ≤ fates.length → (r.run fates (r.start, t)).1.Over) ∧
      ∃ stage u, r.Reaches t (stage, u) ∧
        (stage = .done ∧ t.replace r.target r.bytes r.tag = (u, .ok ()) ∨
          ∃ e, stage = .failed e ∧ t.replace r.target r.bytes r.tag = (u, .error e)) :=
  ⟨fun _ _ h => (h.holds ht htag hf).keeps ht htag,
    fun fates hn => r.over_run fates _ (Nat.le_trans r.left_start hn), r.exists_replace t⟩

/-- A file in a directory that is missing, beside a file. -/
theorem all_or_nothing_nested :
    let r : Replacement := ⟨⟨"/dist/main.js"⟩, [1], "1-0"⟩
    let t : FileTree := ⟨.dir [("main.js", .file [0])], []⟩
    (∀ stage u, r.Reaches t (stage, u) → r.Keeps t stage u) ∧
      (∀ fates, r.limit ≤ fates.length → (r.run fates (r.start, t)).1.Over) ∧
      ∃ stage u, r.Reaches t (stage, u) ∧
        (stage = .done ∧ t.replace r.target r.bytes r.tag = (u, .ok ()) ∨
          ∃ e, stage = .failed e ∧ t.replace r.target r.bytes r.tag = (u, .error e)) := by
  refine all_or_nothing _ (.inl (by decide)) (by decide) ?_
  intro ns bytes h
  cases ns with
  | nil => cases h
  | cons n rest =>
    have h : ((Table.find n [("main.js", Node.file [0])]).bind (Node.at? rest)).map Node.entry =
      some (.file bytes) := h
    rw [Table.find] at h
    split at h
    next hn =>
      rw [Table.compare_eq_iff.mp hn]
      cases rest with
      | nil => exact fun he => stagingName_ne _ (by decide) (Option.some.inj he).symm
      | cons m rest => cases h
    next => cases h

end Replacement

end Bundler

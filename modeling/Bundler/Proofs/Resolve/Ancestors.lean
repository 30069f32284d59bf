import Mathlib.Data.List.DropRight
import Bundler.Proofs.FileTree.Canonical

/-!
# The directories above a directory

The parent of a path is spelled as the path is, only shorter, and has one component less. So the walk
from a directory to those above it comes to its end after as many steps as there are components.
-/

namespace Bundler

namespace Path

/-! ## A path is its anchor and its segments -/

theorem intercalate_append {l l' : List (List Char)} (h : l ≠ []) (h' : l' ≠ []) :
    List.intercalate ['/'] (l ++ l') = List.intercalate ['/'] l ++ '/' :: List.intercalate ['/'] l' := by
  induction l with
  | nil => exact absurd rfl h
  | cons n l ih =>
    cases l with
    | nil =>
      rw [List.singleton_append, List.intercalate_cons_of_ne_nil h', List.intercalate_singleton,
        List.append_assoc]
      rfl
    | cons n' l =>
      rw [List.cons_append, List.cons_append, List.intercalate_cons_cons, List.intercalate_cons_cons,
        ← List.cons_append, ih (List.cons_ne_nil _ _)]
      simp only [List.append_assoc]

theorem toList_rebuild (a : Anchor) (ss : List String) : (rebuild a ss).text.toList =
    a.text.toList ++ List.intercalate ['/'] (ss.map String.toList) := by
  unfold rebuild
  rw [String.toList_append, String.toList_intercalate]
  rfl

theorem prefix_of_anchor (p : Path) : p.anchor.text.toList <+: p.text.toList := by
  unfold anchor
  split
  next h => rw [h]; exact ⟨_, rfl⟩
  next h => rw [h]; exact ⟨_, rfl⟩
  next h => rw [h]; exact ⟨_, rfl⟩
  next => exact List.nil_prefix

theorem intercalate_splitSlashes (cs : List Char) :
    List.intercalate ['/'] ((splitSlashes cs).map String.toList) = cs := by
  have hid : (String.toList ∘ String.ofList) = id := funext fun _ => String.toList_ofList
  unfold splitSlashes
  rw [List.map_map, hid, List.map_id, Text.pieces_eq_splitOn, List.intercalate_splitOn]

theorem rebuild_segments (p : Path) : rebuild p.anchor p.segments = p := by
  obtain ⟨rest, hrest⟩ := p.prefix_of_anchor
  have hlist : (rebuild p.anchor p.segments).text.toList = p.text.toList := by
    rw [toList_rebuild, ← hrest]
    unfold segments
    rw [intercalate_splitSlashes, ← hrest, ← String.length_toList, List.drop_left]
  exact congrArg Path.mk (String.toList_inj.mp hlist)

/-! ## Fewer segments -/

section
variable {p : Path} {ss : List String}

/-- What is behind the first segments of a path begins with a slash. -/
theorem exists_of_segments (h : ss <+: p.segments) (hne : ss ≠ []) :
    (rebuild p.anchor ss).text.toList = p.text.toList ∨
      ∃ rest, p.text.toList = (rebuild p.anchor ss).text.toList ++ '/' :: rest := by
  obtain ⟨more, hmore⟩ := h
  have hp : p.text.toList = (rebuild p.anchor (ss ++ more)).text.toList := by
    rw [hmore, rebuild_segments]
  rw [hp, toList_rebuild, toList_rebuild, List.map_append]
  by_cases hm : more = []
  · left
    rw [hm, List.map_nil, List.append_nil]
  · right
    rw [intercalate_append (by simpa using hne) (by simpa using hm), ← List.append_assoc]
    exact ⟨_, rfl⟩

/-- A path with fewer segments keeps its anchor. -/
theorem anchor_rebuild (h : ss <+: p.segments) : (rebuild p.anchor ss).anchor = p.anchor := by
  by_cases hne : ss = []
  · rw [hne]
    cases p.anchor <;> decide
  rcases exists_of_segments h hne with he | ⟨rest, he⟩
  · rw [show rebuild p.anchor ss = p from congrArg Path.mk (String.toList_inj.mp he)]
  -- The slash that follows makes no other anchor of the text, unless there is no text.
  have hanchor : ∀ q : Path, p.text.toList = q.text.toList ++ '/' :: rest → q.text.toList ≠ [] →
      q.anchor = p.anchor := by
    intro q hq hq'
    unfold anchor
    rw [hq]
    rcases hcs : q.text.toList with _ | ⟨c, _ | ⟨d, cs⟩⟩
    · exact absurd hcs hq'
    · by_cases hroot : c = '/'
      · rw [hroot]; rfl
      · by_cases hhere : c = '.'
        · rw [hhere]; rfl
        · simp [hroot, hhere]
    · by_cases hroot : c = '/'
      · rw [hroot]; rfl
      · by_cases hhere : c = '.'
        · by_cases hd : d = '/'
          · rw [hhere, hd]; rfl
          · simp [hhere, hd]
        · simp [hroot, hhere]
  refine hanchor _ he fun hnil => ?_
  rw [hnil] at he
  rw [toList_rebuild, anchor_of_toList he] at hnil
  cases hnil

theorem components_rebuild (h : ss <+: p.segments) : (rebuild p.anchor ss).components =
    p.anchor.components ++ (ss.filter (!isVoid ·)).map component := by
  unfold components
  rw [anchor_rebuild h]
  by_cases hne : ss = []
  · rw [hne]
    cases p.anchor <;> rfl
  · unfold segments
    rw [anchor_rebuild h, toList_rebuild, ← String.length_toList, List.drop_left,
      splitSlashes_intercalate (fun s hs => not_mem_of_mem_splitSlashes (h.subset hs)) hne]

/-! ## The parent -/

theorem prefix_of_trimEnd (ss : List String) : trimEnd ss <+: ss := List.rdropWhile_prefix isVoid ss

/-- The parent has fewer components. -/
theorem length_components_parent {q : Path} (h : p.parent? = some q) :
    q.components.length < p.components.length := by
  unfold parent? at h
  split at h
  next x before hb =>
    cases h
    -- The segments are those before the last name, the name, and what counts for nothing.
    have hrev : p.segments.reverse = p.segments.reverse.takeWhile isVoid ++ x :: before := by
      rw [← hb, List.takeWhile_append_dropWhile]
    have hsegments : p.segments =
        before.reverse ++ x :: (p.segments.reverse.takeWhile isVoid).reverse := by
      have hr := congrArg List.reverse hrev
      rwa [List.reverse_reverse, List.reverse_append, List.reverse_cons, List.append_assoc] at hr
    have hx : (!isVoid x) = true := by
      have hhead := List.head_dropWhile_not isVoid (l := p.segments.reverse) (by rw [hb]; simp)
      simpa [hb] using hhead
    have hfirst : trimEnd before.reverse <+: p.segments :=
      (prefix_of_trimEnd _).trans ⟨_, hsegments.symm⟩
    have hshorter : ((trimEnd before.reverse).filter (!isVoid ·)).length ≤
        (before.reverse.filter (!isVoid ·)).length :=
      ((prefix_of_trimEnd _).sublist.filter _).length_le
    rw [components_rebuild hfirst]
    unfold components
    rw [hsegments, List.filter_append, List.filter_cons_of_pos (p := fun s => !isVoid s) hx]
    simp only [List.length_append, List.length_map, List.length_cons]
    omega
  next hb =>
    split at h
    next ha =>
      cases h
      have hlen : (Anchor.here).components.length ≤ p.components.length := by
        rw [components, ha, List.length_append]
        exact Nat.le_add_right _ _
      exact hlen
    next => cases h

end

/-- A directory and those above it. -/
def ancestry (p : Path) : List Path :=
  match _h : p.parent? with
  | some q => p :: ancestry q
  | none => [p]
termination_by p.components.length
decreasing_by exact length_components_parent _h

theorem ancestry_of_parent {p q : Path} (h : p.parent? = some q) : p.ancestry = p :: q.ancestry := by
  rw [ancestry]
  split
  next q' hq => rw [Option.some.inj (hq.symm.trans h)]
  next hn => exact nomatch hn.symm.trans h

theorem ancestry_of_top {p : Path} (h : p.parent? = none) : p.ancestry = [p] := by
  rw [ancestry]
  split
  next q' hq => exact nomatch hq.symm.trans h
  next => rfl

theorem mem_ancestry_self (p : Path) : p ∈ p.ancestry := by
  cases hp : p.parent? with
  | none => exact ancestry_of_top hp ▸ List.mem_cons_self
  | some q => exact ancestry_of_parent hp ▸ List.mem_cons_self

theorem parent_mem_ancestry {p q r : Path} (h : q ∈ p.ancestry) (hr : q.parent? = some r) :
    r ∈ p.ancestry := by
  induction p using ancestry.induct with
  | case1 p p' hp ih =>
    rw [ancestry_of_parent hp] at h ⊢
    rcases List.mem_cons.mp h with rfl | h
    · cases hp.symm.trans hr
      exact List.mem_cons_of_mem _ (mem_ancestry_self _)
    · exact List.mem_cons_of_mem _ (ih h)
  | case2 p hp =>
    rw [ancestry_of_top hp] at h
    rw [List.mem_singleton.mp h, hp] at hr
    cases hr

/-! ## Absolute paths -/

theorem isAbsolute_of_prefix {p q : Path} (h : p.isAbsolute = true)
    (hpq : p.text.toList <+: q.text.toList) : q.isAbsolute = true :=
  List.isPrefixOf_iff_prefix.mpr ((List.isPrefixOf_iff_prefix.mp h).trans hpq)

theorem isAbsolute_append {p : Path} (h : p.isAbsolute = true) (more : String) :
    isAbsolute ⟨p.text ++ more⟩ = true := by
  refine isAbsolute_of_prefix h ?_
  rw [String.toList_append]
  exact List.prefix_append ..

theorem isAbsolute_join {p q : Path} (h : p.isAbsolute = true ∨ q.isAbsolute = true) :
    (p.join q).isAbsolute = true := by
  unfold join
  split
  next hq => exact hq
  next hq =>
    have hp := h.resolve_right hq
    split
    next => exact isAbsolute_append hp _
    next => exact isAbsolute_append (isAbsolute_append hp "/") _

theorem isAbsolute_normalize {p : Path} (h : p.isAbsolute = true) : p.normalize.isAbsolute = true := by
  unfold normalize
  rw [if_pos h]
  exact isAbsolute_ofNames _

theorem isAbsolute_parent {p q : Path} (h : p.parent? = some q) (hp : p.isAbsolute = true) :
    q.isAbsolute = true := by
  unfold parent? at h
  rw [anchor_eq_root.mpr hp] at h
  split at h
  next =>
    cases h
    exact isAbsolute_ofNames _
  next => cases h

theorem isAbsolute_of_mem_ancestry {p q : Path} (hp : p.isAbsolute = true) (h : q ∈ p.ancestry) :
    q.isAbsolute = true := by
  induction p using ancestry.induct with
  | case1 p r hr ih =>
    rw [ancestry_of_parent hr] at h
    rcases List.mem_cons.mp h with rfl | h
    · exact hp
    · exact ih (isAbsolute_parent hr hp) h
  | case2 p hr =>
    rw [ancestry_of_top hr] at h
    exact List.mem_singleton.mp h ▸ hp

end Path

/-- The walk upward reaches the top. -/
theorem Lookup.upward_eq (dir : Path) {n : Nat} (h : dir.components.length < n) :
    upward n dir = dir.ancestry := by
  induction n generalizing dir with
  | zero => exact absurd h (Nat.not_lt_zero _)
  | succ n ih =>
    unfold upward
    split
    next q hq =>
      rw [Path.ancestry_of_parent hq, ih q]
      exact Nat.lt_of_lt_of_le (Path.length_components_parent hq) (Nat.le_of_lt_succ h)
    next hn => exact (Path.ancestry_of_top hn).symm

end Bundler

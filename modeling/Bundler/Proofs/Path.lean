import Mathlib.Data.List.TakeWhile
import Mathlib.Tactic.Common
import Bundler.ModuleId

/-!
# Tidy paths

A path without names that count for nothing or lead back is told apart from others by its
components. The directories of canonical paths are tidy, also where a name has a `?` in it.
-/

namespace Bundler

theorem Text.pieces_eq_splitOn (sep : Char) (cs : List Char) : pieces sep cs = cs.splitOn sep := by
  induction cs with
  | nil => rfl
  | cons c cs ih =>
    rw [pieces, List.splitOn_cons_eq_if_modifyHead, ih]
    by_cases hc : c = sep
    · rw [if_pos hc, if_pos (beq_iff_eq.mpr hc)]
    · rw [if_neg hc, if_neg (mt beq_iff_eq.mp hc)]
      cases h : cs.splitOn sep with
      | nil => exact absurd h (List.splitOn_ne_nil sep cs)
      | cons p ps => rfl

namespace Path

theorem anchor_eq_root {p : Path} : p.anchor = .root ↔ p.isAbsolute = true := by
  unfold anchor isAbsolute Text.startsWith
  rw [show "/".toList = ['/'] from rfl]
  cases h : p.text.toList with
  | nil => simp
  | cons c cs =>
    by_cases hc : c = '/'
    · subst hc; simp
    · simp only [List.isPrefixOf, Bool.and_true, beq_iff_eq]
      constructor
      · intro ha
        split at ha
        · simp_all
        · simp at ha
        · simp at ha
        · simp at ha
      · intro he
        exact absurd he.symm hc

theorem root_mem_components {p : Path} : .root ∈ p.components ↔ p.isAbsolute = true := by
  rw [← anchor_eq_root]
  unfold components
  have hnames : Component.root ∉ (p.segments.filter (!isVoid ·)).map component := by
    intro h
    obtain ⟨s, -, hs⟩ := List.mem_map.mp h
    unfold component at hs
    split at hs <;> cases hs
  rw [List.mem_append, or_iff_left hnames]
  cases p.anchor <;> simp [Anchor.components]

/-- A path without names that count for nothing or lead back. -/
def Tidy (p : Path) : Prop := p.normalize = p

theorem Tidy.eq_of_components {p q : Path} (hp : p.Tidy) (hq : q.Tidy)
    (h : p.components = q.components) : p = q := by
  have ha : p.isAbsolute = q.isAbsolute := by
    rw [Bool.eq_iff_iff, ← root_mem_components, ← root_mem_components, h]
  rw [← hp, ← hq]
  unfold normalize
  rw [h, ha]

/-! ## Paths of names -/

/-- A name that stands for itself. -/
structure Plain (s : String) : Prop where
  slash : '/' ∉ s.toList
  void : isVoid s = false
  up : s ≠ ".."

theorem toList_ofNames (names : List String) :
    (ofNames names).text.toList = '/' :: List.intercalate ['/'] (names.map String.toList) := by
  unfold ofNames
  rw [String.toList_append, String.toList_intercalate]
  rfl

theorem anchor_of_toList {p : Path} {cs : List Char} (h : p.text.toList = '/' :: cs) :
    p.anchor = .root := anchor_eq_root.mpr (by
  unfold isAbsolute Text.startsWith
  rw [h]
  rfl)

theorem isAbsolute_ofNames (names : List String) : (ofNames names).isAbsolute = true :=
  anchor_eq_root.mp (anchor_of_toList (toList_ofNames names))

theorem splitSlashes_intercalate {ss : List String} (h : ∀ s ∈ ss, '/' ∉ s.toList) (hne : ss ≠ []) :
    splitSlashes (List.intercalate ['/'] (ss.map String.toList)) = ss := by
  have hid : (String.ofList ∘ String.toList) = id := funext fun _ => String.ofList_toList
  unfold splitSlashes
  rw [Text.pieces_eq_splitOn, List.splitOn_intercalate '/' (by simpa using h) (by simpa using hne),
    List.map_map, hid, List.map_id]

theorem segments_ofNames {names : List String} (h : ∀ s ∈ names, '/' ∉ s.toList)
    (hne : names ≠ []) : (ofNames names).segments = names := by
  have hp := toList_ofNames names
  unfold segments
  rw [anchor_of_toList hp, hp]
  exact splitSlashes_intercalate h hne

theorem components_ofNames {names : List String} (h : ∀ s ∈ names, Plain s) :
    (ofNames names).components = .root :: names.map .name := by
  unfold components
  rw [anchor_of_toList (toList_ofNames names)]
  cases names with
  | nil => rfl
  | cons s names =>
    rw [segments_ofNames (fun s hs => (h s hs).slash) (List.cons_ne_nil _ _),
      List.filter_eq_self.mpr fun s hs => by rw [(h s hs).void]; rfl]
    refine congrArg (Component.root :: ·) (List.map_congr_left fun s hs => ?_)
    exact if_neg (h s hs).up

theorem foldl_names {f : List String → Component → List String}
    (hf : ∀ names s, f names (.name s) = names ++ [s]) (ns acc : List String) :
    (ns.map Component.name).foldl f acc = acc ++ ns := by
  induction ns generalizing acc with
  | nil => exact (List.append_nil acc).symm
  | cons n ns ih => rw [List.map_cons, List.foldl_cons, hf, ih, List.append_assoc]; rfl

theorem tidy_ofNames {names : List String} (h : ∀ s ∈ names, Plain s) : (ofNames names).Tidy := by
  unfold Tidy normalize
  rw [components_ofNames h, isAbsolute_ofNames, List.foldl_cons, foldl_names fun _ _ => rfl]
  rfl

theorem tidy_empty : Tidy ⟨""⟩ := rfl

end Path

/-! ## The directories of ids -/

theorem Text.splitOnce?_eq_some {sep : Char} {cs : List Char} {p : List Char × List Char}
    (h : Text.splitOnce? sep cs = some p) : cs = p.1 ++ sep :: p.2 ∧ sep ∉ p.1 := by
  induction cs generalizing p with
  | nil => cases h
  | cons c cs ih =>
    rw [Text.splitOnce?] at h
    split at h
    next hc =>
      cases h
      rw [hc]
      exact ⟨rfl, List.not_mem_nil⟩
    next hc =>
      obtain ⟨q, hq, rfl⟩ := Option.map_eq_some_iff.mp h
      obtain ⟨hcs, hmem⟩ := ih hq
      refine ⟨congrArg (c :: ·) hcs, ?_⟩
      rw [List.mem_cons, not_or]
      exact ⟨fun he => hc he.symm, hmem⟩

theorem Text.splitOnce?_eq_none {sep : Char} {cs : List Char} :
    splitOnce? sep cs = none ↔ sep ∉ cs := by
  induction cs with
  | nil => simp [splitOnce?]
  | cons c cs ih =>
    rw [splitOnce?, List.mem_cons, not_or, ← ih]
    by_cases h : c = sep
    · simp [h]
    · rw [if_neg h, Option.map_eq_none_iff]
      exact ⟨fun hn => ⟨fun e => h e.symm, hn⟩, And.right⟩

theorem Text.splitOnce?_fst {sep : Char} {cs : List Char} {p : List Char × List Char}
    (h : splitOnce? sep cs = some p) : p.1 = cs.takeWhile (· ≠ sep) := by
  induction cs generalizing p with
  | nil => cases h
  | cons c cs ih =>
    rw [splitOnce?] at h
    by_cases hc : c = sep
    · rw [if_pos hc] at h
      cases h
      simp [hc]
    · rw [if_neg hc] at h
      obtain ⟨q, hq, rfl⟩ := Option.map_eq_some_iff.mp h
      simp [hc, ih hq]

namespace ModuleId

theorem toList_path (id : ModuleId) :
    id.path.text.toList = id.text.toList.takeWhile (· ≠ '?') := by
  unfold path splitQuery
  cases h : Text.splitOnce? '?' id.text.toList with
  | none =>
    rw [List.takeWhile_eq_self_iff.mpr]
    exact fun c hc => by simpa using fun e : c = '?' => Text.splitOnce?_eq_none.mp h (e ▸ hc)
  | some p =>
    obtain ⟨a, b⟩ := p
    exact String.toList_ofList.trans (Text.splitOnce?_fst h)

theorem toList_path_ofPath (p : Path) (q : Option String) :
    (ofPath p q).path.text.toList = p.text.toList.takeWhile (· ≠ '?') := by
  rw [toList_path]
  cases q with
  | none => rfl
  | some q =>
    have : (ofPath p (some q)).text.toList = p.text.toList ++ '?' :: q.toList := by
      show (p.text ++ "?" ++ q).toList = _
      rw [String.toList_append, String.toList_append, List.append_assoc]
      rfl
    rw [this, List.takeWhile_append]
    split
    next hl =>
      rw [List.takeWhile_cons_of_neg (by simp), List.append_nil]
      exact (List.takeWhile_prefix _).eq_of_length hl |>.symm
    next => rfl

end ModuleId

/-- Cutting joined names leaves some of them and a piece of the next one. -/
theorem takeWhile_intercalate {ns : List (List Char)} (h : ∀ n ∈ ns, '/' ∉ n) :
    ∃ k last, '/' ∉ last ∧ (List.intercalate ['/'] ns).takeWhile (· ≠ '?') =
      List.intercalate ['/'] (ns.take k ++ [last]) := by
  induction ns with
  | nil => exact ⟨0, [], List.not_mem_nil, rfl⟩
  | cons n ns ih =>
    have hn := h n List.mem_cons_self
    have hlast : '/' ∉ n.takeWhile (· ≠ '?') := fun hm => hn ((List.takeWhile_prefix _).subset hm)
    have hfirst : List.intercalate ['/'] (List.take 0 (n :: ns) ++ [n.takeWhile (· ≠ '?')]) =
        n.takeWhile (· ≠ '?') := List.intercalate_singleton
    cases ns with
    | nil => exact ⟨0, _, hlast, by rw [List.intercalate_singleton]; exact hfirst.symm⟩
    | cons n' ns =>
      obtain ⟨k, last, hl, he⟩ := ih fun m hm => h m (List.mem_cons_of_mem _ hm)
      rw [List.intercalate_cons_cons, List.append_assoc, List.takeWhile_append]
      by_cases hq : (n.takeWhile (· ≠ '?')).length = n.length
      · refine ⟨k + 1, last, hl, ?_⟩
        have hslash : ∀ l : List Char, (['/'] ++ l).takeWhile (· ≠ '?') =
            ['/'] ++ l.takeWhile (· ≠ '?') := fun l => List.takeWhile_cons_of_pos (by decide)
        have hne : List.take k (n' :: ns) ++ [last] ≠ [] :=
          List.append_ne_nil_of_right_ne_nil _ (List.cons_ne_nil _ _)
        rw [if_pos hq, hslash, he]
        exact (List.append_assoc ..).symm.trans (List.intercalate_cons_of_ne_nil hne).symm
      · exact ⟨0, _, hlast, (if_neg hq).trans hfirst.symm⟩

namespace Path

theorem dropWhile_isVoid {names : List String} (h : ∀ s ∈ names, Plain s) :
    names.reverse.dropWhile isVoid = names.reverse := by
  cases hn : names.reverse with
  | nil => rfl
  | cons s rest =>
    have hs : s ∈ names := List.mem_reverse.mp (hn ▸ List.mem_cons_self)
    exact List.dropWhile_cons_of_neg (by rw [(h s hs).void]; decide)

theorem trimEnd_eq {names : List String} (h : ∀ s ∈ names, Plain s) : trimEnd names = names := by
  unfold trimEnd
  rw [dropWhile_isVoid h, List.reverse_reverse]

theorem rebuild_root (names : List String) : rebuild .root names = ofNames names := rfl

theorem segments_concat {names : List String} {last : String} (h : ∀ s ∈ names, Plain s)
    (hl : '/' ∉ last.toList) : (ofNames (names ++ [last])).segments = names ++ [last] := by
  refine segments_ofNames (fun s hs => ?_) (by simp)
  rcases List.mem_append.mp hs with hs | hs
  · exact (h s hs).slash
  · exact List.mem_singleton.mp hs ▸ hl

theorem parent?_concat {names : List String} {last : String} (h : ∀ s ∈ names, Plain s)
    (hl : '/' ∉ last.toList) (hv : isVoid last = false) :
    (ofNames (names ++ [last])).parent? = some (ofNames names) := by
  unfold parent?
  rw [segments_concat h hl, anchor_of_toList (toList_ofNames _), List.reverse_append,
    List.reverse_singleton, List.singleton_append, List.dropWhile_cons_of_neg (by rw [hv]; decide)]
  dsimp only
  rw [rebuild_root, List.reverse_reverse, trimEnd_eq h]

theorem parent?_ofNames {names : List String} {last : String} (h : ∀ s ∈ names, Plain s)
    (hl : '/' ∉ last.toList) : ∃ k, (ofNames (names ++ [last])).parent?.getD ⟨""⟩ = ⟨""⟩ ∨
      (ofNames (names ++ [last])).parent?.getD ⟨""⟩ = ofNames (names.take k) := by
  by_cases hv : isVoid last = true
  · unfold parent?
    rw [segments_concat h hl, anchor_of_toList (toList_ofNames _), List.reverse_append,
      List.reverse_singleton, List.singleton_append, List.dropWhile_cons_of_pos hv,
      dropWhile_isVoid h]
    cases hn : names.reverse with
    | nil => exact ⟨0, .inl rfl⟩
    | cons s rest =>
      have hnames : names = rest.reverse ++ [s] := by
        rw [← List.reverse_reverse names, hn, List.reverse_cons]
      have hrest : ∀ x ∈ rest.reverse, Plain x := fun x hx => h x (hnames ▸ List.mem_append_left _ hx)
      refine ⟨rest.length, .inr ?_⟩
      dsimp only [Option.getD_some]
      rw [rebuild_root, trimEnd_eq hrest, hnames, ← List.length_reverse, List.take_left]
  · refine ⟨names.length, .inr ?_⟩
    rw [parent?_concat h hl (eq_false_of_ne_true hv), List.take_length]
    rfl

/-- The path of an id of a canonical path ends within one of its names. -/
theorem exists_path_ofPath {names : List String} (h : ∀ s ∈ names, Plain s) (q : Option String) :
    ∃ k last, '/' ∉ String.toList last ∧
      (ModuleId.ofPath (ofNames names) q).path = ofNames (names.take k ++ [last]) := by
  have hslash : ∀ n ∈ names.map String.toList, '/' ∉ n := by
    intro n hn
    obtain ⟨s, hs, rfl⟩ := List.mem_map.mp hn
    exact (h s hs).slash
  obtain ⟨k, last, hl, he⟩ := takeWhile_intercalate hslash
  refine ⟨k, String.ofList last, by rwa [String.toList_ofList], ?_⟩
  have hlist := ModuleId.toList_path_ofPath (ofNames names) q
  rw [toList_ofNames, List.takeWhile_cons_of_pos (by decide), he] at hlist
  have htext := hlist.trans (show _ = (ofNames (names.take k ++ [String.ofList last])).text.toList by
    rw [toList_ofNames, List.map_append, List.map_take]
    simp)
  exact congrArg Path.mk (String.toList_inj.mp htext)

theorem tidy_dir_ofPath {names : List String} (h : ∀ s ∈ names, Plain s) (q : Option String) :
    (ModuleId.ofPath (ofNames names) q).dir.Tidy := by
  obtain ⟨k, last, hlast, hpath⟩ := exists_path_ofPath h q
  have hk : ∀ s ∈ names.take k, Plain s := fun s hs => h s (List.mem_of_mem_take hs)
  unfold ModuleId.dir
  rw [hpath]
  obtain ⟨j, hj | hj⟩ := parent?_ofNames hk hlast
  · rw [hj]
    exact tidy_empty
  · rw [hj]
    exact tidy_ofNames fun s hs => hk s (List.mem_of_mem_take hs)

end Path

end Bundler

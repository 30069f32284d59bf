import Bundler.Proofs.FileTree.Canonical
import Bundler.Render.Minify

/-!
# Rows of a text

The rows of a text stand between its line feeds, as they are. A text of whole rows ends with a line
feed, so that rows are put together by putting texts together. The minifier keeps some rows, in
their order: which one a row of its answer was is told by the rows before it that were dropped.
-/

namespace Bundler.Text

/-- What stands between the line feeds, without an empty rest behind the last one. -/
def rows (s : List Char) : List (List Char) :=
  let ps := s.splitOn '\n'
  if ps.getLast? = some [] then ps.dropLast else ps

def unrows (ls : List (List Char)) : List Char := ls.flatMap (· ++ ['\n'])

/-- A text is made of whole rows. -/
def Whole (s : List Char) : Prop := unrows (rows s) = s

theorem unrows_append (ls ls' : List (List Char)) : unrows (ls ++ ls') = unrows ls ++ unrows ls' :=
  List.flatMap_append

theorem unrows_of_ne_nil {ls : List (List Char)} (h : ls ≠ []) :
    unrows ls = ['\n'].intercalate ls ++ ['\n'] := by
  induction ls with
  | nil => exact absurd rfl h
  | cons l ls ih =>
    cases ls with
    | nil => simp [unrows]
    | cons l' ls =>
      show (l ++ ['\n']) ++ unrows (l' :: ls) = _
      rw [ih (List.cons_ne_nil _ _), List.intercalate_cons_cons]
      simp

theorem unrows_splitOn (s : List Char) : unrows (s.splitOn '\n') = s ++ ['\n'] := by
  rw [unrows_of_ne_nil (List.splitOn_ne_nil '\n' s), List.intercalate_splitOn]

theorem splitOn_of_not_mem {sep : Char} {cs : List Char} (h : sep ∉ cs) :
    cs.splitOn sep = [cs] := by
  have heq : ([sep].intercalate [cs]).splitOn sep = [cs] :=
    List.splitOn_intercalate sep (by simpa using h) (List.cons_ne_nil _ _)
  rwa [List.intercalate_singleton] at heq

theorem not_mem_of_mem_rows {s l : List Char} (h : l ∈ rows s) : '\n' ∉ l := by
  unfold rows at h
  rw [← pieces_eq_splitOn] at h
  dsimp only at h
  split at h
  · exact not_mem_of_mem_pieces (List.dropLast_subset _ h)
  · exact not_mem_of_mem_pieces h

theorem rows_append (a b : List Char) : rows (a ++ '\n' :: b) = a.splitOn '\n' ++ rows b := by
  have hne := List.splitOn_ne_nil '\n' b
  have hlast : (a.splitOn '\n' ++ b.splitOn '\n').getLast? = (b.splitOn '\n').getLast? := by
    rw [List.getLast?_append, List.getLast?_eq_some_getLast hne, Option.some_or]
  unfold rows
  dsimp only
  rw [List.splitOn_append_cons_self, hlast]
  split
  · exact List.dropLast_append_of_ne_nil hne
  · rfl

/-- Rows that are put together are the rows of their text. -/
theorem rows_unrows {ls : List (List Char)} (h : ∀ l ∈ ls, '\n' ∉ l) : rows (unrows ls) = ls := by
  induction ls with
  | nil => rfl
  | cons l ls ih =>
    have htext : unrows (l :: ls) = l ++ '\n' :: unrows ls := List.append_assoc l ['\n'] _
    rw [htext, rows_append, splitOn_of_not_mem (h l List.mem_cons_self),
      ih fun l hl => h l (List.mem_cons_of_mem _ hl)]
    rfl

theorem whole_nil : Whole [] := rfl

theorem whole_unrows {ls : List (List Char)} (h : ∀ l ∈ ls, '\n' ∉ l) : Whole (unrows ls) := by
  unfold Whole
  rw [rows_unrows h]

theorem whole_concat (s : List Char) : Whole (s ++ ['\n']) := by
  unfold Whole
  rw [rows_append s [], show rows [] = [] from rfl, List.append_nil, unrows_splitOn]

theorem whole_of_suffix {s : List Char} (h : ['\n'] <:+ s) : Whole s := by
  obtain ⟨t, rfl⟩ := h
  exact whole_concat t

theorem Whole.append {s t : List Char} (hs : Whole s) (ht : Whole t) : Whole (s ++ t) := by
  have hclean : ∀ l ∈ rows s ++ rows t, '\n' ∉ l := fun l hl =>
    (List.mem_append.mp hl).elim not_mem_of_mem_rows not_mem_of_mem_rows
  have := whole_unrows hclean
  rwa [unrows_append, hs, ht] at this

theorem count_unrows {ls : List (List Char)} (h : ∀ l ∈ ls, '\n' ∉ l) :
    (unrows ls).count '\n' = ls.length := by
  induction ls with
  | nil => rfl
  | cons l ls ih =>
    have htext : unrows (l :: ls) = l ++ ['\n'] ++ unrows ls := rfl
    rw [htext, List.count_append, List.count_append, List.count_eq_zero.mpr (h l (.head _)),
      ih fun l hl => h l (.tail _ hl), List.count_singleton_self, List.length_cons, Nat.zero_add,
      Nat.add_comm]

theorem Whole.count {s : List Char} (h : Whole s) : s.count '\n' = (rows s).length :=
  (congrArg (List.count '\n') h).symm.trans (count_unrows fun _ => not_mem_of_mem_rows)

/-- A rest without a line feed is a row, with or without one behind it. -/
theorem rows_concat {s : List Char} (hne : s ≠ []) (h : ¬ ['\n'] <:+ s) :
    rows (s ++ ['\n']) = rows s := by
  rw [rows_append s [], show rows [] = [] from rfl, List.append_nil]
  unfold rows
  dsimp only
  rw [if_neg]
  intro hlast
  obtain ⟨before, hps⟩ := List.getLast?_eq_some_iff.mp hlast
  have hs : s = unrows before := by
    have hjoin := unrows_splitOn s
    rw [hps, unrows_append] at hjoin
    exact (List.append_cancel_right hjoin).symm
  rcases List.eq_nil_or_concat before with rfl | ⟨init, l, rfl⟩
  · exact hne hs
  · rw [List.concat_eq_append, unrows_append] at hs
    exact h ⟨unrows init ++ l, by rw [hs]; simp [unrows]⟩

/-! ## Rows as lines -/

/-- Lines are rows, of which those that end with a line feed lose a carriage return. -/
theorem lines_eq_rows (s : List Char) :
    ∃ ended rest, rows s = ended ++ rest ∧ lines s = ended.map dropReturn ++ rest := by
  unfold lines rows
  dsimp only
  rw [pieces_eq_splitOn]
  split
  next => exact ⟨_, [], (List.append_nil _).symm, rfl⟩
  next =>
    have hlast := List.getLast?_eq_some_getLast (List.splitOn_ne_nil '\n' s)
    refine ⟨_, _, ?_, rfl⟩
    rw [hlast]
    exact (List.dropLast_concat_getLast (List.splitOn_ne_nil '\n' s)).symm

theorem length_lines (s : List Char) : (lines s).length = (rows s).length := by
  obtain ⟨ended, rest, hr, hl⟩ := lines_eq_rows s
  rw [hr, hl, List.length_append, List.length_append, List.length_map]

/-- A carriage return at the end of a line is a blank. -/
theorem trim_dropReturn (l : List Char) : trim (dropReturn l) = trim l := by
  unfold dropReturn
  split
  next h =>
    obtain ⟨init, rfl⟩ := List.getLast?_eq_some_iff.mp h
    have hblank : isBlank '\r' = true := by decide
    rw [List.dropLast_concat]
    unfold trim
    rw [List.dropWhile_append]
    split
    next he => rw [List.isEmpty_iff.mp he, List.dropWhile_cons_of_pos hblank]; rfl
    next => rw [List.reverse_concat, List.dropWhile_cons_of_pos hblank]
  next => rfl

theorem map_trim_lines (s : List Char) : (lines s).map trim = (rows s).map trim := by
  obtain ⟨ended, rest, hr, hl⟩ := lines_eq_rows s
  rw [hr, hl, List.map_append, List.map_append, List.map_map]
  exact congrArg (· ++ _) (List.map_congr_left fun l _ => trim_dropReturn l)

theorem not_mem_trim {c : Char} {l : List Char} (h : c ∉ l) : c ∉ trim l := by
  unfold trim
  intro hc
  have hc := List.mem_reverse.mp ((List.dropWhile_sublist _).subset (List.mem_reverse.mp hc))
  exact h ((List.dropWhile_sublist _).subset hc)

end Bundler.Text

namespace Bundler

/-! ## Rows that the minifier keeps -/

/-- An element of a filtered list stands before as many elements more as were dropped before it. -/
theorem getElem?_filter {α : Type} {p : α → Bool} {l : List α} {k : Nat} {a : α}
    (h : (l.filter p)[k]? = some a) :
    ∃ n, l[n]? = some a ∧ n = k + (l.take n).countP (!p ·) := by
  induction l generalizing k with
  | nil => cases h
  | cons b l ih =>
    by_cases hb : p b = true
    · rw [List.filter_cons_of_pos hb] at h
      cases k with
      | zero => exact ⟨0, h, rfl⟩
      | succ k =>
        obtain ⟨n, hn, he⟩ := ih h
        refine ⟨n + 1, hn, ?_⟩
        rw [List.take_succ_cons, List.countP_cons_of_neg (by simp [hb])]
        omega
    · rw [List.filter_cons_of_neg hb] at h
      obtain ⟨n, hn, he⟩ := ih h
      refine ⟨n + 1, hn, ?_⟩
      rw [List.take_succ_cons, List.countP_cons_of_pos (by simp [hb])]
      omega

/-- A row that the minifier drops. -/
def isIdleRow (row : List Char) : Bool := isIdleLine (Text.trim row)

theorem minifyLines_eq (s : List Char) :
    minifyLines s = ((Text.rows s).filter (!isIdleRow ·)).map Text.trim := by
  unfold minifyLines
  rw [Text.map_trim_lines, List.filter_map]
  rfl

theorem not_mem_of_mem_minifyLines {s l : List Char} (h : l ∈ minifyLines s) : '\n' ∉ l := by
  rw [minifyLines_eq] at h
  obtain ⟨row, hrow, rfl⟩ := List.mem_map.mp h
  exact Text.not_mem_trim (Text.not_mem_of_mem_rows (List.mem_filter.mp hrow).1)

theorem toList_minifyBlanks (s : String) :
    (minifyBlanks s).toList = Text.unrows (minifyLines s.toList) := String.toList_ofList

theorem whole_minifyBlanks (s : String) : Text.Whole (minifyBlanks s).toList := by
  rw [toList_minifyBlanks]
  exact Text.whole_unrows fun _ => not_mem_of_mem_minifyLines

/-- A row of what the minifier gives is a row of the text, trimmed, and stands before as many rows
more as were dropped before it. -/
theorem getElem?_rows_minifyBlanks {s : String} {k : Nat} {row : List Char}
    (h : (Text.rows (minifyBlanks s).toList)[k]? = some row) :
    ∃ n before, (Text.rows s.toList)[n]? = some before ∧ row = Text.trim before ∧
      n = k + ((Text.rows s.toList).take n).countP isIdleRow := by
  rw [toList_minifyBlanks, Text.rows_unrows fun _ => not_mem_of_mem_minifyLines, minifyLines_eq,
    List.getElem?_map] at h
  obtain ⟨before, hk, rfl⟩ := Option.map_eq_some_iff.mp h
  obtain ⟨n, hn, he⟩ := getElem?_filter hk
  refine ⟨n, before, hn, rfl, ?_⟩
  simpa using he

end Bundler

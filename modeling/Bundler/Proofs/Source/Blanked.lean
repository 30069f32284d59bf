import Bundler.Source.Stylesheet
import Mathlib.Data.List.Infix

/-!
# Blanked comments

The comments of a stylesheet are read from left to right and do not nest. If each of them is closed,
blanking them out moves nothing: there are as many characters as before, the line breaks are where
they were, and so is everything that stands outside comments. No comment is left or made, so that
blanking again changes nothing. If one is not closed, its line is told.
-/

namespace Bundler.Source

/-! ## Pairs of characters -/

section
variable {x y : Char} {s t u : List Char}

theorem infix_of_cons {a : Char} (h : ¬ [x, y] <:+: a :: t) : ¬ [x, y] <:+: t :=
  fun hi => h (hi.trans (List.suffix_cons ..).isInfix)

/-- A text with a pair in it can be cut at the first one. -/
theorem exists_first_pair (h : [x, y] <:+: s) :
    ∃ t u, s = t ++ x :: y :: u ∧ ¬ [x, y] <:+: t := by
  induction s with
  | nil => exact absurd (List.infix_nil.mp h) (List.cons_ne_nil _ _)
  | cons a s ih =>
    by_cases hp : [x, y] <+: a :: s
    · obtain ⟨u, hu⟩ := hp
      exact ⟨[], u, hu.symm, fun hi => absurd (List.infix_nil.mp hi) (List.cons_ne_nil _ _)⟩
    · obtain ⟨t, u, rfl, ht⟩ := ih ((List.infix_cons_iff.mp h).resolve_left hp)
      refine ⟨a :: t, u, rfl, fun hi => ?_⟩
      rcases List.infix_cons_iff.mp hi with hpre | hi
      · exact hp (hpre.trans (List.prefix_append (a :: t) (x :: y :: u)))
      · exact ht hi

/-- No pair arises where two texts are joined, unless the first ends and the second begins with a
half of it. -/
theorem not_pair_append (ht : ¬ [x, y] <:+: t) (hu : ¬ [x, y] <:+: u)
    (h : t.getLast? ≠ some x ∨ u.head? ≠ some y) : ¬ [x, y] <:+: t ++ u := by
  intro hi
  rcases List.infix_append_iff.mp hi with hi | hi | ⟨l, m, hlm, hl, hm⟩
  · exact ht hi
  · exact hu hi
  · rcases l with _ | ⟨a, _ | ⟨b, l⟩⟩
    · exact hu (hlm ▸ hm.isInfix)
    · obtain ⟨rfl, rfl⟩ : a = x ∧ m = [y] := by simpa [eq_comm] using hlm
      obtain ⟨t', rfl⟩ := hl
      obtain ⟨u', rfl⟩ := hm
      simp at h
    · obtain ⟨rfl, rfl, rfl, -⟩ : a = x ∧ b = y ∧ l = [] ∧ m = [] := by
        simpa [eq_comm] using hlm
      exact ht hl.isInfix

theorem not_pair_of_not_mem (h : x ∉ t) : ¬ [x, y] <:+: t :=
  fun hi => h (hi.subset (List.mem_cons_self ..))

end

/-! ## Comments -/

/-- Which characters of a text stand in comments, the signs that open and close them included. Every
comment is closed. -/
inductive Comments : List Char → List Bool → Prop
  | plain {t : List Char} : ¬ ['/', '*'] <:+: t → Comments t (List.replicate t.length false)
  | comment {t b rest : List Char} {marks : List Bool} : ¬ ['/', '*'] <:+: t →
      ¬ ['*', '/'] <:+: b → Comments rest marks →
      Comments (t ++ '/' :: '*' :: (b ++ '*' :: '/' :: rest))
        (List.replicate t.length false ++ (List.replicate (b.length + 4) true ++ marks))

/-- Every comment of a text is closed. -/
def Closed (s : List Char) : Prop := ∃ marks, Comments s marks

/-- Behind `before` a comment begins that is not closed. -/
structure OpenBehind (before s : List Char) : Prop where
  closed : Closed before
  opened : ∃ rest, s = before ++ '/' :: '*' :: rest ∧ ¬ ['*', '/'] <:+: rest

/-- A comment of a text is the first that is not closed, or all are closed. -/
theorem closed_or_open (s : List Char) : Closed s ∨ ∃ before, OpenBehind before s := by
  induction hn : s.length using Nat.strongRecOn generalizing s with
  | ind n ih =>
    by_cases hopen : ['/', '*'] <:+: s
    · obtain ⟨t, u, rfl, ht⟩ := exists_first_pair hopen
      by_cases hclose : ['*', '/'] <:+: u
      · obtain ⟨b, rest, rfl, hb⟩ := exists_first_pair hclose
        have hlt : rest.length < n := by
          simp only [← hn, List.length_append, List.length_cons]
          omega
        rcases ih _ hlt rest rfl with ⟨marks, hrest⟩ | ⟨before, ⟨marks, hbefore⟩, r, rfl, hr⟩
        · exact .inl ⟨_, .comment ht hb hrest⟩
        · refine .inr ⟨_, ⟨_, .comment ht hb hbefore⟩, r, ?_, hr⟩
          simp
      · exact .inr ⟨t, ⟨_, .plain ht⟩, u, rfl, hclose⟩
    · exact .inl ⟨_, .plain hopen⟩

/-! ## Blanking -/

/-- What becomes of a character. -/
def blankAt (c : Char) (inside : Bool) : Char := if inside && c ≠ '\n' then ' ' else c

theorem blankAt_eq_newline (c : Char) (inside : Bool) : blankAt c inside = '\n' ↔ c = '\n' := by
  unfold blankAt
  split
  case isTrue h => simp_all
  case isFalse => exact Iff.rfl

theorem zipWith_blankAt_false (t : List Char) :
    List.zipWith blankAt t (List.replicate t.length false) = t := by
  induction t with
  | nil => rfl
  | cons a t ih => simpa [List.replicate_succ, blankAt] using ih

theorem Comments.length_eq {s : List Char} {marks : List Bool} (h : Comments s marks) :
    marks.length = s.length := by
  induction h with
  | plain => exact List.length_replicate
  | comment _ _ _ ih =>
    simp only [List.length_append, List.length_replicate, List.length_cons, ih]
    omega

/-- A comment with its signs, blanked out. -/
def blankComment (b : List Char) : List Char :=
  ' ' :: ' ' :: (b.map (blankAt · true) ++ [' ', ' '])

theorem zipWith_comment (t b rest : List Char) (marks : List Bool) :
    List.zipWith blankAt (t ++ '/' :: '*' :: (b ++ '*' :: '/' :: rest))
        (List.replicate t.length false ++ (List.replicate (b.length + 4) true ++ marks)) =
      t ++ (blankComment b ++ List.zipWith blankAt rest marks) := by
  have hb : List.zipWith blankAt b (List.replicate b.length true) = b.map (blankAt · true) := by
    induction b with
    | nil => rfl
    | cons a b ih => simp [List.replicate_succ, ih]
  have hsplit : List.replicate (b.length + 4) true ++ marks =
      true :: true :: (List.replicate b.length true ++ true :: true :: marks) := by
    rw [show b.length + 4 = 1 + (1 + (b.length + (1 + 1))) by omega]
    simp [List.replicate_add]
  rw [List.zipWith_append List.length_replicate.symm, zipWith_blankAt_false, hsplit]
  simp only [List.zipWith_cons_cons, List.zipWith_append List.length_replicate.symm, hb]
  simp [blankComment, blankAt]

theorem map_comp {f g : List Char → List Char} (r : Except ScanError (List Char)) :
    (r.map f).map g = r.map fun x => g (f x) := by
  cases r <;> rfl

section
variable (line : Nat) (t b rest : List Char)

/-- Text outside comments stays as it is. -/
theorem blankComments_plain (ht : ¬ ['/', '*'] <:+: t) (hrest : rest.head? ≠ some '*') :
    blankComments none line (t ++ rest) =
      (blankComments none (line + Text.countBreaks t) rest).map (t ++ ·) := by
  induction t generalizing line with
  | nil => cases h : blankComments none line rest <;> simp [Text.countBreaks, h, Except.map]
  | cons a t ih =>
    have hopens (r : List Char) (ha : a = '/') (hr : t ++ rest = '*' :: r) : False := by
      cases t with
      | nil => exact hrest (by rw [show rest = _ from hr]; rfl)
      | cons c t =>
        obtain ⟨rfl, -⟩ := List.cons.inj hr
        exact ht ⟨[], t, by rw [ha]; rfl⟩
    rw [List.cons_append, blankComments.eq_5 none _ _ _ (fun r _ => hopens r)
      (fun _ _ h => nomatch h),
      ih _ (infix_of_cons ht), map_comp]
    by_cases ha : a = '\n'
    · simp [ha, Text.countBreaks, Nat.add_assoc, Nat.add_comm 1]
    · simp [ha, Text.countBreaks]

/-- The inside of a comment is blanked out, up to its end. -/
theorem blankComments_inside (opened : Nat) (hb : ¬ ['*', '/'] <:+: b) :
    blankComments (some opened) line (b ++ '*' :: '/' :: rest) =
      (blankComments none (line + Text.countBreaks b) rest).map
        (b.map (blankAt · true) ++ ' ' :: ' ' :: ·) := by
  induction b generalizing line with
  | nil => simp [blankComments, Text.countBreaks]
  | cons a b ih =>
    have hcloses (r : List Char) (ha : a = '*') (hr : b ++ '*' :: '/' :: rest = '/' :: r) :
        False := by
      cases b with
      | nil => exact absurd (List.cons.inj hr).1 (by decide)
      | cons c b =>
        obtain ⟨rfl, -⟩ := List.cons.inj hr
        exact hb ⟨[], b, by rw [ha]; rfl⟩
    rw [List.cons_append, blankComments.eq_5 (some opened) _ _ _ (fun _ h => nomatch h)
      (fun _ r _ => hcloses r),
      ih _ (infix_of_cons hb), map_comp]
    by_cases ha : a = '\n'
    · simp [ha, Text.countBreaks, blankAt, Nat.add_assoc, Nat.add_comm 1]
    · simp [ha, Text.countBreaks, blankAt]

/-- A comment that is not closed is told with the line on which it was opened. -/
theorem blankComments_open (opened : Nat) (hb : ¬ ['*', '/'] <:+: b) :
    blankComments (some opened) line b = .error ⟨.unclosedComment, opened, 1⟩ := by
  induction b generalizing line with
  | nil => rfl
  | cons a b ih =>
    have hcloses (r : List Char) (ha : a = '*') (hr : b = '/' :: r) : False :=
      hb ⟨[], r, by rw [ha, hr]; rfl⟩
    rw [blankComments.eq_5 (some opened) _ _ _ (fun _ h => nomatch h)
      (fun _ r _ => hcloses r),
      ih _ (infix_of_cons hb)]
    rfl

/-- A closed comment and the text before it. -/
theorem blankComments_comment (ht : ¬ ['/', '*'] <:+: t) (hb : ¬ ['*', '/'] <:+: b) :
    blankComments none line (t ++ '/' :: '*' :: (b ++ '*' :: '/' :: rest)) =
      (blankComments none (line + Text.countBreaks t + Text.countBreaks b) rest).map
        fun x => t ++ (blankComment b ++ x) := by
  rw [blankComments_plain line t _ ht (by simp), blankComments.eq_3,
    blankComments_inside _ b rest _ hb, map_comp, map_comp]
  simp [blankComment]

end

theorem Comments.blankComments_eq {s : List Char} {marks : List Bool} (h : Comments s marks)
    (line : Nat) : blankComments none line s = .ok (List.zipWith blankAt s marks) := by
  induction h generalizing line with
  | @plain t ht =>
    have hplain := blankComments_plain line t [] ht (by simp)
    rw [List.append_nil] at hplain
    rw [hplain, zipWith_blankAt_false]
    simp [blankComments, Except.map]
  | @comment t b rest marks ht hb _ ih =>
    rw [blankComments_comment line t b rest ht hb, ih, zipWith_comment]
    rfl

theorem OpenBehind.blankComments_eq {before s : List Char} (h : OpenBehind before s) (line : Nat) :
    blankComments none line s =
      .error ⟨.unclosedComment, line + Text.countBreaks before, 1⟩ := by
  obtain ⟨⟨marks, hbefore⟩, rest, rfl, hrest⟩ := h
  induction hbefore generalizing line with
  | @plain t ht =>
    rw [blankComments_plain line t _ ht (by simp), blankComments.eq_3,
      blankComments_open _ _ _ hrest]
    rfl
  | @comment t b before marks ht hb _ ih =>
    have hassoc : t ++ '/' :: '*' :: (b ++ '*' :: '/' :: before) ++ '/' :: '*' :: rest =
        t ++ '/' :: '*' :: (b ++ '*' :: '/' :: (before ++ '/' :: '*' :: rest)) := by simp
    rw [hassoc, blankComments_comment line t b _ ht hb, ih]
    simp [Except.map, Text.countBreaks, Nat.add_assoc]

/-! ## Nothing is moved -/

/-- `out` is `s` with its comments, marked by `marks`, blanked out. -/
structure Blanks (s : List Char) (marks : List Bool) (out : List Char) : Prop where
  length : out.length = s.length
  breaks : ∀ i : Nat, out[i]? = some '\n' ↔ s[i]? = some '\n'
  outside : ∀ i : Nat, marks[i]? = some false → out[i]? = s[i]?
  inside : ∀ i : Nat, marks[i]? = some true → s[i]? ≠ some '\n' → out[i]? = some ' '
  clear : ¬ ['/', '*'] <:+: out

/-- What stands for a comment has neither slashes nor stars. -/
theorem mem_blankComment {a : Char} {b : List Char} (h : a ∈ blankComment b) :
    a = ' ' ∨ a = '\n' := by
  simp only [blankComment, List.mem_cons, List.mem_append, List.mem_map, List.not_mem_nil] at h
  rcases h with rfl | rfl | ⟨c, -, rfl⟩ | rfl | rfl | h
  · exact .inl rfl
  · exact .inl rfl
  · unfold blankAt
    split
    case isTrue => exact .inl rfl
    case isFalse hc => exact .inr (by simpa using hc)
  · exact .inl rfl
  · exact .inl rfl
  · cases h

theorem Comments.clear {s : List Char} {marks : List Bool} (h : Comments s marks) :
    ¬ ['/', '*'] <:+: List.zipWith blankAt s marks := by
  induction h with
  | plain ht => rwa [zipWith_blankAt_false]
  | @comment t b rest marks ht hb _ ih =>
    have hslash : '/' ∉ blankComment b := fun hm => by
      rcases mem_blankComment hm with h | h <;> cases h
    rw [zipWith_comment]
    refine not_pair_append ht (not_pair_append (not_pair_of_not_mem hslash) ih (.inl ?_)) (.inr ?_)
    · intro hlast
      exact hslash (List.mem_of_getLast? hlast)
    · simp [blankComment]

theorem Comments.blanks {s : List Char} {marks : List Bool} (h : Comments s marks) :
    Blanks s marks (List.zipWith blankAt s marks) := by
  have hlen := h.length_eq
  have hmark (i : Nat) {c : Char} (hc : s[i]? = some c) : ∃ m, marks[i]? = some m := by
    have hi : i < marks.length := hlen ▸ (List.getElem?_eq_some_iff.mp hc).1
    exact ⟨_, List.getElem?_eq_getElem hi⟩
  refine ⟨by simp [hlen], fun i => ?_, fun i hi => ?_, fun i hi hne => ?_, h.clear⟩
  · rw [List.getElem?_zipWith]
    cases hc : s[i]? with
    | none => simp
    | some c =>
      obtain ⟨m, hm⟩ := hmark i hc
      simp [hm, blankAt_eq_newline]
  · rw [List.getElem?_zipWith, hi]
    cases s[i]? <;> simp [blankAt]
  · have hs : i < s.length := hlen ▸ (List.getElem?_eq_some_iff.mp hi).1
    rw [List.getElem?_eq_getElem hs] at hne
    have hc : s[i] ≠ '\n' := fun h => hne (congrArg some h)
    rw [List.getElem?_zipWith, hi, List.getElem?_eq_getElem hs]
    simp [blankAt, hc]

/-- A text without comments stays as it is. -/
theorem stripComments_of_clear {s : List Char} (h : ¬ ['/', '*'] <:+: s) :
    stripComments s = .ok s := by
  rw [stripComments, (Comments.plain h).blankComments_eq, zipWith_blankAt_false]

/-- The lines of a text begin where they began before its comments were blanked out. -/
theorem Comments.countBreaks_take {s : List Char} {marks : List Bool} (h : Comments s marks)
    (n : Nat) :
    Text.countBreaks ((List.zipWith blankAt s marks).take n) = Text.countBreaks (s.take n) := by
  have hall (s : List Char) (marks : List Bool) (hlen : marks.length = s.length) :
      (List.zipWith blankAt s marks).count '\n' = s.count '\n' := by
    induction s generalizing marks with
    | nil => rfl
    | cons a s ih =>
      obtain ⟨m, marks, rfl⟩ := List.exists_cons_of_length_eq_add_one hlen
      have heq := ih marks (Nat.succ.inj hlen)
      simp [List.count_cons, heq, blankAt_eq_newline]
  rw [List.take_zipWith]
  exact hall _ _ (by simp [h.length_eq])

end Bundler.Source

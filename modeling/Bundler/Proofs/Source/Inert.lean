import Bundler.Proofs.Source.Keywords
import Bundler.Proofs.Source.Plain

/-!
# Code that mentions nothing

Marks, strings, and words of which none is a keyword are passed without a mention, whatever they
stand behind. Such pieces can be put behind one another where no word would run on from one into
the next.
-/

namespace Bundler.Source

open Cursor

/-- The words whose clauses can mention something. -/
def keywords : List String := ["import", "export", "require"]

/-- Characters that are passed alone, whatever follows them. -/
def isMark (a : Char) : Bool := isPunctuation a || a = '\x7b' || a = '}'

/-- The text is passed without a mention, wherever it stands, if no word runs on behind it. -/
def Inert (text : List Char) : Prop :=
  ∀ behind rest : List Char, rest.head?.any isWordChar = false →
    Steps false ⟨behind, text ++ rest⟩ [] ⟨text.reverse ++ behind, rest⟩

theorem keywordClause_of_not_mem {w : String} (h : w ∉ keywords) (c : Cursor) :
    keywordClause w c = .ok (c, none) := by
  unfold keywordClause
  split
  case h_4 => rfl
  all_goals exact absurd (by decide) h

theorem step_isMark {a : Char} (h : isMark a) (behind rest : List Char) :
    Step false ⟨behind, a :: rest⟩ [] ⟨a :: behind, rest⟩ := by
  simp only [isMark, Bool.or_eq_true, decide_eq_true_eq] at h
  obtain (h | rfl) | rfl := h
  · exact step_pass (lexeme_punctuation behind rest h)
  · exact .passes (.opening none _)
  · exact .passes (.closing _ (by simp))

theorem isMark_of_isWordStart_eq_false {a : Char} (hword : isWordChar a)
    (hstart : isWordStart a = false) : isMark a := by
  have hne {b : Char} (hb : isWordChar b = false) : a ≠ b := by
    rintro rfl
    simp [hb] at hword
  simp [isMark, isPunctuation, isQuote, hstart, hne (b := '/') (by decide),
    hne (b := '`') (by decide), hne (b := '\x7b') (by decide), hne (b := '}') (by decide),
    hne (b := '"') (by decide), hne (b := '\'') (by decide)]

/-- A word is passed that is no keyword or does not stand for itself. -/
theorem step_inert_word {a : Char} {w behind rest : List Char} (ha : isWordStart a)
    (hw : w.all isWordChar) (hrest : rest.head?.any isWordChar = false)
    (h : String.ofList (a :: w) ∉ keywords ∨ behind.head?.any isWordChar) :
    Step false ⟨behind, a :: (w ++ rest)⟩ [] ⟨(a :: w).reverse ++ behind, rest⟩ := by
  have hword : Word ⟨behind, a :: (w ++ rest)⟩ (String.ofList (a :: w)).toList
      ⟨(a :: w).reverse ++ behind, rest⟩ := by
    rw [String.toList_ofList]
    exact ⟨⟨ha, hw⟩, ⟨rfl, rfl⟩, seam_of_stop hrest⟩
  cases hfree : atBoundary behind with
  | true =>
    have hnew : String.ofList (a :: w) ∉ keywords := by
      refine h.resolve_right fun hbehind => ?_
      cases behind with
      | nil => cases hbehind
      | cons b behind =>
        have hb : isWordChar b := hbehind
        simp [atBoundary, hb] at hfree
    exact hword.step hfree (keywordClause_of_not_mem hnew _)
  | false =>
    have hlexeme := lexeme_eq_word_iff.mpr ⟨hword, hfree.symm⟩
    exact .passes (by rw [hlexeme]; exact .bound none _ _)

theorem steps_inert_word {w behind rest : List Char} (hw : w.all isWordChar)
    (hrest : rest.head?.any isWordChar = false)
    (h : String.ofList w ∉ keywords ∨ behind.head?.any isWordChar) :
    Steps false ⟨behind, w ++ rest⟩ [] ⟨w.reverse ++ behind, rest⟩ := by
  induction w generalizing behind with
  | nil => exact .here _
  | cons a w ih =>
    simp only [List.all_cons, Bool.and_eq_true] at hw
    cases hstart : isWordStart a with
    | true => simpa using Steps.step (step_inert_word hstart hw.2 hrest h) (.here _)
    | false =>
      -- A numeral begins no word, and what goes on behind it is no keyword that stands for itself.
      have hmark := isMark_of_isWordStart_eq_false hw.1 hstart
      have htail : Steps false ⟨a :: behind, w ++ rest⟩ [] ⟨w.reverse ++ a :: behind, rest⟩ :=
        ih hw.2 (.inr hw.1)
      simpa using Steps.step (step_isMark hmark behind (w ++ rest)) htail

namespace Inert

variable {t u : List Char}

theorem nil : Inert [] := fun _ _ _ => .here _

theorem word (hw : t.all isWordChar) (h : String.ofList t ∉ keywords) : Inert t :=
  fun _ _ hrest => steps_inert_word hw hrest (.inl h)

theorem mark {a : Char} (ha : isMark a) (ht : Inert t) : Inert (a :: t) := by
  intro behind rest hrest
  simpa using Steps.step (step_isMark ha behind (t ++ rest)) (ht (a :: behind) rest hrest)

theorem append (ht : Inert t) (hu : Inert u) (hseam : u.head?.any isWordChar = false) :
    Inert (t ++ u) := by
  intro behind rest hrest
  have hhead : (u ++ rest).head?.any isWordChar = false := by
    cases u with
    | nil => exact hrest
    | cons a u => exact hseam
  simpa using (ht behind (u ++ rest) hhead).trans (hu (t.reverse ++ behind) rest hrest)

theorem append_cons {a : Char} (ht : Inert t) (hu : Inert (a :: u))
    (ha : isWordChar a = false) : Inert (t ++ a :: u) :=
  ht.append hu ha

/-- A closed string is passed, whatever is in it. -/
theorem string {q : Char} {raw value : List Char} (hq : isQuote q) (hraw : Spells q raw value) :
    Inert (q :: (raw ++ [q])) := by
  intro behind rest _
  have hliteral : Literal ⟨behind, q :: (raw ++ [q]) ++ rest⟩ value
      ⟨(q :: (raw ++ [q])).reverse ++ behind, rest⟩ := ⟨q, raw, hq, hraw, rfl, rfl⟩
  simpa using Steps.step hliteral.step (.here _)

end Inert

/-! ## Marks and words -/

/-- The runs of word characters in a text, of which those between two marks may be empty. -/
def runs (text : List Char) : List (List Char) := text.splitOnP fun a => !isWordChar a

/-- Only marks and words, of which none is a keyword. -/
def Bare (text : List Char) : Prop :=
  (∀ a ∈ text, isWordChar a ∨ isMark a) ∧ ∀ w ∈ runs text, String.ofList w ∉ keywords

-- The characters to look at are those of the text, not all that there are.
instance (text : List Char) : Decidable (Bare text) :=
  @instDecidableAnd _ _ (List.decidableBAll _ text) (List.decidableBAll _ (runs text))

/-- A text is one run, or a run, a character that belongs to none, and another text. -/
theorem runs_cases (text : List Char) :
    runs text = [text] ∧ text.all isWordChar ∨
      ∃ w a t, text = w ++ a :: t ∧ w.all isWordChar ∧ isWordChar a = false ∧
        runs text = w :: runs t := by
  have hall : (text.takeWhile isWordChar).all isWordChar := List.all_takeWhile
  have hword : ∀ a ∈ text.takeWhile isWordChar, (!isWordChar a) = false := by
    intro a ha
    rw [List.all_eq_true.mp hall a ha]
    rfl
  have happend := List.takeWhile_append_dropWhile (p := isWordChar) (l := text)
  have hstop := List.head?_dropWhile_not isWordChar text
  cases hdrop : text.dropWhile isWordChar with
  | nil =>
    rw [hdrop, List.append_nil] at happend
    rw [happend] at hall hword
    exact .inl ⟨List.splitOnP_eq_singleton hword, hall⟩
  | cons a t =>
    rw [hdrop] at happend hstop
    have ha : isWordChar a = false := by simpa using hstop
    refine .inr ⟨_, a, t, happend.symm, hall, ha, ?_⟩
    conv_lhs => rw [← happend]
    exact List.splitOnP_append_cons_of_forall_mem hword a (by simp [ha]) t

theorem Bare.inert {text : List Char} (h : Bare text) : Inert text := by
  induction hn : text.length using Nat.strongRecOn generalizing text with
  | ind n ih =>
    obtain ⟨hruns, hall⟩ | ⟨w, a, t, rfl, hw, ha, hruns⟩ := runs_cases text
    · exact .word hall (h.2 text (by simp [hruns]))
    · have hmark : isMark a := by simpa [ha] using h.1 a (by simp)
      have ht : Bare t :=
        ⟨fun b hb => h.1 b (by simp [hb]), fun v hv => h.2 v (by simp [hruns, hv])⟩
      have hlength : t.length < n := by
        rw [← hn]
        simp
        omega
      have hinert : Inert w := .word hw (h.2 w (by simp [hruns]))
      exact hinert.append_cons (.mark hmark (ih _ hlength ht rfl)) ha

theorem subset_of_mem_runs {text w : List Char} (h : w ∈ runs text) : w ⊆ text := by
  induction text generalizing w with
  | nil =>
    obtain rfl : w = [] := by simpa [runs] using h
    exact List.nil_subset _
  | cons a text ih =>
    rw [runs, List.splitOnP_cons_eq_if_modifyHead] at h
    change w ∈ if _ then [] :: runs text else (runs text).modifyHead (a :: ·) at h
    split at h
    · obtain rfl | hw := List.mem_cons.mp h
      · exact List.nil_subset _
      · exact List.Subset.trans (ih hw) (List.subset_cons_self a text)
    · cases hruns : runs text with
      | nil => simp [hruns] at h
      | cons v vs =>
        simp only [hruns, List.modifyHead_cons, List.mem_cons] at h
        obtain rfl | hw := h
        · exact List.cons_subset_cons a (ih (by simp [hruns]))
        · exact List.Subset.trans (ih (by simp [hruns, hw])) (List.subset_cons_self a text)

/-- Each keyword has an `r`. -/
theorem bare_of_not_mem {text : List Char} (h : ∀ a ∈ text, isWordChar a ∨ isMark a)
    (hr : 'r' ∉ text) : Bare text := by
  refine ⟨h, fun w hw hkeyword => hr ?_⟩
  have hmem : 'r' ∈ w := by
    simp only [keywords, List.mem_cons, List.not_mem_nil, or_false] at hkeyword
    obtain hk | hk | hk := hkeyword
    all_goals
      rw [← String.toList_ofList (l := w), hk]
      decide
  exact subset_of_mem_runs hw hmem

end Bundler.Source

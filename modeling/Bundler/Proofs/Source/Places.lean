import Bundler.Proofs.Source.Clauses

/-!
# Places in a text

What stands between two places of a text: blanks and complete comments, a word, a closed string.
A scanner that passes one of these passes a text of that form and no other, and a comment or a
string that is not closed is noticed as such.
-/

namespace Bundler.Source

open Cursor

/-! ## From place to place -/

/-- `text` stands between `c` and `d`. -/
structure Cursor.Over (c : Cursor) (text : List Char) (d : Cursor) : Prop where
  ahead : c.ahead = text ++ d.ahead
  behind : d.behind = text.reverse ++ c.behind

/-- No word runs through the place. -/
def Cursor.Seam (c : Cursor) : Prop :=
  ¬ (c.behind.head?.any isWordChar ∧ c.ahead.head?.any isWordChar)

instance (c : Cursor) : Decidable c.Seam :=
  inferInstanceAs (Decidable (¬ (c.behind.head?.any isWordChar ∧ c.ahead.head?.any isWordChar)))

namespace Cursor.Over

variable {c d e : Cursor} {t u behind rest : List Char}

theorem nil (c : Cursor) : c.Over [] c := ⟨rfl, rfl⟩

theorem trans (h₁ : c.Over t d) (h₂ : d.Over u e) : c.Over (t ++ u) e :=
  ⟨by rw [h₁.ahead, h₂.ahead, List.append_assoc], by simp [h₂.behind, h₁.behind]⟩

theorem cons {a : Char} (h : Over ⟨a :: behind, rest⟩ t d) : Over ⟨behind, a :: rest⟩ (a :: t) d :=
  trans (t := [a]) ⟨rfl, rfl⟩ h

theorem onward (h : c.Over t d) : c.Onward d := ⟨t, h.ahead, h.behind⟩

theorem exists_eq (h : c.Over t d) :
    ∃ behind rest, c = ⟨behind, t ++ rest⟩ ∧ d = ⟨t.reverse ++ behind, rest⟩ := by
  obtain ⟨behind, ahead⟩ := c
  obtain ⟨behind', rest⟩ := d
  exact ⟨behind, rest, by rw [← h.ahead], by rw [← h.behind]⟩

theorem eq_of_nil (h : c.Over [] d) : d = c := by
  obtain ⟨behind, rest, rfl, rfl⟩ := h.exists_eq
  rfl

theorem split (h : c.Over (t ++ u) e) : ∃ d, c.Over t d ∧ d.Over u e :=
  ⟨⟨t.reverse ++ c.behind, u ++ e.ahead⟩, ⟨by simp [h.ahead], rfl⟩, ⟨rfl, by simp [h.behind]⟩⟩

/-- Where the text in between ends with `a`, no word runs on, unless `a` belongs to one. -/
theorem seam (h : c.Over (t ++ [a]) d) (ha : isWordChar a = false) : d.Seam := by
  intro hd
  rw [h.behind] at hd
  simp [ha] at hd

end Cursor.Over

/-! ## Blanks and comments -/

/-- Blanks and complete comments. A line comment ends with its line. -/
inductive Spacing : List Char → Prop
  | nil : Spacing []
  | blank {a : Char} {g : List Char} : Text.isBlank a → Spacing g → Spacing (a :: g)
  | line {t g : List Char} : '\n' ∉ t → Spacing g → Spacing ('/' :: '/' :: (t ++ '\n' :: g))
  | block {t g : List Char} : ¬ ['*', '/'] <:+: t → Spacing g →
      Spacing ('/' :: '*' :: (t ++ '*' :: '/' :: g))

/-- The rest of a gap, by where the gap has come to. -/
def Gap.Left : Gap → List Char → Prop
  | .blank, g => Spacing g
  | .lineComment, g => ∃ t g', '\n' ∉ t ∧ Spacing g' ∧ g = t ++ '\n' :: g'
  | .blockComment, g => ∃ t g', ¬ ['*', '/'] <:+: t ∧ Spacing g' ∧ g = t ++ '*' :: '/' :: g'

theorem Spacing.append {g g' : List Char} (h : Spacing g) (h' : Spacing g') :
    Spacing (g ++ g') := by
  induction h with
  | nil => exact h'
  | blank ha _ ih => exact .blank ha ih
  | line ht _ ih => simpa using Spacing.line ht ih
  | block ht _ ih => simpa using Spacing.block ht ih

theorem le_toNat_of_isAlphanum {a : Char} (h : a.isAlphanum) : 48 ≤ a.toNat := by
  obtain halpha | hdigit := (Bool.or_eq_true a.isAlpha a.isDigit).mp h
  · have := le_toNat_of_isAlpha halpha
    omega
  · have hle : '0'.val ≤ a.val := of_decide_eq_true ((Bool.and_eq_true _ _).mp hdigit).1
    exact Nat.le_trans (by decide) (UInt32.le_iff_toNat_le.mp hle)

/-- No word goes on in a gap. -/
theorem isWordChar_of_isBlank {a : Char} (h : Text.isBlank a) : isWordChar a = false := by
  by_contra hword
  simp only [isWordChar, Text.isLetterOrNumeral, Bool.not_eq_false, Bool.or_eq_true,
    decide_eq_true_eq] at hword
  unfold Text.isBlank at h
  split at h
  case isTrue hlow =>
    have hle : a.toNat ≤ 32 := by
      simp only [Bool.or_eq_true, Bool.and_eq_true, decide_eq_true_eq] at h
      obtain rfl | hle := h
      · decide
      · omega
    rw [if_pos hlow] at hword
    obtain (hword | rfl) | rfl := hword
    · have := le_toNat_of_isAlphanum hword
      omega
    · exact absurd hle (by decide)
    · exact absurd hle (by decide)
  case isFalse hhigh =>
    have hletter : Text.inRanges Text.letterRanges a.toNat = false :=
      inRanges_eq_false (by decide +kernel) h
    have hnumeral : Text.inRanges Text.numeralRanges a.toNat = false :=
      inRanges_eq_false (by decide +kernel) h
    rw [if_neg hhigh, hletter, hnumeral] at hword
    obtain (hword | rfl) | rfl := hword
    · cases hword
    · exact absurd hhigh (by decide)
    · exact absurd hhigh (by decide)

/-- What a gap ends with belongs to no word and no property. -/
theorem Spacing.eq_nil_or_concat {g : List Char} (h : Spacing g) :
    g = [] ∨ ∃ t a, g = t ++ [a] ∧ isWordChar a = false ∧ a ≠ '.' := by
  induction h with
  | nil => exact .inl rfl
  | @blank a g ha _ ih =>
    obtain rfl | ⟨t, b, rfl, hb⟩ := ih
    · refine .inr ⟨[], a, rfl, isWordChar_of_isBlank ha, ?_⟩
      rintro rfl
      exact absurd ha (by decide)
    · exact .inr ⟨a :: t, b, rfl, hb⟩
  | @line t g _ _ ih =>
    obtain rfl | ⟨u, b, rfl, hb⟩ := ih
    · exact .inr ⟨'/' :: '/' :: t, '\n', by simp, by decide⟩
    · exact .inr ⟨'/' :: '/' :: (t ++ '\n' :: u), b, by simp, hb⟩
  | @block t g _ _ ih =>
    obtain rfl | ⟨u, b, rfl, hb⟩ := ih
    · exact .inr ⟨'/' :: '*' :: (t ++ ['*']), '/', by simp, by decide⟩
    · exact .inr ⟨'/' :: '*' :: (t ++ '*' :: '/' :: u), b, by simp, hb⟩

theorem Spacing.head?_any {g : List Char} (h : Spacing g) : g.head?.any isWordChar = false := by
  cases h with
  | nil => rfl
  | blank ha => exact isWordChar_of_isBlank ha
  | line => exact (by decide : isWordChar '/' = false)
  | block => exact (by decide : isWordChar '/' = false)

theorem Spacing.seam {g : List Char} {c d : Cursor} (h : Spacing g) (hc : c.Seam)
    (hover : c.Over g d) : d.Seam := by
  obtain rfl | ⟨t, a, rfl, ha, -⟩ := h.eq_nil_or_concat
  · rw [hover.eq_of_nil]
    exact hc
  · exact hover.seam ha

section
variable (behind rest : List Char)

theorem skipGap_blank {a : Char} (ha : Text.isBlank a) :
    skipGap .blank behind (a :: rest) = skipGap .blank (a :: behind) rest := by
  have hslash : a ≠ '/' := by rintro rfl; exact absurd ha (by decide)
  rw [skipGap.eq_4 _ _ _ (fun _ h _ => hslash h) (fun _ h _ => hslash h), if_pos ha]

theorem skipGap_line {t : List Char} (ht : '\n' ∉ t) :
    skipGap .lineComment behind (t ++ '\n' :: rest) =
      skipGap .blank ('\n' :: (t.reverse ++ behind)) rest := by
  induction t generalizing behind with
  | nil => simp [skipGap]
  | cons a t ih =>
    simp only [List.mem_cons, not_or] at ht
    simp [skipGap, Ne.symm ht.1, ih _ ht.2]

theorem skipGap_block {t : List Char} (ht : ¬ ['*', '/'] <:+: t) :
    skipGap .blockComment behind (t ++ '*' :: '/' :: rest) =
      skipGap .blank ('/' :: '*' :: (t.reverse ++ behind)) rest := by
  induction t generalizing behind with
  | nil => simp [skipGap]
  | cons a t ih =>
    have hrest : ¬ ['*', '/'] <:+: t := fun hi => ht (hi.trans (List.suffix_cons ..).isInfix)
    rw [List.cons_append, skipGap.eq_7 _ _ _ (not_pair _ ht (by decide)), ih _ hrest]
    simp

/-- A comment that is not closed takes all that is left. -/
theorem skipGap_unclosed {u : List Char} (hu : ¬ ['*', '/'] <:+: u) :
    skipGap .blockComment behind u = ⟨u.reverse ++ behind, []⟩ := by
  induction u generalizing behind with
  | nil => simp [skipGap]
  | cons a u ih =>
    have hrest : ¬ ['*', '/'] <:+: u := fun hi => hu (hi.trans (List.suffix_cons ..).isInfix)
    have hpair (r : List Char) (ha : a = '*') (hr : u = '/' :: r) : False :=
      hu ⟨[], r, by simp [ha, hr]⟩
    rw [skipGap.eq_7 _ _ _ hpair, ih _ hrest]
    simp

theorem skipGap_spacing {g : List Char} (h : Spacing g) :
    skipGap .blank behind (g ++ rest) = skipGap .blank (g.reverse ++ behind) rest := by
  induction h generalizing behind with
  | nil => rfl
  | blank ha _ ih => simp [skipGap_blank _ _ ha, ih]
  | line ht _ ih => simp [skipGap, skipGap_line _ _ ht, ih]
  | block ht _ ih => simp [skipGap, skipGap_block _ _ ht, ih]

end

/-- What a gap consists of, if it ends before the text. -/
theorem left_of_skipGap {gap : Gap} {behind rest : List Char}
    (h : (skipGap gap behind rest).ahead ≠ []) :
    ∃ g, gap.Left g ∧ Over ⟨behind, rest⟩ g (skipGap gap behind rest) := by
  fun_induction skipGap gap behind rest
  case case1 => exact absurd rfl h
  case case2 ih =>
    obtain ⟨_, ⟨t, g, ht, hg, rfl⟩, hover⟩ := ih h
    exact ⟨_, .line ht hg, hover.cons.cons⟩
  case case3 ih =>
    obtain ⟨_, ⟨t, g, ht, hg, rfl⟩, hover⟩ := ih h
    exact ⟨_, .block ht hg, hover.cons.cons⟩
  case case4 ha ih =>
    obtain ⟨g, hg, hover⟩ := ih h
    exact ⟨_, .blank ha hg, hover.cons⟩
  case case5 => exact ⟨[], .nil, .nil _⟩
  case case6 a rest ih =>
    obtain ⟨g, hg, hover⟩ := ih h
    refine ⟨a :: g, ?_, hover.cons⟩
    by_cases ha : a = '\n'
    · subst ha
      exact ⟨[], g, by simp, hg, rfl⟩
    · rw [if_neg ha] at hg
      obtain ⟨t, g, ht, hg, rfl⟩ := hg
      exact ⟨a :: t, g, by simp [Ne.symm ha, ht], hg, rfl⟩
  case case7 ih =>
    obtain ⟨g, hg, hover⟩ := ih h
    exact ⟨_, ⟨[], g, by simp, hg, rfl⟩, hover.cons.cons⟩
  case case8 a rest hpair ih =>
    obtain ⟨_, ⟨t, g, ht, hg, rfl⟩, hover⟩ := ih h
    refine ⟨_, ⟨a :: t, g, ?_, hg, rfl⟩, hover.cons⟩
    intro hi
    obtain ⟨r, hr⟩ | hi := List.infix_cons_iff.mp hi
    · obtain ⟨rfl, rfl⟩ := List.cons.inj hr
      exact hpair _ rfl hover.ahead
    · exact ht hi

/-- No gap begins where a gap has ended. -/
theorem skipGap_skipGap (gap : Gap) (behind rest : List Char) :
    (skipGap gap behind rest).skipGap = skipGap gap behind rest := by
  fun_induction skipGap gap behind rest
  case case1 => rfl
  case case5 hline hblock ha => simp only [Cursor.skipGap, skipGap.eq_4 _ _ _ hline hblock, ha]; rfl
  all_goals assumption

namespace Cursor

variable {c d : Cursor} {g : List Char}

/-- No gap begins at the place. -/
def Lands (c : Cursor) : Prop := c.skipGap = c

theorem lands_skipGap (c : Cursor) : c.skipGap.Lands := skipGap_skipGap _ _ _

theorem lands_of_token {a : Char} {rest : List Char} (h : c.ahead = a :: rest)
    (ha : Text.isBlank a = false) (hslash : a ≠ '/') : c.Lands := by
  obtain ⟨behind, ahead⟩ := c
  subst h
  exact skipGap_token _ _ ha hslash

theorem skipGap_eq (h : Spacing g) (hover : c.Over g d) (hd : d.Lands) : c.skipGap = d := by
  rw [← hd, Cursor.skipGap, Cursor.skipGap, hover.ahead, skipGap_spacing _ _ h, hover.behind]

theorem spacing_skipGap (h : c.skipGap.ahead ≠ []) : ∃ g, Spacing g ∧ c.Over g c.skipGap :=
  left_of_skipGap h

/-- A comment begins at the place that is not closed. -/
def AtOpenComment (c : Cursor) : Prop :=
  ∃ u, c.ahead = '/' :: '*' :: u ∧ ¬ ['*', '/'] <:+: u

/-- The place at the end of the text. -/
def finish (c : Cursor) : Cursor := ⟨c.ahead.reverse ++ c.behind, []⟩

theorem Over.finish_eq (h : c.Over g d) : d.finish = c.finish := by
  simp [finish, h.ahead, h.behind]

/-- A gap in which a comment is not closed takes all that is left. -/
theorem skipGap_of_open (h : Spacing g) (hover : c.Over g d) (hd : d.AtOpenComment) :
    c.skipGap = c.finish := by
  obtain ⟨u, hahead, hu⟩ := hd
  rw [← hover.finish_eq, Cursor.skipGap, hover.ahead, skipGap_spacing _ _ h, ← hover.behind, hahead,
    Source.skipGap, skipGap_unclosed _ hu]
  simp [finish, hahead]

end Cursor

theorem skipBlock?_eq_none_iff (behind rest : List Char) :
    skipBlock? behind rest = none ↔ ¬ ['*', '/'] <:+: rest := by
  fun_induction skipBlock? behind rest
  case case1 => simp
  case case2 rest => simp [show ['*', '/'] <:+: '*' :: '/' :: rest from ⟨[], rest, rfl⟩]
  case case3 a rest hpair ih =>
    have hno : ¬ ['*', '/'] <+: a :: rest := by
      rintro ⟨r, hr⟩
      obtain ⟨rfl, rfl⟩ := List.cons.inj hr
      exact hpair r rfl rfl
    rw [ih, List.infix_cons_iff, not_or]
    exact (and_iff_right hno).symm

/-- A lexeme is a fault where a comment begins that is not closed, and nowhere else. -/
theorem lexeme_eq_fail_iff {behind rest : List Char} {a : Char} {e : ScanError} :
    lexeme behind a rest = .fail e ↔
      AtOpenComment ⟨behind, a :: rest⟩ ∧
        e = Cursor.error ⟨behind, a :: rest⟩ .unclosedBlockComment := by
  constructor
  · intro h
    unfold lexeme at h
    split_ifs at h with hslash hline hblock
    subst hslash
    obtain ⟨rest, rfl⟩ := List.head?_eq_some_iff.mp hblock
    split at h
    case h_1 => cases h
    case h_2 hnone =>
      cases h
      exact ⟨⟨rest, rfl, (skipBlock?_eq_none_iff _ _).mp hnone⟩, rfl⟩
  · rintro ⟨⟨u, hahead, hu⟩, rfl⟩
    cases hahead
    simp [lexeme, (skipBlock?_eq_none_iff _ _).mpr hu]

/-! ## Strings -/

theorem isBlank_of_isQuote {q : Char} (h : isQuote q) : Text.isBlank q = false := by
  obtain rfl | rfl : q = '"' ∨ q = '\'' := by simpa [isQuote] using h
  all_goals decide

/-- How the inside of a string is written: as it is, or behind a backslash. A backslash is needed
before the quote, a backslash and the end of the line. -/
inductive Spells (q : Char) : List Char → List Char → Prop
  | nil : Spells q [] []
  | plain {a : Char} {raw value : List Char} : a ≠ '\\' → a ≠ '\n' → a ≠ q →
      Spells q raw value → Spells q (a :: raw) (a :: value)
  | escaped {a : Char} {raw value : List Char} : Spells q raw value →
      Spells q ('\\' :: a :: raw) (a :: value)

theorem stringBody?_spells {q : Char} (hq : isQuote q) {raw value : List Char}
    (h : Spells q raw value) (behind rest : List Char) :
    stringBody? q behind (raw ++ q :: rest) =
      some (value, ⟨q :: (raw.reverse ++ behind), rest⟩) := by
  induction h generalizing behind with
  | nil =>
    have h₁ : q ≠ '\\' := by rintro rfl; simp [isQuote] at hq
    have h₂ : q ≠ '\n' := by rintro rfl; simp [isQuote] at hq
    simp [stringBody?, h₁, h₂]
  | plain h₁ h₂ h₃ _ ih => simp [stringBody?, h₁, h₂, h₃, ih]
  | escaped _ ih => simp [stringBody?, ih]

theorem ne_backslash {a : Char} {rest : List Char} (hend : a = '\\' → rest = [] → False)
    (hescape : ∀ b r, a = '\\' → rest = b :: r → False) : a ≠ '\\' := by
  intro ha
  cases rest with
  | nil => exact hend ha rfl
  | cons b r => exact hescape b r ha rfl

theorem spells_of_stringBody? {q : Char} {behind rest value : List Char} {d : Cursor}
    (h : stringBody? q behind rest = some (value, d)) :
    ∃ raw, Spells q raw value ∧ Over ⟨behind, rest⟩ (raw ++ [q]) d := by
  fun_induction stringBody? q behind rest generalizing value d
  case case1 | case2 | case4 => cases h
  case case3 ih =>
    obtain ⟨⟨v, e⟩, hr, heq⟩ := Option.map_eq_some_iff.mp h
    cases heq
    obtain ⟨raw, hraw, hover⟩ := ih hr
    exact ⟨_, .escaped hraw, hover.cons.cons⟩
  case case5 =>
    cases h
    exact ⟨[], .nil, rfl, rfl⟩
  case case6 a rest hend hescape hline hquote ih =>
    obtain ⟨⟨v, e⟩, hr, heq⟩ := Option.map_eq_some_iff.mp h
    cases heq
    obtain ⟨raw, hraw, hover⟩ := ih hr
    exact ⟨_, .plain (ne_backslash hend hescape) hline hquote hraw, hover.cons⟩

/-- Where a string goes on to before it is given up: the end of its line or of the text. -/
def Stops (tail : List Char) : Prop := tail = [] ∨ tail = ['\\'] ∨ ∃ rest, tail = '\n' :: rest

theorem stops_of_stringBody? {q : Char} {behind rest : List Char}
    (h : stringBody? q behind rest = none) :
    ∃ raw value tail, Spells q raw value ∧ rest = raw ++ tail ∧ Stops tail := by
  fun_induction stringBody? q behind rest
  case case1 => exact ⟨[], [], [], .nil, rfl, .inl rfl⟩
  case case2 => exact ⟨[], [], ['\\'], .nil, rfl, .inr (.inl rfl)⟩
  case case3 ih =>
    obtain ⟨raw, value, tail, hraw, rfl, htail⟩ := ih (Option.map_eq_none_iff.mp h)
    exact ⟨_, _, tail, .escaped hraw, rfl, htail⟩
  case case4 rest _ _ => exact ⟨[], [], '\n' :: rest, .nil, rfl, .inr (.inr ⟨rest, rfl⟩)⟩
  case case5 => cases h
  case case6 a rest hend hescape hline hquote ih =>
    obtain ⟨raw, value, tail, hraw, rfl, htail⟩ := ih (Option.map_eq_none_iff.mp h)
    exact ⟨_, _, tail, .plain (ne_backslash hend hescape) hline hquote hraw, rfl, htail⟩

namespace Cursor

variable {c d : Cursor} {value : List Char}

/-- A closed string stands between `c` and `d`; read, it is `value`. -/
def Literal (c : Cursor) (value : List Char) (d : Cursor) : Prop :=
  ∃ q raw, isQuote q ∧ Spells q raw value ∧ c.Over (q :: (raw ++ [q])) d

/-- A string begins at the place that is not closed before its line ends. -/
def AtOpenString (c : Cursor) : Prop :=
  ∃ q raw value tail, isQuote q ∧ Spells q raw value ∧ c.ahead = q :: (raw ++ tail) ∧ Stops tail

theorem Literal.demandString_eq (h : c.Literal value d) :
    c.demandString = .ok (String.ofList value, d) := by
  obtain ⟨q, raw, hq, hraw, hover⟩ := h
  have hbody := stringBody?_spells hq hraw (q :: c.behind) d.ahead
  have hd : q :: (raw.reverse ++ q :: c.behind) = d.behind := by simp [hover.behind]
  rw [hd] at hbody
  simp [demandString, string?, hover.ahead, hbody]

theorem Literal.head (h : c.Literal value d) : c.ahead.head?.any isQuote := by
  obtain ⟨q, raw, hq, -, hover⟩ := h
  simp [hover.ahead, hq]

theorem Literal.head_eq (h : c.Literal value d) :
    ∃ q rest, isQuote q ∧ c.ahead = q :: rest := by
  obtain ⟨q, raw, hq, -, hover⟩ := h
  exact ⟨q, _, hq, hover.ahead⟩

theorem Literal.lands (h : c.Literal value d) : c.Lands := by
  obtain ⟨q, rest, hq, hahead⟩ := h.head_eq
  apply lands_of_token hahead (isBlank_of_isQuote hq)
  rintro rfl
  exact absurd hq (by decide)

theorem Literal.stop (h : c.Literal value d) : c.ahead.head?.any isWordChar = false := by
  obtain ⟨q, rest, hq, hahead⟩ := h.head_eq
  obtain rfl | rfl : q = '"' ∨ q = '\'' := by simpa [isQuote] using hq
  · rw [hahead]
    exact (by decide : isWordChar '"' = false)
  · rw [hahead]
    exact (by decide : isWordChar '\'' = false)

theorem Literal.head_ne_paren (h : c.Literal value d) : c.ahead.head? ≠ some '(' := by
  obtain ⟨q, rest, hq, hahead⟩ := h.head_eq
  rw [hahead]
  rintro ⟨⟩
  exact absurd hq (by decide)

/-- A string is read whole, or is not closed. -/
theorem demandString_cases (h : c.ahead.head?.any isQuote) :
    (∃ value d, c.Literal value d ∧ c.demandString = .ok (String.ofList value, d)) ∨
      c.AtOpenString ∧ c.demandString = .error (c.error .unclosedString) := by
  obtain ⟨behind, _ | ⟨q, rest⟩⟩ := c
  · cases h
  · have hq : isQuote q := h
    cases hbody : stringBody? q (q :: behind) rest with
    | none =>
      obtain ⟨raw, value, tail, hraw, rfl, htail⟩ := stops_of_stringBody? hbody
      have hopen : AtOpenString ⟨behind, q :: (raw ++ tail)⟩ :=
        ⟨q, raw, value, tail, hq, hraw, rfl, htail⟩
      exact .inr ⟨hopen, by simp [demandString, string?, hbody]⟩
    | some r =>
      obtain ⟨raw, hraw, hover⟩ := spells_of_stringBody? hbody
      exact .inl ⟨r.1, r.2, ⟨q, raw, hq, hraw, hover.cons⟩, by simp [demandString, string?, hbody]⟩

end Cursor

/-! ## Words -/

def IsWord : List Char → Prop
  | [] => False
  | a :: w => isWordStart a ∧ w.all isWordChar

instance : DecidablePred IsWord
  | [] => .isFalse id
  | a :: w => inferInstanceAs (Decidable (isWordStart a ∧ w.all isWordChar))

theorem IsWord.all {w : List Char} (h : IsWord w) : w.all isWordChar := by
  cases w with
  | nil => cases h
  | cons a w => exact all_isWordChar_cons h.1 h.2

theorem takeWord_append (behind : List Char) {w rest : List Char} (h : w.all isWordChar)
    (hrest : rest.head?.any isWordChar = false) :
    takeWord behind (w ++ rest) = (w, ⟨w.reverse ++ behind, rest⟩) := by
  induction w generalizing behind with
  | nil =>
    cases rest with
    | nil => rfl
    | cons a rest =>
      have ha : isWordChar a = false := hrest
      simp [takeWord, ha]
  | cons a w ih =>
    simp only [List.all_cons, Bool.and_eq_true] at h
    simp [takeWord, h.1, ih _ h.2]

theorem takeWord_spec (behind rest : List Char) :
    Over ⟨behind, rest⟩ (takeWord behind rest).1 (takeWord behind rest).2 ∧
      (takeWord behind rest).1.all isWordChar ∧
      (takeWord behind rest).2.ahead.head?.any isWordChar = false := by
  fun_induction takeWord behind rest
  case case1 => exact ⟨.nil _, rfl, rfl⟩
  case case2 ha r ih =>
    obtain ⟨hover, hall, hstop⟩ := ih
    exact ⟨hover.cons, by rw [List.all_cons, ha, hall, Bool.and_self], hstop⟩
  case case3 ha => exact ⟨.nil _, rfl, by simpa using ha⟩

namespace Cursor

variable {c d : Cursor} {w : List Char}

/-- A whole word stands between `c` and `d`. -/
structure Word (c : Cursor) (w : List Char) (d : Cursor) : Prop where
  isWord : IsWord w
  between : c.Over w d
  seam : d.Seam

theorem Word.head (h : c.Word w d) : ∃ a rest, isWordStart a ∧ c.ahead = a :: rest := by
  obtain ⟨hw, hover, -⟩ := h
  cases w with
  | nil => cases hw
  | cons a w => exact ⟨a, _, hw.1, hover.ahead⟩

theorem seam_of_stop (h : c.ahead.head?.any isWordChar = false) : c.Seam := by
  intro hc
  simp [h] at hc

theorem Word.stop (h : c.Word w d) : d.ahead.head?.any isWordChar = false := by
  by_contra hd
  apply h.seam
  refine ⟨?_, by simpa using hd⟩
  cases hw : w.reverse with
  | nil =>
    rw [List.reverse_eq_nil_iff.mp hw] at h
    exact h.isWord.elim
  | cons a r =>
    have ha : a ∈ w := List.mem_reverse.mp (hw ▸ .head _)
    simpa [h.between.behind, hw] using List.all_eq_true.mp h.isWord.all a ha

theorem Word.takeWord_eq (h : c.Word w d) : takeWord c.behind c.ahead = (w, d) := by
  rw [h.between.ahead, takeWord_append _ h.isWord.all h.stop, ← h.between.behind]

theorem word_takeWord {a : Char} {behind rest : List Char} (ha : isWordStart a) :
    Word ⟨behind, a :: rest⟩ (takeWord behind (a :: rest)).1 (takeWord behind (a :: rest)).2 := by
  obtain ⟨hover, hall, hstop⟩ := takeWord_spec (a :: behind) rest
  rw [takeWord, if_pos (isWordChar_of_isWordStart ha)]
  exact ⟨⟨ha, hall⟩, hover.cons, seam_of_stop hstop⟩

end Cursor

/-- A lexeme is a word where one begins, and nowhere else. -/
theorem lexeme_eq_word_iff {behind rest : List Char} {a : Char} {w : String} {free : Bool}
    {c : Cursor} :
    lexeme behind a rest = .word w free c ↔
      Word ⟨behind, a :: rest⟩ w.toList c ∧ free = atBoundary behind := by
  by_cases ha : isWordStart a
  · have hne {b : Char} (hb : isWordStart b = false) : a ≠ b := ne_of_isWordStart ha hb
    have heq : lexeme behind a rest = .word (String.ofList (takeWord behind (a :: rest)).1)
        (atBoundary behind) (takeWord behind (a :: rest)).2 := by
      simp [lexeme, hne (b := '/') (by decide), hne (b := '`') (by decide),
        hne (b := '\x7b') (by decide), hne (b := '}') (by decide), isQuote_eq_false ha, ha]
    rw [heq, Lexeme.word.injEq]
    constructor
    · rintro ⟨rfl, rfl, rfl⟩
      exact ⟨by simpa using @word_takeWord a behind rest ha, rfl⟩
    · rintro ⟨hword, rfl⟩
      simp [hword.takeWord_eq]
  · constructor
    · intro h
      simp only [lexeme, ha, Bool.false_eq_true, if_false] at h
      repeat' split at h
      all_goals cases h
    · rintro ⟨hword, -⟩
      obtain ⟨b, r, hb, hahead⟩ := hword.head
      cases hahead
      exact absurd hb ha

end Bundler.Source

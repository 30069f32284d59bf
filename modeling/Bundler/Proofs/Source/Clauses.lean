import Bundler.Proofs.Source.Reading

/-!
# Reading clauses

The tokens of a clause, one after the other: each is passed whole, and the specifier at the end is
the inside of its string, on the line of the quote.
-/

namespace Bundler.Source

/-! ## Words and gaps -/

section
variable (behind rest : List Char) {a stop : Char} {word : List Char}

theorem ne_of_isWordStart {b : Char} (ha : isWordStart a) (hb : isWordStart b = false) : a ≠ b := by
  rintro rfl
  simp [ha] at hb

theorem isQuote_eq_false (ha : isWordStart a) : isQuote a = false := by
  rw [Bool.eq_false_iff]
  intro hquote
  obtain rfl | rfl : a = '"' ∨ a = '\'' := by simpa [isQuote] using hquote
  all_goals exact absurd ha (by decide)

/-- A number lies in ranges of one table only, if none of them meets one of the other. -/
theorem inRanges_eq_false {xs ys : Array (Nat × Nat)} {n : Nat}
    (h : ∀ x ∈ xs.toList, ∀ y ∈ ys.toList, x.2 < y.1 ∨ y.2 < x.1) (hn : Text.inRanges xs n) :
    Text.inRanges ys n = false := by
  simp only [Text.inRanges, Array.any_eq_true', Array.any_eq_false', Bool.and_eq_true,
    decide_eq_true_eq, not_and, not_le] at hn ⊢
  obtain ⟨x, hx, hle⟩ := hn
  intro y hy hyn
  have := h x (by simpa using hx) y (by simpa using hy)
  omega

theorem le_toNat_of_isAlpha (h : a.isAlpha) : 65 ≤ a.toNat := by
  obtain hupper | hlower := (Bool.or_eq_true a.isUpper a.isLower).mp h
  · have hle : 'A'.val ≤ a.val := (of_decide_eq_true hupper).1
    exact UInt32.le_iff_toNat_le.mp hle
  · have hle : 'a'.val ≤ a.val := of_decide_eq_true ((Bool.and_eq_true _ _).mp hlower).1
    exact Nat.le_trans (by decide) (UInt32.le_iff_toNat_le.mp hle)

theorem isBlank_of_isWordStart (h : isWordStart a) : Text.isBlank a = false := by
  rw [Bool.eq_false_iff]
  intro hblank
  unfold Text.isBlank at hblank
  simp only [isWordStart, Text.isLetter, Bool.or_eq_true, decide_eq_true_eq] at h
  split at hblank
  case isTrue hlow =>
    have hle : a.toNat ≤ 32 := by
      simp only [Bool.or_eq_true, Bool.and_eq_true, decide_eq_true_eq] at hblank
      obtain rfl | hle := hblank
      · decide
      · omega
    rw [if_pos hlow] at h
    obtain (h | rfl) | rfl := h
    · have := le_toNat_of_isAlpha h
      omega
    · exact absurd hle (by decide)
    · exact absurd hle (by decide)
  case isFalse hhigh =>
    have hno : Text.inRanges Text.letterRanges a.toNat = false :=
      inRanges_eq_false (by decide +kernel) hblank
    rw [if_neg hhigh, hno] at h
    obtain (h | rfl) | rfl := h
    · cases h
    · exact absurd hhigh (by decide)
    · exact absurd hhigh (by decide)

theorem all_isWordChar_cons (ha : isWordStart a) (hword : word.all isWordChar) :
    (a :: word).all isWordChar := by
  rw [List.all_cons, isWordChar_of_isWordStart ha, hword, Bool.and_self]

section
variable (ha : isWordStart a) (hword : word.all isWordChar) (hstop : isWordChar stop = false)
include ha hword hstop

theorem takeWord_word : takeWord behind (a :: (word ++ stop :: rest)) =
    (a :: word, ⟨(a :: word).reverse ++ behind, stop :: rest⟩) :=
  takeWord_text behind rest (all_isWordChar_cons ha hword) hstop

/-- A word that begins where none is being read is a lexeme. -/
theorem lexeme_word :
    lexeme behind a (word ++ stop :: rest) =
      .word (String.ofList (a :: word)) (atBoundary behind)
        ⟨(a :: word).reverse ++ behind, stop :: rest⟩ := by
  have hne {b : Char} (hb : isWordStart b = false) : a ≠ b := ne_of_isWordStart ha hb
  simp [lexeme, hne (b := '/') (by decide), hne (b := '`') (by decide),
    hne (b := '\x7b') (by decide), hne (b := '}') (by decide), isQuote_eq_false ha, ha,
    takeWord_word behind rest ha hword hstop]

end

theorem skipGap_space :
    Cursor.skipGap ⟨behind, ' ' :: rest⟩ = Cursor.skipGap ⟨' ' :: behind, rest⟩ := by
  simp [Cursor.skipGap, skipGap, show Text.isBlank ' ' = true by decide]

theorem skipGap_token (ha : Text.isBlank a = false) (hslash : a ≠ '/') :
    Cursor.skipGap ⟨behind, a :: rest⟩ = ⟨behind, a :: rest⟩ := by
  simp [Cursor.skipGap, skipGap, ha, hslash]

end

/-! ## Strings -/

inductive Quote
  | single
  | double

def Quote.char : Quote → Char
  | .single => '\''
  | .double => '"'

theorem Quote.isQuote_char (q : Quote) : isQuote q.char := by
  cases q <;> decide

/-- What can stand in a string as it is. -/
structure StringText (q : Quote) where
  chars : List Char
  own : q.char ∉ chars
  plain : '\\' ∉ chars
  line : '\n' ∉ chars

namespace StringText

variable {q : Quote} (s : StringText q) (behind rest : List Char)

/-- The text in its quotes. -/
def literal : List Char := q.char :: (s.chars ++ [q.char])

theorem head?_literal : s.literal.head? = some q.char := rfl

theorem literal_append : s.literal ++ rest = q.char :: (s.chars ++ q.char :: rest) := by
  simp [literal]

theorem stringBody?_eq :
    stringBody? q.char (q.char :: behind) (s.chars ++ q.char :: rest) =
      some (s.chars, ⟨s.literal.reverse ++ behind, rest⟩) := by
  rw [stringBody?_text _ _ q.isQuote_char s.own s.plain s.line]
  simp [literal]

theorem lexeme_eq : lexeme behind q.char (s.chars ++ q.char :: rest) =
    .pass ⟨s.literal.reverse ++ behind, rest⟩ := by
  have hslash : q.char ≠ '/' := by cases q <;> decide
  simp [lexeme, hslash, q.isQuote_char, s.stringBody?_eq]

theorem demandString_eq : Cursor.demandString ⟨behind, s.literal ++ rest⟩ =
    .ok (String.ofList s.chars, ⟨s.literal.reverse ++ behind, rest⟩) := by
  simp only [s.literal_append, Cursor.demandString, Cursor.string?, s.stringBody?_eq,
    Option.map_some]

theorem specifier_eq (kind : DependencyKind) :
    specifier kind ⟨behind, s.literal ++ rest⟩ =
      .ok (⟨s.literal.reverse ++ behind, rest⟩,
        mention (String.ofList s.chars) kind (1 + behind.count '\n')) := by
  simp only [specifier, s.demandString_eq, Cursor.line]

theorem skipGap_eq : Cursor.skipGap ⟨behind, s.literal ++ rest⟩ = ⟨behind, s.literal ++ rest⟩ :=
  skipGap_token _ _ (by cases q <;> decide) (by cases q <;> decide)

end StringText

/-! ## The clauses of `import` and `export` -/

section
variable (kind : DependencyKind) (fuel depth : Nat) (behind rest : List Char)

theorem fromClause_space :
    fromClause kind (fuel + 1) depth ⟨behind, ' ' :: rest⟩ =
      fromClause kind (fuel + 1) depth ⟨' ' :: behind, rest⟩ := by
  rw [fromClause, fromClause, skipGap_space]

theorem fromClause_open :
    fromClause kind (fuel + 1) depth ⟨behind, '\x7b' :: rest⟩ =
      fromClause kind fuel (depth + 1) ⟨'\x7b' :: behind, rest⟩ := by
  rw [fromClause, skipGap_token _ _ (by decide) (by decide)]
  rfl

theorem fromClause_close :
    fromClause kind (fuel + 1) depth ⟨behind, '}' :: rest⟩ =
      fromClause kind fuel (depth - 1) ⟨'}' :: behind, rest⟩ := by
  rw [fromClause, skipGap_token _ _ (by decide) (by decide)]
  rfl

theorem fromClause_star :
    fromClause kind (fuel + 1) depth ⟨behind, '*' :: rest⟩ =
      fromClause kind fuel depth ⟨'*' :: behind, rest⟩ := by
  rw [fromClause, skipGap_token _ _ (by decide) (by decide)]
  have hquote : isQuote '*' = false := by decide
  have hword : isWordStart '*' = false := by decide
  simp [hquote, hword, Cursor.next]

variable {a stop : Char} {word : List Char}

/-- A word either is the `from` of the clause or stands for itself. -/
theorem fromClause_eq (ha : isWordStart a) (hword : word.all isWordChar)
    (hstop : isWordChar stop = false) :
    fromClause kind (fuel + 1) depth ⟨behind, a :: (word ++ stop :: rest)⟩ =
      let c : Cursor := ⟨(a :: word).reverse ++ behind, stop :: rest⟩
      if a :: word = "from".toList ∧ depth = 0 then
        if c.skipGap.ahead.head?.any isQuote then specifier kind c.skipGap
        else .ok (c.skipGap, none)
      else fromClause kind fuel depth c := by
  have hne {b : Char} (hb : isWordStart b = false) : a ≠ b := ne_of_isWordStart ha hb
  rw [fromClause, skipGap_token _ _ (isBlank_of_isWordStart ha) (hne (by decide))]
  simp only [hne (b := '\x7b') (by decide), hne (b := '}') (by decide), hne (b := ';') (by decide),
    isQuote_eq_false ha, ha, takeWord_word behind rest ha hword hstop, if_true, if_false,
    false_and, Bool.false_eq_true]

theorem fromClause_word (ha : isWordStart a) (hword : word.all isWordChar)
    (hstop : isWordChar stop = false) (hfrom : a :: word = "from".toList → 0 < depth) :
    fromClause kind (fuel + 1) depth ⟨behind, a :: (word ++ stop :: rest)⟩ =
      fromClause kind fuel depth ⟨(a :: word).reverse ++ behind, stop :: rest⟩ := by
  rw [fromClause_eq kind fuel depth behind rest ha hword hstop]
  exact if_neg fun h => Nat.ne_of_gt (hfrom h.1) h.2

theorem fromClause_from {q : Quote} (s : StringText q) :
    fromClause kind (fuel + 1) 0 ⟨behind, "from ".toList ++ (s.literal ++ rest)⟩ =
      specifier kind ⟨"from ".toList.reverse ++ behind, s.literal ++ rest⟩ := by
  have heq : fromClause kind (fuel + 1) 0
      ⟨behind, 'f' :: (['r', 'o', 'm'] ++ ' ' :: (s.literal ++ rest))⟩ = _ :=
    fromClause_eq kind fuel 0 behind (s.literal ++ rest) (by decide) (by decide) (by decide)
  simpa [skipGap_space, s.skipGap_eq, s.head?_literal, q.isQuote_char] using heq

/-- What is no call has a specifier at once or behind a `from`. -/
theorem importClause_eq (hblank : Text.isBlank a = false) (ha : a ∉ ['/', '(', '.']) :
    importClause ⟨behind, ' ' :: a :: rest⟩ =
      if isQuote a then specifier .staticImport ⟨' ' :: behind, a :: rest⟩
      else fromClause .staticImport (rest.length + 2) 0 ⟨' ' :: behind, a :: rest⟩ := by
  simp only [List.mem_cons, List.not_mem_nil, or_false, not_or] at ha
  simp only [importClause, skipGap_space, skipGap_token _ _ hblank ha.1, List.head?_cons]
  split
  case h_1 h => exact absurd (Option.some.inj h) ha.2.1
  case h_2 h => exact absurd (Option.some.inj h) ha.2.2
  case h_3 h => cases h; rfl
  case h_4 h => cases h

theorem importClause_string {q : Quote} (s : StringText q) :
    importClause ⟨behind, ' ' :: (s.literal ++ rest)⟩ =
      specifier .staticImport ⟨' ' :: behind, s.literal ++ rest⟩ := by
  rw [s.literal_append, importClause_eq _ _ (by cases q <;> decide) (by cases q <;> decide),
    if_pos q.isQuote_char]

theorem importClause_from (hblank : Text.isBlank a = false) (ha : a ∉ ['/', '(', '.'])
    (hquote : isQuote a = false) :
    importClause ⟨behind, ' ' :: a :: rest⟩ =
      fromClause .staticImport (rest.length + 2) 0 ⟨' ' :: behind, a :: rest⟩ := by
  rw [importClause_eq _ _ hblank ha, hquote]
  rfl

theorem exportClause_from (ha : a = '*' ∨ a = '\x7b') :
    exportClause ⟨behind, ' ' :: a :: rest⟩ =
      fromClause .exportFrom (rest.length + 2) 0 ⟨' ' :: behind, a :: rest⟩ := by
  have hgap : Cursor.skipGap ⟨' ' :: behind, a :: rest⟩ = ⟨' ' :: behind, a :: rest⟩ := by
    obtain rfl | rfl := ha <;> exact skipGap_token _ _ (by decide) (by decide)
  simp [exportClause, skipGap_space, hgap, ha]

theorem callClause_string {q : Quote} (s : StringText q) :
    callClause kind ⟨behind, '(' :: (s.literal ++ ')' :: rest)⟩ =
      .ok (⟨s.literal.reverse ++ '(' :: behind, ')' :: rest⟩,
        mention (String.ofList s.chars) kind (1 + behind.count '\n')) := by
  have hopen := skipGap_token behind (s.literal ++ ')' :: rest) (a := '(') (by decide) (by decide)
  have hclose := skipGap_token (s.literal.reverse ++ '(' :: behind) rest (a := ')') (by decide)
    (by decide)
  have hline : Cursor.line ⟨'(' :: behind, s.literal ++ ')' :: rest⟩ = 1 + behind.count '\n' := by
    simp [Cursor.line]
  simp [callClause, hopen, Cursor.next, s.skipGap_eq, s.head?_literal, q.isQuote_char,
    s.demandString_eq, hclose, hline]

theorem importClause_call {q : Quote} (s : StringText q) :
    importClause ⟨behind, '(' :: (s.literal ++ ')' :: rest)⟩ =
      callClause .dynamicImport ⟨behind, '(' :: (s.literal ++ ')' :: rest)⟩ := by
  simp [importClause, skipGap_token behind _ (a := '(') (by decide) (by decide)]

end

end Bundler.Source

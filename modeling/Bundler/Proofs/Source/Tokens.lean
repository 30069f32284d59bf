import Bundler.Proofs.Source.Places

/-!
# The tokens of a clause

A clause of `import` or `export` is walked token by token: braces, words, strings within braces,
and marks. Every walk of a scanner is one over such tokens, with blanks and comments between
them, and every such walk is one that the scanner takes.
-/

namespace Bundler.Source

open Cursor

/-- Only blanks and comments stand between two places. -/
def Cursor.Spaced (c d : Cursor) : Prop := ∃ g, Spacing g ∧ c.Over g d

/-- A token of a clause stands between `c` and `d`; of its braces `n` are open before it and `m`
behind it. -/
inductive Token : Nat → Cursor → Nat → Cursor → Prop
  | opening {n : Nat} {c d : Cursor} : c.Over ['\x7b'] d → Token n c (n + 1) d
  | closing {n : Nat} {c d : Cursor} : c.Over ['}'] d → Token n c (n - 1) d
  | word {n : Nat} {w : List Char} {c d : Cursor} : c.Word w d → (w = "from".toList → 0 < n) →
      Token n c n d
  | string {n : Nat} {value : List Char} {c d : Cursor} : 0 < n → c.Literal value d → Token n c n d
  | mark {n : Nat} {a : Char} {c d : Cursor} : c.Over [a] d → c.Lands → a ≠ '\x7b' → a ≠ '}' →
      isQuote a = false → isWordStart a = false → (a = ',' ∨ a = '*' ∨ 0 < n) → Token n c n d

/-- Tokens stand between `c` and `d`, with blanks and comments before each of them. -/
inductive Walks : Nat → Cursor → Nat → Cursor → Prop
  | here (n : Nat) (c : Cursor) : Walks n c n c
  | token {n m k : Nat} {c d e f : Cursor} : Walks n c m d → d.Spaced e → Token m e k f →
      Walks n c k f

namespace Cursor

variable {c d e : Cursor}

theorem Spaced.refl (c : Cursor) : c.Spaced c := ⟨[], .nil, .nil c⟩

theorem Spaced.trans (h₁ : c.Spaced d) (h₂ : d.Spaced e) : c.Spaced e := by
  obtain ⟨g, hg, hover⟩ := h₁
  obtain ⟨g', hg', hover'⟩ := h₂
  exact ⟨g ++ g', hg.append hg', hover.trans hover'⟩

theorem Spaced.onward (h : c.Spaced d) : c.Onward d := by
  obtain ⟨g, -, hover⟩ := h
  exact hover.onward

theorem Spaced.seam (h : c.Spaced d) (hc : c.Seam) : d.Seam := by
  obtain ⟨g, hg, hover⟩ := h
  exact hg.seam hc hover

theorem Spaced.skipGap_eq (h : c.Spaced d) (hd : d.Lands) : c.skipGap = d := by
  obtain ⟨g, hg, hover⟩ := h
  exact Cursor.skipGap_eq hg hover hd

theorem Spaced.skipGap_of_open (h : c.Spaced d) (hd : d.AtOpenComment) : c.skipGap = c.finish := by
  obtain ⟨g, hg, hover⟩ := h
  exact Cursor.skipGap_of_open hg hover hd

theorem Over.next_eq {a : Char} (h : c.Over [a] d) : c.next = d := by
  obtain ⟨behind, rest, rfl, rfl⟩ := h.exists_eq
  rfl

end Cursor

namespace Token

variable {n m : Nat} {c d : Cursor}

theorem exists_over (h : Token n c m d) : ∃ a t, c.Over (a :: t) d := by
  cases h with
  | opening h => exact ⟨_, _, h⟩
  | closing h => exact ⟨_, _, h⟩
  | @word w _ _ h _ =>
    obtain ⟨hw, hover, -⟩ := h
    cases w with
    | nil => cases hw
    | cons a w => exact ⟨a, w, hover⟩
  | string _ h =>
    obtain ⟨q, raw, -, -, hover⟩ := h
    exact ⟨q, _, hover⟩
  | mark h => exact ⟨_, _, h⟩

theorem onward (h : Token n c m d) : c.Onward d := by
  obtain ⟨a, t, hover⟩ := h.exists_over
  exact hover.onward

theorem length_lt (h : Token n c m d) : d.ahead.length < c.ahead.length := by
  obtain ⟨a, t, hover⟩ := h.exists_over
  simp only [hover.ahead, List.cons_append, List.length_cons, List.length_append]
  omega

theorem lands (h : Token n c m d) : c.Lands := by
  cases h with
  | opening h => exact lands_of_token h.ahead (by decide) (by decide)
  | closing h => exact lands_of_token h.ahead (by decide) (by decide)
  | word h _ =>
    obtain ⟨a, rest, ha, hahead⟩ := h.head
    exact lands_of_token hahead (isBlank_of_isWordStart ha) (ne_of_isWordStart ha (by decide))
  | string _ h => exact h.lands
  | mark _ h => exact h

/-- Outside the braces no word runs on where a token ends. -/
theorem seam (h : Token n c m d) (hm : m = 0) : d.Seam := by
  cases h with
  | opening => cases hm
  | closing h => exact Over.seam (t := []) h (by decide)
  | word h _ => exact h.seam
  | string _ h =>
    obtain ⟨q, raw, hq, -, hover⟩ := h
    apply Over.seam (t := q :: raw) hover
    obtain rfl | rfl : q = '"' ∨ q = '\'' := by simpa [isQuote] using hq
    all_goals decide
  | mark h _ _ _ _ _ ha =>
    subst hm
    apply Over.seam (t := []) h
    obtain rfl | rfl | h := ha
    · decide
    · decide
    · cases h

/-- The scanner passes a token. -/
theorem fromClause_eq (h : Token n c.skipGap m d) (kind : DependencyKind) (fuel : Nat) :
    fromClause kind (fuel + 1) n c = fromClause kind fuel m d := by
  rw [fromClause]
  generalize c.skipGap = c at h
  cases h with
  | opening h => simp [h.ahead, h.next_eq]
  | closing h => simp [h.ahead, h.next_eq]
  | @word w _ _ h hfrom =>
    obtain ⟨a, rest, ha, hahead⟩ := h.head
    have hne {b : Char} (hb : isWordStart b = false) : a ≠ b := ne_of_isWordStart ha hb
    have hnot : ¬ (w = "from".toList ∧ n = 0) := by
      intro hw
      have := hfrom hw.1
      omega
    have htake := h.takeWord_eq
    rw [hahead] at htake
    simp only [hahead, hne (b := '\x7b') (by decide), hne (b := '}') (by decide),
      hne (b := ';') (by decide), isQuote_eq_false ha, ha, htake, hnot, if_true, if_false,
      false_and, Bool.false_eq_true]
  | string hn h =>
    obtain ⟨q, rest, hq, hahead⟩ := h.head_eq
    have hne : q ≠ '\x7b' ∧ q ≠ '}' ∧ q ≠ ';' := by
      obtain rfl | rfl : q = '"' ∨ q = '\'' := by simpa [isQuote] using hq
      all_goals decide
    simp [hahead, hne, hq, hn, h.demandString_eq]
  | @mark a _ _ h _ hopen hclose hquote hword ha =>
    have hend : ¬ (a = ';' ∧ n = 0) := by
      rintro ⟨rfl, rfl⟩
      simp at ha
    have hgo : a = ',' ∨ a = '*' ∨ 0 < n := ha
    simp [h.ahead, h.next_eq, hopen, hclose, hquote, hword, hend, hgo]

end Token

namespace Walks

variable {n m : Nat} {c d : Cursor}

theorem onward (h : Walks n c m d) : c.Onward d := by
  induction h with
  | here => exact .refl _
  | token _ hs ht ih => exact (ih.trans hs.onward).trans ht.onward

theorem seam (h : Walks n c m d) (hc : n = 0 → c.Seam) (hm : m = 0) : d.Seam := by
  cases h with
  | here => exact hc hm
  | token _ _ ht => exact ht.seam hm

/-- The scanner passes the tokens of a walk. Each of them takes a character at least, so that the
fuel stays beyond the characters ahead. -/
theorem fromClause_eq (h : Walks n c m d) (kind : DependencyKind) {fuel : Nat}
    (hfuel : c.ahead.length < fuel) :
    ∃ fuel', d.ahead.length < fuel' ∧ fromClause kind fuel n c = fromClause kind fuel' m d := by
  induction h with
  | here => exact ⟨fuel, hfuel, rfl⟩
  | token _ hs ht ih =>
    obtain ⟨fuel', hfuel', heq⟩ := ih hfuel
    obtain ⟨fuel', rfl⟩ : ∃ n, fuel' = n + 1 := ⟨fuel' - 1, by omega⟩
    have hskip := hs.skipGap_eq ht.lands
    refine ⟨fuel', ?_, ?_⟩
    · have hle := hs.onward.length_le
      have hlt := ht.length_lt
      omega
    · rw [heq]
      exact Token.fromClause_eq (by rwa [hskip]) kind fuel'

end Walks

/-- Behind its `from` a clause has its specifier. -/
theorem fromClause_specifier {c e f : Cursor} (hs : c.Spaced e) (hw : e.Word "from".toList f)
    (kind : DependencyKind) (fuel : Nat) :
    fromClause kind (fuel + 1) 0 c =
      if f.skipGap.ahead.head?.any isQuote then specifier kind f.skipGap
      else .ok (f.skipGap, none) := by
  obtain ⟨a, rest, ha, hahead⟩ := hw.head
  have hne {b : Char} (hb : isWordStart b = false) : a ≠ b := ne_of_isWordStart ha hb
  have hskip : c.skipGap = e :=
    hs.skipGap_eq (lands_of_token hahead (isBlank_of_isWordStart ha) (hne (by decide)))
  have htake := hw.takeWord_eq
  rw [hahead] at htake
  rw [fromClause, hskip]
  simp only [hahead, hne (b := '\x7b') (by decide), hne (b := '}') (by decide),
    hne (b := ';') (by decide), isQuote_eq_false ha, ha, htake, if_true, if_false, false_and,
    and_self, Bool.false_eq_true]

end Bundler.Source

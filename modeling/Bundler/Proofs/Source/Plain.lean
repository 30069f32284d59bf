import Bundler.Proofs.Source.Runs
import Bundler.Proofs.Source.Tokens

/-!
# Steps of plain code

What is passed outside templates: blanks, comments and strings mention nothing, and a word that
stands for itself mentions what the clause behind it does.
-/

namespace Bundler.Source

open Cursor

section
variable {undo : Bool} {c d : Cursor}

theorem isPunctuation_of_isBlank {a : Char} (h : Text.isBlank a) : isPunctuation a := by
  have hquote : isQuote a = false := by
    rw [Bool.eq_false_iff]
    intro hquote
    simp [isBlank_of_isQuote hquote] at h
  have hword : isWordStart a = false := by
    rw [Bool.eq_false_iff]
    intro hword
    simp [isBlank_of_isWordStart hword] at h
  have hne {b : Char} (hb : Text.isBlank b = false) : a ≠ b := by
    rintro rfl
    simp [hb] at h
  simp [isPunctuation, hquote, hword, hne (b := '/') (by decide), hne (b := '`') (by decide),
    hne (b := '\x7b') (by decide), hne (b := '}') (by decide)]

theorem steps_spacing {g : List Char} (h : Spacing g) (behind rest : List Char) :
    Steps undo ⟨behind, g ++ rest⟩ [] ⟨g.reverse ++ behind, rest⟩ := by
  induction h generalizing behind with
  | nil => exact .here _
  | @blank a g ha _ ih =>
    have hpass := lexeme_punctuation behind (g ++ rest) (isPunctuation_of_isBlank ha)
    simpa using Steps.step (step_pass hpass) (ih (a :: behind))
  | @line t g ht _ ih =>
    have hline : '\n' ∉ '/' :: '/' :: t := by simp [ht]
    have hskip := skipLine_text behind (g ++ rest) hline
    have hpass : lexeme behind '/' ('/' :: (t ++ '\n' :: (g ++ rest))) =
        .pass ⟨('/' :: '/' :: t).reverse ++ behind, '\n' :: (g ++ rest)⟩ := by
      simpa [lexeme] using hskip
    have hend := lexeme_punctuation (('/' :: '/' :: t).reverse ++ behind) (g ++ rest)
      (show isPunctuation '\n' by decide)
    simpa using Steps.step (step_pass hpass) (.step (step_pass hend) (ih _))
  | @block t g ht _ ih =>
    have hskip := skipBlock?_text ('*' :: '/' :: behind) (g ++ rest) ht
    have hpass : lexeme behind '/' ('*' :: (t ++ '*' :: '/' :: (g ++ rest))) =
        .pass ⟨'/' :: '*' :: (t.reverse ++ '*' :: '/' :: behind), g ++ rest⟩ := by
      simp [lexeme, hskip]
    simpa using Steps.step (step_pass hpass) (ih _)

theorem Cursor.Spaced.steps (h : c.Spaced d) : Steps undo c [] d := by
  obtain ⟨g, hg, hover⟩ := h
  obtain ⟨behind, rest, rfl, rfl⟩ := hover.exists_eq
  exact steps_spacing hg behind rest

theorem Cursor.Literal.step {value : List Char} (h : c.Literal value d) : Step undo c [] d := by
  obtain ⟨q, raw, hq, hraw, hover⟩ := h
  obtain ⟨behind, rest, rfl, rfl⟩ := hover.exists_eq
  have hslash : q ≠ '/' := by
    rintro rfl
    exact absurd hq (by decide)
  apply step_pass
  have hbody := stringBody?_spells hq hraw (q :: behind) rest
  simp [lexeme, hslash, hq, hbody]

theorem step_mark {a : Char} (hover : c.Over [a] d)
    (h : ∀ behind rest, Passes none (lexeme behind a rest) none ⟨a :: behind, rest⟩) :
    Step undo c [] d := by
  obtain ⟨behind, rest, rfl, rfl⟩ := hover.exists_eq
  exact .passes (h behind rest)

/-- What a free word mentions is what its clause mentions. -/
theorem Cursor.Word.step {w : String} {b : Cursor} {m : Option Mention} (h : c.Word w.toList b)
    (hfree : atBoundary c.behind) (hk : keywordClause w b = .ok (d, m)) :
    Step undo c m.toList d := by
  obtain ⟨a, rest, -, hahead⟩ := h.head
  obtain ⟨behind, ahead⟩ := c
  cases hahead
  exact .clause (lexeme_eq_word_iff.mpr ⟨h, hfree.symm⟩) hk

end

end Bundler.Source

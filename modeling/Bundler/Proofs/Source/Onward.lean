import Bundler.Source.Script
import Mathlib.Data.List.Basic

/-!
# A scan only goes on

Whatever a scan passes, it stands in the same text afterwards, with more characters behind it. The
lexemes of a script pass their first character at least, and a clause never goes back.
-/

namespace Bundler.Source

namespace Cursor

/-- `d` is `c` with some of the characters ahead passed. -/
def Onward (c d : Cursor) : Prop :=
  ∃ passed, c.ahead = passed ++ d.ahead ∧ d.behind = passed.reverse ++ c.behind

variable {c d e : Cursor}

theorem Onward.refl (c : Cursor) : c.Onward c := ⟨[], rfl, rfl⟩

theorem Onward.trans (h₁ : c.Onward d) (h₂ : d.Onward e) : c.Onward e := by
  obtain ⟨p, hp, hp'⟩ := h₁
  obtain ⟨q, hq, hq'⟩ := h₂
  exact ⟨p ++ q, by rw [hp, hq, List.append_assoc], by simp [hq', hp']⟩

theorem Onward.step {a : Char} {behind rest : List Char} (h : Onward ⟨a :: behind, rest⟩ d) :
    Onward ⟨behind, a :: rest⟩ d :=
  Onward.trans ⟨[a], rfl, rfl⟩ h

theorem Onward.length_le (h : c.Onward d) : d.ahead.length ≤ c.ahead.length := by
  obtain ⟨p, hp, -⟩ := h
  rw [hp, List.length_append]
  omega

theorem onward_next (c : Cursor) : c.Onward c.next := by
  obtain ⟨behind, _ | ⟨a, rest⟩⟩ := c
  · exact .refl _
  · exact .step (.refl _)

end Cursor

open Cursor

theorem isWordChar_of_isWordStart {a : Char} (h : isWordStart a) : isWordChar a := by
  have hletter : Text.isLetter a → Text.isLetterOrNumeral a := by
    unfold Text.isLetter Text.isLetterOrNumeral
    split <;> simp +contextual [Char.isAlphanum]
  simp only [isWordStart, isWordChar, Bool.or_eq_true] at h ⊢
  exact h.imp_left fun h => h.imp_left hletter

/-! ## Comments, gaps and literals -/

theorem onward_skipLine (behind rest : List Char) :
    Onward ⟨behind, rest⟩ (skipLine behind rest) := by
  fun_induction skipLine behind rest
  case case1 | case2 => exact .refl _
  case case3 ih => exact ih.step

theorem onward_skipBlock? {behind rest : List Char} {c : Cursor}
    (h : skipBlock? behind rest = some c) : Onward ⟨behind, rest⟩ c := by
  fun_induction skipBlock? behind rest
  case case1 => cases h
  case case2 => cases h; exact .step (.step (.refl _))
  case case3 ih => exact (ih h).step

theorem onward_skipGap (gap : Gap) (behind rest : List Char) :
    Onward ⟨behind, rest⟩ (skipGap gap behind rest) := by
  fun_induction skipGap gap behind rest
  case case1 | case5 => exact .refl _
  case case2 ih | case3 ih | case7 ih => exact ih.step.step
  case case4 ih | case6 ih | case8 ih => exact ih.step

theorem onward_stringBody? {quote : Char} {behind rest : List Char} {r : List Char × Cursor}
    (h : stringBody? quote behind rest = some r) : Onward ⟨behind, rest⟩ r.2 := by
  fun_induction stringBody? quote behind rest generalizing r
  case case1 | case2 | case4 => cases h
  case case3 ih =>
    obtain ⟨r', hr', rfl⟩ := Option.map_eq_some_iff.mp h
    exact (ih hr').step.step
  case case5 => cases h; exact .step (.refl _)
  case case6 ih =>
    obtain ⟨r', hr', rfl⟩ := Option.map_eq_some_iff.mp h
    exact (ih hr').step

theorem onward_takeWord (behind rest : List Char) :
    Onward ⟨behind, rest⟩ (takeWord behind rest).2 := by
  fun_induction takeWord behind rest
  case case1 | case3 => exact .refl _
  case case2 ih => exact ih.step

theorem onward_skipRegex? {inSet : Bool} {behind rest : List Char} {c : Cursor}
    (h : skipRegex? inSet behind rest = some c) : Onward ⟨behind, rest⟩ c := by
  fun_induction skipRegex? inSet behind rest
  case case1 | case2 | case3 | case5 => cases h
  case case4 ih => exact (ih h).step.step
  case case6 ih | case7 ih | case9 ih => exact (ih h).step
  case case8 => cases h; exact (onward_takeWord _ _).step

/-- The cursor behind a lexeme. -/
def Lexeme.cursor? : Lexeme → Option Cursor
  | .pass c | .template c | .openBrace c | .closeBrace c | .word _ _ c => some c
  | .fail _ => none

theorem onward_lexeme {behind rest : List Char} {a : Char} {c : Cursor}
    (h : (lexeme behind a rest).cursor? = some c) : Onward ⟨a :: behind, rest⟩ c := by
  have hnext : Onward ⟨a :: behind, rest⟩ ⟨a :: behind, rest⟩ := .refl _
  unfold lexeme at h
  split at h
  case isTrue ha =>
    subst ha
    split at h
    · cases h
      exact onward_skipLine ('/' :: behind) rest
    split at h
    case isTrue hstar =>
      obtain ⟨rest, rfl⟩ : ∃ r, rest = '*' :: r := by
        cases rest <;> simp_all
      split at h <;> cases h
      exact (onward_skipBlock? ‹_›).step
    split at h
    · cases h
      cases hr : skipRegex? false ('/' :: behind) rest with
      | none => exact hnext
      | some c => exact onward_skipRegex? hr
    · cases h
      exact hnext
  split at h
  · cases h
    cases hs : stringBody? a (a :: behind) rest with
    | none => exact hnext
    | some r => exact onward_stringBody? hs
  split at h; · cases h; exact hnext
  split at h; · cases h; exact hnext
  split at h; · cases h; exact hnext
  split at h
  case isTrue hstart =>
    simp only [takeWord, isWordChar_of_isWordStart hstart, if_true] at h
    cases h
    exact onward_takeWord (a :: behind) rest
  · cases h; exact hnext

/-! ## Clauses -/

namespace Cursor

variable {c : Cursor}

theorem onward_blank (c : Cursor) : c.Onward c.skipGap :=
  onward_skipGap .blank c.behind c.ahead

theorem onward_word (c : Cursor) : c.Onward (takeWord c.behind c.ahead).2 :=
  onward_takeWord c.behind c.ahead

theorem onward_string? {r : String × Cursor} (h : c.string? = some r) : c.Onward r.2 := by
  obtain ⟨behind, _ | ⟨quote, rest⟩⟩ := c
  · cases h
  · obtain ⟨r', hr', rfl⟩ := Option.map_eq_some_iff.mp h
    exact (onward_stringBody? hr').step

theorem onward_demandString {r : String × Cursor} (h : c.demandString = .ok r) :
    c.Onward r.2 := by
  unfold demandString at h
  split at h <;> cases h
  exact onward_string? ‹_›

end Cursor

/-- A clause that is read ends at `c` or behind it. -/
def Clause.From (c : Cursor) (clause : Clause) : Prop :=
  ∀ d m, clause = .ok (d, m) → c.Onward d

namespace Clause

variable {c d : Cursor} {clause : Clause} {kind : DependencyKind}

theorem From.mono (h : c.Onward d) (hd : From d clause) : From c clause :=
  fun e m he => h.trans (hd e m he)

theorem from_ok {m : Option Mention} (h : c.Onward d) : From c (.ok (d, m)) := by
  rintro _ _ ⟨⟩
  exact h

theorem from_error (e : ScanError) : From c (.error e) := by
  rintro _ _ ⟨⟩

theorem from_specifier (kind : DependencyKind) (c : Cursor) : From c (specifier kind c) := by
  unfold specifier
  split
  · exact from_ok (onward_demandString ‹_›)
  · exact from_error _

theorem from_fromClause (fuel depth : Nat) (c : Cursor) :
    From c (fromClause kind fuel depth c) := by
  induction fuel generalizing depth c with
  | zero => exact from_ok (.refl c)
  | succ fuel ih =>
    have hstep (depth) (c : Cursor) : From c (fromClause kind fuel depth c.next) :=
      .mono (onward_next c) (ih depth c.next)
    unfold fromClause
    refine .mono (onward_blank c) ?_
    generalize c.skipGap = c
    dsimp only
    split
    · exact from_ok (.refl c)
    split_ifs
    · exact hstep _ c
    · exact hstep _ c
    · exact from_ok (.refl c)
    · split
      · exact .mono (onward_demandString ‹_›) (ih depth _)
      · exact from_error _
    · exact .mono ((onward_word c).trans (onward_blank _)) (from_specifier _ _)
    · exact from_ok ((onward_word c).trans (onward_blank _))
    · exact .mono (onward_word c) (ih depth _)
    · exact hstep _ c
    · exact from_ok (.refl c)

theorem from_callClause (c : Cursor) : From c (callClause kind c) := by
  unfold callClause
  refine .mono (onward_blank c) ?_
  generalize c.skipGap = c
  dsimp only
  split_ifs
  · refine .mono (onward_next c) (.mono (onward_blank c.next) ?_)
    split
    · exact from_error _
    · exact from_ok ((onward_demandString ‹_›).trans (onward_blank _))
  · exact from_ok ((onward_next c).trans (onward_blank c.next))
  · exact from_ok (.refl c)

theorem from_importClause (c : Cursor) : From c (importClause c) := by
  unfold importClause
  refine .mono (onward_blank c) ?_
  dsimp only
  split
  · exact from_callClause _
  · exact from_ok (.refl _)
  · split
    · exact from_specifier _ _
    · exact from_fromClause _ _ _
  · exact from_ok (.refl _)

theorem from_exportClause (c : Cursor) : From c (exportClause c) := by
  unfold exportClause
  refine .mono (onward_blank c) ?_
  dsimp only
  split
  · split
    · exact from_fromClause _ _ _
    · exact from_ok (.refl _)
  · exact from_ok (.refl _)

theorem from_keywordClause (word : String) (c : Cursor) : From c (keywordClause word c) := by
  unfold keywordClause
  split
  · exact from_importClause c
  · exact from_exportClause c
  · exact from_callClause c
  · exact from_ok (.refl c)

end Clause

end Bundler.Source

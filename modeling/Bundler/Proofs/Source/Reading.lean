import Bundler.Proofs.Source.Runs
import Mathlib.Data.List.Infix

/-!
# Reading plain code

What a scan does with a text whose end is in sight: a comment up to its end, a literal up to its
quote, a word up to what is none. `Reads` puts such steps together: it says which mentions are
found between two cursors of plain code.
-/

namespace Bundler.Source

open Cursor

/-! ## Texts whose end is in sight -/

section
variable (behind rest : List Char) {text : List Char}

theorem skipLine_text (h : '\n' ∉ text) :
    skipLine behind (text ++ '\n' :: rest) = ⟨text.reverse ++ behind, '\n' :: rest⟩ := by
  induction text generalizing behind with
  | nil => rfl
  | cons a text ih =>
    have ha : a ≠ '\n' := fun e => h (e ▸ .head _)
    simp [skipLine, ha, ih _ fun hm => h (.tail _ hm)]

/-- Where a text without `x` and `y` behind one another ends, they do not stand so either. -/
theorem not_pair {x y a stop : Char} (h : ¬ [x, y] <:+: a :: text) (hstop : stop ≠ y)
    (r : List Char) (ha : a = x) (hr : text ++ stop :: rest = y :: r) : False := by
  subst ha
  cases text with
  | nil => exact hstop (List.cons.inj hr).1
  | cons b text =>
    cases hr
    exact h ⟨[], text, rfl⟩

theorem skipBlock?_text (h : ¬ ['*', '/'] <:+: text) :
    skipBlock? behind (text ++ '*' :: '/' :: rest) =
      some ⟨'/' :: '*' :: (text.reverse ++ behind), rest⟩ := by
  induction text generalizing behind with
  | nil => rfl
  | cons a text ih =>
    have htext : ¬ ['*', '/'] <:+: text := fun hi => h (hi.trans (List.suffix_cons ..).isInfix)
    rw [List.cons_append, skipBlock?.eq_3 _ _ _ (not_pair _ h (by decide)), ih _ htext]
    simp

theorem stringBody?_text {quote : Char} (hquote : isQuote quote) (hown : quote ∉ text)
    (hplain : '\\' ∉ text) (hline : '\n' ∉ text) :
    stringBody? quote behind (text ++ quote :: rest) =
      some (text, ⟨quote :: (text.reverse ++ behind), rest⟩) := by
  induction text generalizing behind with
  | nil =>
    have h₁ : quote ≠ '\\' := by rintro rfl; simp [isQuote] at hquote
    have h₂ : quote ≠ '\n' := by rintro rfl; simp [isQuote] at hquote
    simp [stringBody?, h₁, h₂]
  | cons a text ih =>
    simp only [List.mem_cons, not_or] at hown hplain hline
    simp [stringBody?, Ne.symm hown.1, Ne.symm hplain.1, Ne.symm hline.1,
      ih _ hown.2 hplain.2 hline.2]

theorem takeWord_text {stop : Char} (h : text.all isWordChar) (hstop : isWordChar stop = false) :
    takeWord behind (text ++ stop :: rest) = (text, ⟨text.reverse ++ behind, stop :: rest⟩) := by
  induction text generalizing behind with
  | nil => simp [takeWord, hstop]
  | cons a text ih =>
    simp only [List.all_cons, Bool.and_eq_true] at h
    simp [takeWord, h.1, ih _ h.2]

/-- The inside of a template without escapes and substitutions is passed. -/
theorem run_template_text (undo : Bool) (opened : Cursor) (hown : '`' ∉ text) (hplain : '\\' ∉ text)
    (hsub : ¬ ['$', '\x7b'] <:+: text) :
    Run undo (.template opened ⟨behind, text ++ '`' :: rest⟩) []
      (.ok ⟨'`' :: (text.reverse ++ behind), rest⟩) := by
  induction text generalizing behind with
  | nil => exact .closed opened behind rest
  | cons a text ih =>
    simp only [List.mem_cons, not_or] at hown hplain
    have hopens : ¬ (a = '$' ∧ (text ++ '`' :: rest).head? = some '\x7b') := by
      rintro ⟨rfl, hbrace⟩
      obtain ⟨r, hr⟩ := List.head?_eq_some_iff.mp hbrace
      exact not_pair rest hsub (by decide) r rfl hr
    have hrest := ih (a :: behind) hown.2 hplain.2 fun hi =>
      hsub (hi.trans (List.suffix_cons ..).isInfix)
    have hinside : Inside ⟨behind, a :: (text ++ '`' :: rest)⟩ ⟨a :: behind, text ++ '`' :: rest⟩ :=
      .plain (Ne.symm hplain.1) (Ne.symm hown.1) hopens
    simpa using Run.inside hinside hrest

end

/-! ## Steps of a scan -/

/-- Characters that begin neither a comment nor a literal nor a word, and are no braces. -/
def isPunctuation (a : Char) : Bool :=
  !(['/', '`', '\x7b', '}'].contains a || isQuote a || isWordStart a)

theorem lexeme_punctuation (behind rest : List Char) {a : Char} (h : isPunctuation a) :
    lexeme behind a rest = .pass ⟨a :: behind, rest⟩ := by
  obtain ⟨⟨hspecial, hquote⟩, hword⟩ :
      (a ∉ ['/', '`', '\x7b', '}'] ∧ isQuote a = false) ∧ isWordStart a = false := by
    simpa [isPunctuation] using h
  simp only [List.mem_cons, List.not_mem_nil, or_false, not_or] at hspecial
  simp [lexeme, hspecial, hquote, hword]

/-- Code that is read from one cursor to another, and what it mentions. A template stands here only
if it has neither escapes nor substitutions. -/
inductive Reads : Cursor → List Mention → Cursor → Prop
  | done (c : Cursor) : Reads c [] c
  | pass {behind rest : List Char} {a : Char} {c d : Cursor} {ms : List Mention} :
      lexeme behind a rest = .pass c → Reads c ms d → Reads ⟨behind, a :: rest⟩ ms d
  | clause {behind rest : List Char} {a : Char} {word : String} {c c' d : Cursor}
      {m : Option Mention} {ms : List Mention} :
      lexeme behind a rest = .word word true c → keywordClause word c = .ok (c', m) →
      Reads c' ms d → Reads ⟨behind, a :: rest⟩ (m.toList ++ ms) d
  | template {behind rest text : List Char} {d : Cursor} {ms : List Mention} :
      '`' ∉ text → '\\' ∉ text → ¬ ['$', '\x7b'] <:+: text →
      Reads ⟨'`' :: (text.reverse ++ '`' :: behind), rest⟩ ms d →
      Reads ⟨behind, '`' :: (text ++ '`' :: rest)⟩ ms d

namespace Reads

variable {c d e : Cursor} {ms ns : List Mention}

theorem trans (h₁ : Reads c ms d) (h₂ : Reads d ns e) : Reads c (ms ++ ns) e := by
  induction h₁ with
  | done => exact h₂
  | pass hl _ ih => exact .pass hl (ih h₂)
  | clause hl hc _ ih =>
    rw [List.append_assoc]
    exact .clause hl hc (ih h₂)
  | template hown hplain hsub _ ih => exact .template hown hplain hsub (ih h₂)

theorem punctuation {text : List Char} (h : text.all isPunctuation) (behind rest : List Char) :
    Reads ⟨behind, text ++ rest⟩ [] ⟨text.reverse ++ behind, rest⟩ := by
  induction text generalizing behind with
  | nil => exact .done _
  | cons a text ih =>
    simp only [List.all_cons, Bool.and_eq_true] at h
    simpa using Reads.pass (lexeme_punctuation behind (text ++ rest) h.1) (ih h.2 (a :: behind))

theorem steps (h : Reads c ms d) (undo : Bool) : Steps undo c ms d := by
  induction h with
  | done c => exact .here c
  | pass hl _ ih => exact .step (step_pass hl) ih
  | clause hl hk _ ih => exact .step (.clause hl hk) ih
  | @template behind rest text d ms hown hplain hsub _ ih =>
    have hinside := run_template_text ('`' :: behind) rest undo
      ⟨behind, '`' :: (text ++ '`' :: rest)⟩ hown hplain hsub
    exact .step (.template rfl hinside) ih

/-- The answer for a text that is read to its end. -/
theorem scanScript_eq {s : String} {behind : List Char}
    (h : Reads (Cursor.start s) ms ⟨behind, []⟩) : scanScript s = .ok (Mention.dedupe ms) :=
  (h.steps false).scanScript_eq rfl

end Reads

end Bundler.Source

import Bundler.Proofs.Source.Keywords
import Bundler.Proofs.Source.Mentions
import Bundler.Proofs.Source.Runs

/-!
# What a scan answers

Every mention of a run stands in the text as a literal behind a keyword form of its kind, and what
is reported are such literals. A fault is one of two: a string of a clause that is not closed, or
a comment that is not closed. Both are told with the place at which they begin.
-/

namespace Bundler.Source

open Cursor

theorem behind_of_lexeme {behind rest : List Char} {a : Char} {w : String} {c : Cursor}
    (h : lexeme behind a rest = .word w true c) : c.Behind w := by
  obtain ⟨hword, hfree⟩ := lexeme_eq_word_iff.mp h
  exact ⟨_, hword, hfree.symm⟩

/-- A place behind `c` where the fault `e` lies. -/
inductive FaultyFrom (c : Cursor) : ScanError → Prop
  | string {q : Cursor} : c.Onward q → q.AwaitsLiteral → q.AtOpenString →
      FaultyFrom c (q.error .unclosedString)
  | comment {q : Cursor} : c.Onward q → q.AtOpenComment →
      FaultyFrom c (q.error .unclosedBlockComment)

theorem FaultyFrom.mono {c d : Cursor} {e : ScanError} (hd : FaultyFrom d e) (h : c.Onward d) :
    FaultyFrom c e := by
  cases hd with
  | string hq hawaits hopen => exact .string (h.trans hq) hawaits hopen
  | comment hq hopen => exact .comment (h.trans hq) hopen

namespace Run

variable {undo : Bool} {st : Stage} {ms : List Mention} {r : Except ScanError Cursor}

/-- What a run mentions stands in the text it goes over. -/
theorem standsAt (h : Run undo st ms r) {m : Mention} (hm : m ∈ ms) :
    ∃ p q, st.cursor.Onward p ∧ StandsAt m p q := by
  have hmono {c d : Cursor} (hc : c.Onward d) (hd : ∃ p q, d.Onward p ∧ StandsAt m p q) :
      ∃ p q, c.Onward p ∧ StandsAt m p q := by
    obtain ⟨p, q, hp, hstands⟩ := hd
    exact ⟨p, q, hc.trans hp, hstands⟩
  induction h with
  | ended | fails | closes | badClause | unclosed | closed => cases hm
  | passes hp _ ih => exact hmono hp.onward.step (ih hm)
  | clause hl hk _ ih =>
    obtain hm | hm := List.mem_append.mp hm
    · obtain rfl := Option.mem_toList.mp hm
      have hsound := Clause.sound_keywordClause (behind_of_lexeme hl)
      obtain ⟨p, q, hp, hstands, -⟩ := hsound.mention _ _ hk
      exact ⟨p, q, (onward_of_lexeme hl rfl).trans hp, hstands⟩
    · exact hmono (onward_of_clause hl hk) (ih hm)
  | template hl hn _ ihn ih =>
    have hc := onward_of_lexeme hl rfl
    obtain hm | hm := List.mem_append.mp hm
    · exact hmono hc (ihn hm)
    · exact hmono (hc.trans (hn.onward rfl)) (ih hm)
  | abandons hl _ _ ihn ih =>
    have hc := onward_of_lexeme hl rfl
    obtain hm | hm := List.mem_append.mp hm
    · cases undo with
      | true => cases hm
      | false => exact hmono hc (ihn hm)
    · exact hmono hc (ih hm)
  | inside hi _ ih => exact hmono hi.onward (ih hm)
  | substitution hn _ ihn ih =>
    obtain hm | hm := List.mem_append.mp hm
    · exact hmono (.step (.step (.refl _))) (ihn hm)
    · exact hmono (hn.onward rfl).step.step (ih hm)
  | badSubstitution _ ihn => exact hmono (.step (.step (.refl _))) (ihn hm)

/-- Code fails at a string of a clause or at a comment. A template that is not closed is no fault,
for it is read again as code. -/
theorem faultyFrom (h : Run undo st ms r) {depth : Option Nat} {c : Cursor} {e : ScanError}
    (hst : st = .code depth c) (hr : r = .error e) : FaultyFrom c e := by
  induction h generalizing depth c with
  | ended | closes => cases hr
  | unclosed | closed | inside | substitution | badSubstitution => cases hst
  | passes hp _ ih =>
    cases hst
    exact (ih rfl hr).mono hp.onward.step
  | fails hl =>
    cases hst
    cases hr
    obtain ⟨hopen, rfl⟩ := lexeme_eq_fail_iff.mp hl
    exact .comment (.refl _) hopen
  | clause hl hk _ ih =>
    cases hst
    exact (ih rfl hr).mono (onward_of_clause hl hk)
  | badClause hl hk =>
    cases hst
    cases hr
    have hsound := Clause.sound_keywordClause (behind_of_lexeme hl)
    obtain ⟨q, hq, hawaits, hopen, rfl⟩ := hsound.error _ hk
    exact .string ((onward_of_lexeme hl rfl).trans hq) hawaits hopen
  | template hl hn _ _ ih =>
    cases hst
    exact (ih rfl hr).mono ((onward_of_lexeme hl rfl).trans (hn.onward rfl))
  | abandons hl _ _ _ ih =>
    cases hst
    exact (ih rfl hr).mono (onward_of_lexeme hl rfl)

end Run

/-! ## Answers -/

/-- The cursor stands in the text. -/
def Cursor.In (c : Cursor) (s : String) : Prop := c.behind.reverse ++ c.ahead = s.toList

theorem in_of_onward {s : String} {c : Cursor} (h : (start s).Onward c) : c.In s := by
  obtain ⟨passed, hahead, hbehind⟩ := h
  simp only [start, List.append_nil] at hahead hbehind
  rw [Cursor.In, hbehind, hahead, List.reverse_reverse]

/-- A mention that stands for literals of the text. -/
structure Reported (s : String) (m : Mention) : Prop where
  nonempty : m.specifier ≠ ""
  /-- The literal on the line of the mention. -/
  first : ∃ p q : Cursor, p.In s ∧ p.Literal m.specifier.toList q ∧ m.line = p.line
  /-- The literal that settles the kind. -/
  introduced : ∃ p q : Cursor, p.In s ∧ p.Literal m.specifier.toList q ∧ Introduced m.kind p

/-- A fault of the text that is told with its place. -/
inductive Faulty (s : String) (e : ScanError) : Prop
  | string {p : Cursor} : p.In s → p.AwaitsLiteral → p.AtOpenString → e.line = p.line →
      e.column = p.column → e.fault.message = "unterminated string literal" → Faulty s e
  | comment {p : Cursor} : p.In s → p.AtOpenComment → e.line = p.line → e.column = p.column →
      e.fault.message = "unterminated block comment" → Faulty s e

theorem FaultyFrom.faulty {s : String} {e : ScanError} (h : FaultyFrom (start s) e) :
    Faulty s e := by
  cases h with
  | string hq hawaits hopen => exact .string (in_of_onward hq) hawaits hopen rfl rfl rfl
  | comment hq hopen => exact .comment (in_of_onward hq) hopen rfl rfl rfl

theorem reported_of_mem_dedupe {s : String} {ms : List Mention} {m : Mention}
    (hms : ∀ m ∈ ms, ∃ p q, (start s).Onward p ∧ StandsAt m p q) (hm : m ∈ Mention.dedupe ms) :
    Reported s m := by
  obtain ⟨⟨k, hk, hspecifier, hline⟩, ⟨l, hl, hspecifier', hkind⟩⟩ :=
    Mention.found_of_mem_dedupe ms hm
  obtain ⟨p, q, hp, hfirst⟩ := hms k hk
  obtain ⟨p', q', hp', hsettles⟩ := hms l hl
  refine ⟨?_, ⟨p, q, in_of_onward hp, ?_, ?_⟩, ⟨p', q', in_of_onward hp', ?_, ?_⟩⟩
  · rw [← hspecifier]
    exact hfirst.nonempty
  · rw [← hspecifier]
    exact hfirst.literal
  · rw [← hline]
    exact hfirst.line
  · rw [← hspecifier']
    exact hsettles.literal
  · rw [← hkind]
    exact hsettles.introduced

/-- What is reported is there, each specifier once, and so is every fault. -/
theorem scanScript_sound (s : String) :
    match scanScript s with
    | .ok ms => (ms.map (·.specifier)).Nodup ∧ ∀ m ∈ ms, Reported s m
    | .error e => Faulty s e := by
  obtain ⟨ms, r, hrun⟩ := Run.exists_run false (.code none (.start s))
  have hanswer := hrun.scanScriptWith_eq
  rw [scanScriptWith_false] at hanswer
  rw [hanswer]
  cases r with
  | ok c =>
    refine ⟨?_, fun m hm => reported_of_mem_dedupe (fun m => hrun.standsAt) hm⟩
    rw [Mention.map_specifier_dedupe]
    exact Mention.nodup_eraseDups _
  | error e => exact (hrun.faultyFrom rfl rfl).faulty

end Bundler.Source

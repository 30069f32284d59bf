import Bundler.Proofs.Source.Keywords
import Bundler.Proofs.Source.Plain

/-!
# Comments that are not closed

A comment that is not closed is a fault where plain code meets it. Between the tokens of a clause
or of a call it is none: there it passes for a blank, the clause ends with the text, and the scan
is answered with what it had found before.
-/

namespace Bundler.Source

open Cursor

/-- The places between the tokens of what is read behind a keyword that ends at `b`. -/
inductive Between (keyword : String) (b : Cursor) : Cursor → Prop
  | keyword : keyword ∈ ["import", "export", "require"] → Between keyword b b
  | clause {kind : DependencyKind} {n : Nat} {d : Cursor} : fromKind? keyword = some kind →
      b.InClause kind n d → Between keyword b d
  | specifier {kind : DependencyKind} {c d e : Cursor} : fromKind? keyword = some kind →
      b.InClause kind 0 c → c.Spaced d → d.Word "from".toList e → Between keyword b e
  | argument {kind : DependencyKind} {c d : Cursor} : callKind? keyword = some kind →
      b.Spaced c → c.Over ['('] d → Between keyword b d
  | closing {kind : DependencyKind} {value : List Char} {c d e f : Cursor} :
      callKind? keyword = some kind → b.Spaced c → c.Over ['('] d → d.Spaced e →
      e.Literal value f → Between keyword b f

theorem Cursor.Spaced.finish_eq {c d : Cursor} (h : c.Spaced d) : d.finish = c.finish := by
  obtain ⟨g, -, hover⟩ := h
  exact hover.finish_eq

section
variable {keyword : String} {b p q : Cursor}

/-- A clause in which a comment is not closed ends with the text and mentions nothing. -/
theorem Between.keywordClause_eq (h : Between keyword b p) (hs : p.Spaced q)
    (hq : q.AtOpenComment) : keywordClause keyword b = .ok (q.finish, none) := by
  have hskip : p.skipGap = q.finish := by rw [hs.skipGap_of_open hq, hs.finish_eq]
  cases h with
  | keyword hkeyword =>
    simp only [List.mem_cons, List.not_mem_nil, or_false] at hkeyword
    obtain rfl | rfl | rfl := hkeyword
    · simp [keywordClause, importClause, hskip, finish]
    · simp [keywordClause, exportClause, hskip, finish]
    · simp [keywordClause, callClause, hskip, finish]
  | clause hkind hin =>
    obtain ⟨fuel, hfuel, heq⟩ := hin.keywordClause_eq hkind
    obtain ⟨fuel, rfl⟩ := Nat.exists_eq_add_one_of_ne_zero (Nat.ne_zero_of_lt hfuel)
    rw [heq, fromClause, hskip]
    rfl
  | specifier hkind hin hspaced hword =>
    obtain ⟨fuel, hfuel, heq⟩ := hin.keywordClause_eq hkind
    obtain ⟨fuel, rfl⟩ := Nat.exists_eq_add_one_of_ne_zero (Nat.ne_zero_of_lt hfuel)
    rw [heq, fromClause_specifier hspaced hword, hskip]
    rfl
  | argument hkind hspaced hparen =>
    rw [keywordClause_call hkind hspaced hparen, callArgument, hskip]
    rfl
  | closing hkind hspaced hparen harg hliteral =>
    rw [keywordClause_call hkind hspaced hparen, callArgument, harg.skipGap_eq hliteral.lands]
    simp only [hliteral.head, hliteral.demandString_eq, hskip]
    rfl

/-- A scan of the text, which has found `ms`, is between the tokens of a clause or of a call, and
only blanks and comments stand before `q`. -/
def InGap (s : String) (ms : List Mention) (q : Cursor) : Prop :=
  ∃ (keyword : String) (c b p : Cursor), Steps false (start s) ms c ∧
    c.Word keyword.toList b ∧ atBoundary c.behind ∧ Between keyword b p ∧ p.Spaced q

theorem run_openComment (hq : q.AtOpenComment) :
    Run false (.code none q) [] (.error (q.error .unclosedBlockComment)) := by
  obtain ⟨behind, ahead⟩ := q
  have hopen := hq
  obtain ⟨u, rfl, -⟩ := hopen
  exact .fails (lexeme_eq_fail_iff.mpr ⟨hq, rfl⟩)

theorem InGap.steps {s : String} {ms : List Mention} (h : InGap s ms q) (hq : q.AtOpenComment) :
    Steps false (start s) ms q.finish := by
  obtain ⟨keyword, c, b, p, hsteps, hword, hb, hbetween, hspaced⟩ := h
  have hclause := hbetween.keywordClause_eq hspaced hq
  simpa using hsteps.trans (.step (hword.step hb hclause) (.here _))

/-- What becomes of a comment that is not closed: in plain code it is a fault, told with its place;
in a clause or a call the scan ends with what it had found. -/
theorem scanScript_openComment {s : String} (hq : q.AtOpenComment) :
    (∀ ms, Steps false (start s) ms q →
      scanScript s = .error ⟨.unclosedBlockComment, q.line, q.column⟩) ∧
    ∀ ms, InGap s ms q → scanScript s = .ok (Mention.dedupe ms) := by
  constructor
  · intro ms hsteps
    rw [← scanScriptWith_false, (hsteps.run (run_openComment hq)).scanScriptWith_eq]
    rfl
  · intro ms hgap
    exact (hgap.steps hq).scanScript_eq rfl

/-- At once in a text, and behind the name that a clause binds. -/
theorem scanScript_openComment_atOnce_and_inClause :
    scanScript "/* import 'x'" = .error ⟨.unclosedBlockComment, 1, 1⟩ ∧
      scanScript "import a /* from 'x'" = .ok [] := by
  constructor
  · have hopen : (start "/* import 'x'").AtOpenComment :=
      ⟨" import 'x'".toList, rfl, by decide⟩
    exact (scanScript_openComment hopen).1 [] (.here _)
  · let b : Cursor := ⟨"import".toList.reverse, " a /* from 'x'".toList⟩
    let c : Cursor := ⟨"import ".toList.reverse, "a /* from 'x'".toList⟩
    let p : Cursor := ⟨"import a".toList.reverse, " /* from 'x'".toList⟩
    let q : Cursor := ⟨"import a ".toList.reverse, "/* from 'x'".toList⟩
    have hkeyword : (start "import a /* from 'x'").Word "import".toList b :=
      ⟨by decide, ⟨rfl, rfl⟩, by decide⟩
    have hbc : b.Spaced c := ⟨[' '], .blank (by decide) .nil, rfl, rfl⟩
    have hword : c.Word ['a'] p := ⟨by decide, ⟨rfl, rfl⟩, by decide⟩
    have hname : Token 0 c 0 p := .word hword (by decide)
    have hwalk : Walks 0 c 0 p := .token (.here 0 c) (.refl c) hname
    have hclause : b.InClause .staticImport 0 p :=
      ⟨c, hbc, hname.lands, ⟨'a', rfl, by simp [Begins, isQuote]⟩, hwalk⟩
    have hpq : p.Spaced q := ⟨[' '], .blank (by decide) .nil, rfl, rfl⟩
    have hopen : q.AtOpenComment := ⟨" from 'x'".toList, rfl, by decide⟩
    exact (scanScript_openComment hopen).2 []
      ⟨"import", _, b, p, .here _, hkeyword, rfl, .clause rfl hclause, hpq⟩

end

end Bundler.Source

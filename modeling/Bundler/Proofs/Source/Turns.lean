import Bundler.Proofs.Source.Places
import Bundler.Proofs.Source.Runs

/-!
# The loops of a scan end

A scan consists of loops: over the blanks and comments of a gap, the characters of a regular
expression, the tokens of a clause, the lexemes of code and the inside of a template. For each of
them it is said what one turn does. A turn leaves the loop or goes strictly on in the text, also
where a literal was not closed and is read again as code; so each loop ends, and its answer is what
the scanner computes. Code and templates ask each other only about texts that are strictly shorter.
-/

namespace Bundler.Source

open Cursor

/-! ## Loops -/

/-- What a turn of a loop comes to: the next turn begins in a state, or the loop is left with an
answer. -/
inductive Turn (σ α : Type)
  | again (s : σ)
  | leave (a : α)

/-- After finitely many turns the loop is left with an answer. -/
inductive Turn.Ends {σ α : Type} (turn : σ → Turn σ α) : σ → α → Prop
  | leave {s : σ} {a : α} : turn s = .leave a → Ends turn s a
  | again {s s' : σ} {a : α} : turn s = .again s' → Ends turn s' a → Ends turn s a

/-- `d` is `c` with at least one of the characters ahead passed. -/
structure Cursor.Before (c d : Cursor) : Prop where
  onward : c.Onward d
  shorter : d.ahead.length < c.ahead.length

/-- The turns of a loop go strictly on, and `run` gives the answers that they lead to. -/
structure Loop {σ α : Type} (cursor : σ → Cursor) (turn : σ → Turn σ α) (run : σ → α) : Prop where
  before : ∀ s s', turn s = .again s' → (cursor s).Before (cursor s')
  ends : ∀ s, Turn.Ends turn s (run s)

/-- The answer behind a turn. -/
def Turn.answer {σ α : Type} (run : σ → α) : Turn σ α → α
  | .again s => run s
  | .leave a => a

/-- What is computed turn by turn is the answer of the loop, if the turns go strictly on. -/
theorem Loop.of_answer {σ α : Type} {cursor : σ → Cursor} {turn : σ → Turn σ α} {run : σ → α}
    (hbefore : ∀ s s', turn s = .again s' → (cursor s).Before (cursor s'))
    (hrun : ∀ s, run s = (turn s).answer run) : Loop cursor turn run := by
  refine ⟨hbefore, fun s => ?_⟩
  induction hn : (cursor s).ahead.length using Nat.strongRecOn generalizing s with
  | ind n ih =>
    rw [hrun s]
    cases ht : turn s with
    | leave a => exact .leave ht
    | again s' => exact .again ht (ih _ (hn ▸ (hbefore s s' ht).shorter) s' rfl)

theorem Turn.answer_congr {σ α : Type} {run run' : σ → α} {t : Turn σ α}
    (h : ∀ s, t = .again s → run s = run' s) : t.answer run = t.answer run' := by
  cases t with
  | again s => exact h s rfl
  | leave a => rfl

namespace Cursor

variable {c d e : Cursor}

theorem before_step {a : Char} {behind rest : List Char} (h : Onward ⟨a :: behind, rest⟩ d) :
    Before ⟨behind, a :: rest⟩ d :=
  ⟨h.step, Nat.lt_succ_of_le h.length_le⟩

theorem Onward.before (h : c.Onward d) (h' : d.Before e) : c.Before e :=
  ⟨h.trans h'.onward, Nat.lt_of_lt_of_le h'.shorter h.length_le⟩

theorem Before.onward_trans (h : c.Before d) (h' : d.Onward e) : c.Before e :=
  ⟨h.onward.trans h', Nat.lt_of_le_of_lt h'.length_le h.shorter⟩

theorem before_next {a : Char} {rest : List Char} (h : c.ahead = a :: rest) : c.Before c.next := by
  obtain ⟨behind, ahead⟩ := c
  obtain rfl : ahead = a :: rest := h
  exact before_step (.refl _)

end Cursor

/-! ## Gaps -/

/-- A turn in a gap passes a blank or a comment. A comment that is not closed takes all that is
left. -/
def gapTurn (c : Cursor) : Turn Cursor Cursor :=
  match c.ahead with
  | '/' :: '/' :: _ => .again (skipLine c.behind c.ahead)
  | '/' :: '*' :: rest =>
    match skipBlock? ('*' :: '/' :: c.behind) rest with
    | some d => .again d
    | none => .leave c.finish
  | a :: _ => if Text.isBlank a then .again c.next else .leave c
  | [] => .leave c

theorem skipGap_lineComment (behind rest : List Char) :
    Source.skipGap .lineComment behind rest = (skipLine behind rest).skipGap := by
  fun_induction skipLine behind rest with
  | case1 behind => rfl
  | case2 behind rest =>
    rw [Source.skipGap, if_pos rfl, Cursor.skipGap]
    exact (skipGap_blank behind rest (a := '\n') (by decide)).symm
  | case3 behind a rest ha ih => rw [Source.skipGap, if_neg ha, ih]

theorem skipGap_blockComment (behind rest : List Char) :
    Source.skipGap .blockComment behind rest =
      match skipBlock? behind rest with
      | some d => d.skipGap
      | none => ⟨rest.reverse ++ behind, []⟩ := by
  fun_induction skipBlock? behind rest with
  | case1 behind => rfl
  | case2 behind rest => rfl
  | case3 behind a rest hpair ih =>
    rw [skipGap.eq_7 _ _ _ hpair, ih]
    cases skipBlock? (a :: behind) rest <;> simp

theorem before_gapTurn {c d : Cursor} (h : gapTurn c = .again d) : c.Before d := by
  obtain ⟨behind, ahead⟩ := c
  unfold gapTurn at h
  dsimp only at h
  split at h
  case h_1 rest =>
    cases h
    exact before_step (onward_skipLine ('/' :: behind) ('/' :: rest))
  case h_2 rest =>
    split at h
    case h_1 hd =>
      cases h
      exact before_step (onward_skipBlock? hd).step
    case h_2 => cases h
  case h_3 a rest _ _ =>
    split at h
    · cases h
      exact before_step (.refl _)
    · cases h
  case h_4 => cases h

theorem skipGap_turn (c : Cursor) : c.skipGap = (gapTurn c).answer Cursor.skipGap := by
  obtain ⟨behind, ahead⟩ := c
  unfold gapTurn
  dsimp only
  split
  case h_1 rest => exact skipGap_lineComment ('/' :: '/' :: behind) rest
  case h_2 rest =>
    rw [Cursor.skipGap, Source.skipGap, skipGap_blockComment]
    cases skipBlock? ('*' :: '/' :: behind) rest <;> simp [Turn.answer, finish]
  case h_3 a rest hline hblock =>
    rw [Cursor.skipGap, skipGap.eq_4 _ _ _ hline hblock]
    split <;> rfl
  case h_4 => rfl

theorem loop_gap : Loop id gapTurn Cursor.skipGap :=
  .of_answer (fun _ _ => before_gapTurn) skipGap_turn

/-! ## Regular expressions -/

/-- A turn in a regular expression, of which a set may be open, passes a character or an escape. The
end of the line, or of the text, breaks it off. -/
def regexTurn (s : Bool × Cursor) : Turn (Bool × Cursor) (Option Cursor) :=
  let (inSet, c) := s
  match c.ahead with
  | [] => .leave none
  | a :: _ =>
    if a = '\n' then .leave none
    else if a = '\\' then
      .again (inSet, if c.next.ahead.head?.any (· ≠ '\n') then c.next.next else c.next)
    else if a = '[' then .again (true, c.next)
    else if a = ']' then .again (false, c.next)
    else if a = '/' && !inSet then .leave (some (takeWord c.next.behind c.next.ahead).2)
    else .again (inSet, c.next)

theorem before_regexTurn {s s' : Bool × Cursor} (h : regexTurn s = .again s') :
    s.2.Before s'.2 := by
  obtain ⟨inSet, behind, ahead⟩ := s
  unfold regexTurn at h
  cases ahead with
  | nil => cases h
  | cons a rest =>
    have hnext : Before ⟨behind, a :: rest⟩ ⟨a :: behind, rest⟩ := before_step (.refl _)
    dsimp only at h
    split_ifs at h
    · cases h
      exact hnext.onward_trans (onward_next _)
    all_goals cases h; exact hnext

theorem skipRegex?_turn (s : Bool × Cursor) :
    skipRegex? s.1 s.2.behind s.2.ahead =
      (regexTurn s).answer fun s => skipRegex? s.1 s.2.behind s.2.ahead := by
  obtain ⟨inSet, behind, ahead⟩ := s
  unfold regexTurn
  cases ahead with
  | nil => rfl
  | cons a rest =>
    by_cases hescape : a = '\\'
    · subst hescape
      cases rest with
      | nil => rfl
      | cons b rest => by_cases hb : b = '\n' <;> simp [skipRegex?, Turn.answer, next, hb]
    · rw [skipRegex?.eq_4 _ _ _ _ (fun h _ => hescape h) (fun _ _ h _ => hescape h)]
      simp only [hescape, if_false]
      split_ifs <;> rfl

theorem loop_regex : Loop (·.2) regexTurn fun s => skipRegex? s.1 s.2.behind s.2.ahead :=
  .of_answer (fun _ _ => before_regexTurn) skipRegex?_turn

/-! ## Clauses -/

/-- A turn in a clause, of which some braces are open, passes a gap and a token. The word `from`,
a `;` and what cannot stand in a clause end it. -/
def clauseTurn (kind : DependencyKind) (s : Nat × Cursor) : Turn (Nat × Cursor) Clause :=
  let (depth, c) := s
  let c := c.skipGap
  match c.ahead with
  | [] => .leave (.ok (c, none))
  | a :: _ =>
    if a = '\x7b' then .again (depth + 1, c.next)
    else if a = '}' then .again (depth - 1, c.next)
    else if a = ';' ∧ depth = 0 then .leave (.ok (c, none))
    else if isQuote a ∧ 0 < depth then
      match c.demandString with
      | .ok (_, c') => .again (depth, c')
      | .error e => .leave (.error e)
    else if isWordStart a then
      let (word, c') := takeWord c.behind c.ahead
      if word = "from".toList ∧ depth = 0 then
        let c' := c'.skipGap
        .leave (if c'.ahead.head?.any isQuote then specifier kind c' else .ok (c', none))
      else .again (depth, c')
    else if a = ',' ∨ a = '*' ∨ 0 < depth then .again (depth, c.next)
    else .leave (.ok (c, none))

theorem fromClause_turn (kind : DependencyKind) (fuel depth : Nat) (c : Cursor) :
    fromClause kind (fuel + 1) depth c =
      (clauseTurn kind (depth, c)).answer fun s => fromClause kind fuel s.1 s.2 := by
  rw [fromClause, clauseTurn]
  dsimp only
  generalize c.skipGap = c
  obtain ⟨behind, _ | ⟨a, rest⟩⟩ := c
  · rfl
  dsimp only
  split_ifs
  · rfl
  · rfl
  · rfl
  · cases demandString ⟨behind, a :: rest⟩ <;> rfl
  all_goals rfl

theorem before_demandString {a : Char} {rest : List Char} {c : Cursor} {r : String × Cursor}
    (hc : c.ahead = a :: rest) (h : c.demandString = .ok r) : c.Before r.2 := by
  obtain ⟨behind, ahead⟩ := c
  obtain rfl : ahead = a :: rest := hc
  unfold demandString at h
  split at h
  case h_1 hs =>
    cases h
    obtain ⟨r', hr', rfl⟩ := Option.map_eq_some_iff.mp hs
    exact before_step (onward_stringBody? hr')
  case h_2 => cases h

theorem before_takeWord {a : Char} {behind rest : List Char} (ha : isWordStart a) :
    Before ⟨behind, a :: rest⟩ (takeWord behind (a :: rest)).2 := by
  rw [takeWord, if_pos (isWordChar_of_isWordStart ha)]
  exact before_step (onward_takeWord (a :: behind) rest)

theorem before_clauseTurn {kind : DependencyKind} {s s' : Nat × Cursor}
    (h : clauseTurn kind s = .again s') : s.2.Before s'.2 := by
  obtain ⟨depth, c⟩ := s
  unfold clauseTurn at h
  refine (onward_blank c).before ?_
  dsimp only at h
  generalize c.skipGap = c at h
  split at h
  · cases h
  case h_2 a rest hc =>
    have hnext := before_next hc
    split_ifs at h
    · cases h; exact hnext
    · cases h; exact hnext
    · split at h <;> cases h
      exact before_demandString hc ‹_›
    · obtain ⟨behind, ahead⟩ := c
      obtain rfl : ahead = a :: rest := hc
      cases h
      exact before_takeWord ‹_›
    · cases h; exact hnext

/-- The fuel that a clause begins with suffices for its turns. -/
theorem loop_clause (kind : DependencyKind) : Loop (·.2) (clauseTurn kind) fun s =>
    fromClause kind (s.2.ahead.length + 1) s.1 s.2 := by
  refine ⟨fun _ _ => before_clauseTurn, fun s => ?_⟩
  suffices h : ∀ fuel, s.2.ahead.length < fuel →
      Turn.Ends (clauseTurn kind) s (fromClause kind fuel s.1 s.2) from h _ (Nat.lt_succ_self _)
  intro fuel hfuel
  induction fuel generalizing s with
  | zero => cases hfuel
  | succ fuel ih =>
    rw [fromClause_turn]
    cases ht : clauseTurn kind s with
    | leave a => exact .leave ht
    | again s' =>
      have hlt := (before_clauseTurn ht).shorter
      exact .again ht (ih s' (by omega))

/-! ## Code and templates -/

/-- Where a scan of code stands, with the braces of a substitution that are open and what was
found. -/
structure CodeState where
  depth : Option Nat
  cursor : Cursor
  found : List Mention

/-- The scan of code from a state on. -/
def codeScan (s : CodeState) : Scan :=
  scanCode (s.cursor.ahead.length + 1) s.depth s.cursor s.found

/-- The scan of the inside of a template that was opened at a cursor. -/
def templateScan (opened : Cursor) (s : Cursor × List Mention) : Scan :=
  scanTemplate (s.1.ahead.length + 1) opened s.1 s.2

/-- A turn in code passes a lexeme and the clause of a keyword. Templates are scanned by
`template`; one that is not closed is abandoned, and its inside is read again. -/
def codeTurn (template : Cursor → Cursor × List Mention → Scan) (s : CodeState) :
    Turn CodeState Scan :=
  let ⟨depth, c, found⟩ := s
  match c.ahead with
  | [] => .leave ⟨found, .at c⟩
  | a :: rest =>
    match lexeme c.behind a rest with
    | .pass c' => .again ⟨depth, c', found⟩
    | .fail e => .leave ⟨found, .failed e⟩
    | .openBrace c' => .again ⟨depth.map (· + 1), c', found⟩
    | .closeBrace c' =>
      match depth with
      | some 0 => .leave ⟨found, .at c'⟩
      | _ => .again ⟨depth.map (· - 1), c', found⟩
    | .template inside =>
      match template c (inside, found) with
      | ⟨found', .at c'⟩ => .again ⟨depth, c', found'⟩
      | ⟨found', .failed _⟩ => .again ⟨depth, inside, found'⟩
      | ⟨found', .outOfFuel⟩ => .leave ⟨found', .outOfFuel⟩
    | .word w free c' =>
      if free then
        match keywordClause w c' with
        | .ok (c'', m) => .again ⟨depth, c'', found ++ m.toList⟩
        | .error e => .leave ⟨found, .failed e⟩
      else .again ⟨depth, c', found⟩

/-- A turn inside a template passes a character, an escape or a substitution, which is scanned by
`code`. -/
def templateTurn (code : CodeState → Scan) (opened : Cursor) (s : Cursor × List Mention) :
    Turn (Cursor × List Mention) Scan :=
  let (c, found) := s
  match c.ahead with
  | [] => .leave ⟨found, .failed (opened.error .unclosedTemplate)⟩
  | '\\' :: _ => .again (c.next.next, found)
  | '`' :: _ => .leave ⟨found, .at c.next⟩
  | '$' :: '\x7b' :: _ =>
    match code ⟨some 0, c.next.next, found⟩ with
    | ⟨found', .at c'⟩ => .again (c', found')
    | failed => .leave failed
  | _ :: _ => .again (c.next, found)

theorem scanCode_turn (fuel : Nat) (s : CodeState) :
    scanCode (fuel + 1) s.depth s.cursor s.found =
      (codeTurn (fun opened t => scanTemplate fuel opened t.1 t.2) s).answer fun s =>
        scanCode fuel s.depth s.cursor s.found := by
  obtain ⟨depth, ⟨behind, ahead⟩, found⟩ := s
  rw [scanCode, codeTurn]
  cases ahead with
  | nil => rfl
  | cons a rest =>
    dsimp only
    cases lexeme behind a rest with
    | pass | fail | openBrace => rfl
    | closeBrace c => rcases depth with _ | _ | n <;> rfl
    | template inside =>
      dsimp only
      rcases scanTemplate fuel ⟨behind, a :: rest⟩ inside found with ⟨found', _ | _ | _⟩ <;> rfl
    | word w free c =>
      dsimp only
      split
      · cases keywordClause w c <;> rfl
      · rfl

theorem scanTemplate_turn (fuel : Nat) (opened : Cursor) (s : Cursor × List Mention) :
    scanTemplate (fuel + 1) opened s.1 s.2 =
      (templateTurn (fun t => scanCode fuel t.depth t.cursor t.found) opened s).answer fun s =>
        scanTemplate fuel opened s.1 s.2 := by
  obtain ⟨⟨behind, ahead⟩, found⟩ := s
  rw [scanTemplate, templateTurn]
  dsimp only
  split
  case h_4 rest =>
    rcases scanCode fuel (some 0) _ found with ⟨found', _ | _ | _⟩ <;> rfl
  case h_5 => simp_all [Turn.answer]
  all_goals rfl

/-- A turn of code hears of templates only what their scan from a later cursor gives. -/
theorem codeTurn_congr {template template' : Cursor → Cursor × List Mention → Scan} {s : CodeState}
    (h : ∀ inside, s.cursor.Before inside →
      template s.cursor (inside, s.found) = template' s.cursor (inside, s.found)) :
    codeTurn template s = codeTurn template' s := by
  obtain ⟨depth, ⟨behind, ahead⟩, found⟩ := s
  rw [codeTurn, codeTurn]
  cases ahead with
  | nil => rfl
  | cons a rest =>
    dsimp only
    cases hl : lexeme behind a rest with
    | template inside =>
      have hinside : Before ⟨behind, a :: rest⟩ inside :=
        before_step (onward_lexeme (by rw [hl]; rfl))
      dsimp only
      rw [h inside hinside]
    | pass | fail | openBrace | closeBrace | word => rfl

/-- A turn inside a template hears of code only what its scan from a later cursor gives. -/
theorem templateTurn_congr {code code' : CodeState → Scan} (opened : Cursor)
    {s : Cursor × List Mention}
    (h : ∀ t, s.1.Before t.cursor → code t = code' t) :
    templateTurn code opened s = templateTurn code' opened s := by
  obtain ⟨⟨behind, ahead⟩, found⟩ := s
  rw [templateTurn, templateTurn]
  dsimp only
  split
  case h_4 rest =>
    rw [h ⟨some 0, next (next ⟨behind, '$' :: '\x7b' :: rest⟩), found⟩
      (before_step (.step (.refl _)))]
  all_goals rfl

theorem exists_codeScan (s : CodeState) : ∃ ms r,
    (∀ fuel, s.cursor.ahead.length < fuel →
      scanCode fuel s.depth s.cursor s.found = ⟨s.found ++ ms, .ofEnd r⟩) ∧
      ∀ d, r = .ok d → s.cursor.Onward d := by
  obtain ⟨ms, r, h⟩ := Run.exists_run false (.code s.depth s.cursor)
  refine ⟨ms, r, fun fuel hfuel => ?_, fun d hd => h.onward hd⟩
  rw [← (scanWith_false fuel).1]
  exact h.scan_eq hfuel s.found

theorem exists_templateScan (opened : Cursor) (s : Cursor × List Mention) : ∃ ms r,
    (∀ fuel, s.1.ahead.length < fuel →
      scanTemplate fuel opened s.1 s.2 = ⟨s.2 ++ ms, .ofEnd r⟩) ∧
      ∀ d, r = .ok d → s.1.Onward d := by
  obtain ⟨ms, r, h⟩ := Run.exists_run false (.template opened s.1)
  refine ⟨ms, r, fun fuel hfuel => ?_, fun d hd => h.onward hd⟩
  rw [← (scanWith_false fuel).2]
  exact h.scan_eq hfuel s.2

/-- Fuel beyond the characters ahead is as good as any other. -/
theorem scanCode_eq_codeScan {s : CodeState} {fuel : Nat} (h : s.cursor.ahead.length < fuel) :
    scanCode fuel s.depth s.cursor s.found = codeScan s := by
  obtain ⟨ms, r, hscan, -⟩ := exists_codeScan s
  rw [codeScan, hscan fuel h, hscan _ (Nat.lt_succ_self _)]

theorem scanTemplate_eq_templateScan (opened : Cursor) {s : Cursor × List Mention} {fuel : Nat}
    (h : s.1.ahead.length < fuel) : scanTemplate fuel opened s.1 s.2 = templateScan opened s := by
  obtain ⟨ms, r, hscan, -⟩ := exists_templateScan opened s
  rw [templateScan, hscan fuel h, hscan _ (Nat.lt_succ_self _)]

/-- Code is scanned to its end. -/
theorem codeScan_ne_outOfFuel (s : CodeState) : (codeScan s).halt ≠ .outOfFuel := by
  obtain ⟨ms, r, hscan, -⟩ := exists_codeScan s
  rw [codeScan, hscan _ (Nat.lt_succ_self _)]
  cases r <;> nofun

theorem onward_codeScan {s : CodeState} {found : List Mention} {d : Cursor}
    (h : codeScan s = ⟨found, .at d⟩) : s.cursor.Onward d := by
  obtain ⟨ms, r, hscan, honward⟩ := exists_codeScan s
  rw [codeScan, hscan _ (Nat.lt_succ_self _)] at h
  cases r <;> cases h
  exact honward _ rfl

theorem onward_templateScan {opened : Cursor} {s : Cursor × List Mention} {found : List Mention}
    {d : Cursor} (h : templateScan opened s = ⟨found, .at d⟩) : s.1.Onward d := by
  obtain ⟨ms, r, hscan, honward⟩ := exists_templateScan opened s
  rw [templateScan, hscan _ (Nat.lt_succ_self _)] at h
  cases r <;> cases h
  exact honward _ rfl

theorem before_codeTurn {s s' : CodeState} (h : codeTurn templateScan s = .again s') :
    s.cursor.Before s'.cursor := by
  obtain ⟨depth, ⟨behind, ahead⟩, found⟩ := s
  rw [codeTurn] at h
  cases ahead with
  | nil => cases h
  | cons a rest =>
    have hpast {c : Cursor} {l : Lexeme} (hl : lexeme behind a rest = l)
        (hc : l.cursor? = some c) : Before ⟨behind, a :: rest⟩ c :=
      before_step (onward_lexeme (hl ▸ hc))
    dsimp only at h
    cases hl : lexeme behind a rest with
    | fail e => rw [hl] at h; cases h
    | pass c | openBrace c =>
      rw [hl] at h
      cases h
      exact hpast hl rfl
    | closeBrace c =>
      rw [hl] at h
      dsimp only at h
      split at h <;> cases h
      exact hpast hl rfl
    | template inside =>
      rw [hl] at h
      dsimp only at h
      split at h <;> cases h
      case h_1 hscan => exact (hpast hl rfl).onward_trans (onward_templateScan hscan)
      case h_2 => exact hpast hl rfl
    | word w free c =>
      rw [hl] at h
      dsimp only at h
      split at h
      · split at h <;> cases h
        case h_1 hclause =>
          exact (hpast hl rfl).onward_trans (Clause.from_keywordClause w c _ _ hclause)
      · cases h
        exact hpast hl rfl

theorem before_templateTurn {opened : Cursor} {s s' : Cursor × List Mention}
    (h : templateTurn codeScan opened s = .again s') : s.1.Before s'.1 := by
  obtain ⟨⟨behind, ahead⟩, found⟩ := s
  rw [templateTurn] at h
  dsimp only at h
  split at h
  case h_1 => cases h
  case h_2 rest =>
    cases h
    exact before_step (onward_next ⟨'\\' :: behind, rest⟩)
  case h_3 => cases h
  case h_4 rest =>
    split at h <;> cases h
    case h_1 hscan => exact before_step (.step (onward_codeScan hscan))
  case h_5 => cases h; exact before_step (.refl _)

theorem loop_code : Loop CodeState.cursor (codeTurn templateScan) codeScan := by
  refine .of_answer (fun _ _ => before_codeTurn) fun s => ?_
  rw [codeScan, scanCode_turn, codeTurn_congr fun inside hinside =>
    scanTemplate_eq_templateScan _ hinside.shorter]
  exact Turn.answer_congr fun s' hs' => scanCode_eq_codeScan (before_codeTurn hs').shorter

theorem loop_template (opened : Cursor) :
    Loop Prod.fst (templateTurn codeScan opened) (templateScan opened) := by
  refine .of_answer (fun _ _ => before_templateTurn) fun s => ?_
  rw [templateScan, scanTemplate_turn, templateTurn_congr opened fun t ht =>
    scanCode_eq_codeScan ht.shorter]
  exact Turn.answer_congr fun s' hs' =>
    scanTemplate_eq_templateScan opened (before_templateTurn hs').shorter

/-- Every scan of a script ends. Each loop of it goes strictly on with every turn until it is left,
and what is computed is the answer of the loop. Code asks for templates, and a template for code,
only from cursors that are strictly later. -/
theorem scanScript_ends :
    Loop id gapTurn Cursor.skipGap ∧
      (Loop (·.2) regexTurn fun s => skipRegex? s.1 s.2.behind s.2.ahead) ∧
      (∀ kind, Loop (·.2) (clauseTurn kind) fun s =>
        fromClause kind (s.2.ahead.length + 1) s.1 s.2) ∧
      Loop CodeState.cursor (codeTurn templateScan) codeScan ∧
      (∀ opened, Loop Prod.fst (templateTurn codeScan opened) (templateScan opened)) ∧
      (∀ template s, (∀ inside, s.cursor.Before inside →
          template s.cursor (inside, s.found) = templateScan s.cursor (inside, s.found)) →
        codeTurn template s = codeTurn templateScan s) ∧
      (∀ code opened s, (∀ t : CodeState, s.1.Before t.cursor → code t = codeScan t) →
        templateTurn code opened s = templateTurn codeScan opened s) ∧
      ∀ s, (codeScan ⟨none, .start s, []⟩).halt ≠ .outOfFuel ∧
        scanScript s = (codeScan ⟨none, .start s, []⟩).answer :=
  ⟨loop_gap, loop_regex, loop_clause, loop_code, loop_template,
    fun _ _ => codeTurn_congr, fun _ opened _ => templateTurn_congr opened,
    fun _ => ⟨codeScan_ne_outOfFuel _, rfl⟩⟩

end Bundler.Source

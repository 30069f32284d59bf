import Bundler.Proofs.Source.Onward

/-!
# Runs of a scan

What a scan of code or of a template finds and where it ends, said without fuel: one rule for each
thing that a scan does. Every scan has a run, and one whose fuel is beyond the characters ahead
does what the run says, whatever had been found before.

The runs are those of two scanners. They differ in what becomes of the mentions that a template
had found before it is abandoned: the one keeps them, the other takes them back. Outside templates
a run goes step by step: the steps to a place and a run from there make a run.
-/

namespace Bundler.Source

open Cursor

/-! ## Two scanners -/

mutual

/-- A scan of code, which takes back what an abandoned template had found if it is to `undo` it. -/
def scanCodeWith (undo : Bool) : Nat → Option Nat → Cursor → List Mention → Scan
  | 0, _, _, found => ⟨found, .outOfFuel⟩
  | fuel + 1, depth, c, found =>
    match c.ahead with
    | [] => ⟨found, .at c⟩
    | a :: rest =>
      match lexeme c.behind a rest with
      | .pass c' => scanCodeWith undo fuel depth c' found
      | .fail e => ⟨found, .failed e⟩
      | .openBrace c' => scanCodeWith undo fuel (depth.map (· + 1)) c' found
      | .closeBrace c' =>
        match depth with
        | some 0 => ⟨found, .at c'⟩
        | _ => scanCodeWith undo fuel (depth.map (· - 1)) c' found
      | .template inside =>
        match scanTemplateWith undo fuel c inside found with
        | ⟨found', .at c'⟩ => scanCodeWith undo fuel depth c' found'
        | ⟨found', .failed _⟩ =>
          scanCodeWith undo fuel depth inside (if undo then found else found')
        | ⟨found', .outOfFuel⟩ => ⟨found', .outOfFuel⟩
      | .word w free c' =>
        if free then
          match keywordClause w c' with
          | .ok (c'', m) => scanCodeWith undo fuel depth c'' (found ++ m.toList)
          | .error e => ⟨found, .failed e⟩
        else scanCodeWith undo fuel depth c' found

def scanTemplateWith (undo : Bool) : Nat → Cursor → Cursor → List Mention → Scan
  | 0, _, _, found => ⟨found, .outOfFuel⟩
  | fuel + 1, opened, c, found =>
    match c.ahead with
    | [] => ⟨found, .failed (opened.error .unclosedTemplate)⟩
    | '\\' :: _ => scanTemplateWith undo fuel opened c.next.next found
    | '`' :: _ => ⟨found, .at c.next⟩
    | '$' :: '\x7b' :: _ =>
      match scanCodeWith undo fuel (some 0) c.next.next found with
      | ⟨found', .at c'⟩ => scanTemplateWith undo fuel opened c' found'
      | failed => failed
    | _ :: _ => scanTemplateWith undo fuel opened c.next found

end

/-- The answer of a scan that has ended. -/
def Scan.answer : Scan → Except ScanError (List Mention)
  | ⟨_, .failed e⟩ => .error e
  | ⟨found, _⟩ => .ok (Mention.dedupe found)

/-- The dependencies of a script by one of the scanners. -/
def scanScriptWith (undo : Bool) (s : String) : Except ScanError (List Mention) :=
  (scanCodeWith undo (s.toList.length + 1) none (.start s) []).answer

theorem scanWith_false (fuel : Nat) :
    (∀ depth c found, scanCodeWith false fuel depth c found = scanCode fuel depth c found) ∧
      ∀ opened c found,
        scanTemplateWith false fuel opened c found = scanTemplate fuel opened c found := by
  induction fuel with
  | zero => exact ⟨fun _ _ _ => rfl, fun _ _ _ => rfl⟩
  | succ fuel ih =>
    have hcode : scanCodeWith false fuel = scanCode fuel := by
      funext depth c found
      exact ih.1 depth c found
    have htemplate : scanTemplateWith false fuel = scanTemplate fuel := by
      funext opened c found
      exact ih.2 opened c found
    constructor
    · intro depth c found
      rw [scanCodeWith, hcode, htemplate]
      rfl
    · intro opened c found
      rw [scanTemplateWith, hcode, htemplate]
      rfl

/-- The scanner keeps what an abandoned template had found. -/
theorem scanScriptWith_false (s : String) : scanScriptWith false s = scanScript s := by
  rw [scanScriptWith, (scanWith_false _).1]
  rfl

/-! ## Runs -/

/-- What is scanned: code, of whose substitution `depth` braces are open, or the inside of a
template. -/
inductive Stage
  | code (depth : Option Nat) (c : Cursor)
  | template (opened c : Cursor)

namespace Stage

def cursor : Stage → Cursor
  | code _ c | template _ c => c

def scan (undo : Bool) (fuel : Nat) (found : List Mention) : Stage → Scan
  | code depth c => scanCodeWith undo fuel depth c found
  | template opened c => scanTemplateWith undo fuel opened c found

end Stage

/-- Lexemes that code only passes, with the braces that are open before and behind them. -/
inductive Passes : Option Nat → Lexeme → Option Nat → Cursor → Prop
  | pass (depth : Option Nat) (c : Cursor) : Passes depth (.pass c) depth c
  | opening (depth : Option Nat) (c : Cursor) : Passes depth (.openBrace c) (depth.map (· + 1)) c
  | closing {depth : Option Nat} (c : Cursor) : depth ≠ some 0 →
      Passes depth (.closeBrace c) (depth.map (· - 1)) c
  | bound (depth : Option Nat) (w : String) (c : Cursor) : Passes depth (.word w false c) depth c

/-- What is only passed inside a template: an escape, or a character that begins nothing. -/
inductive Inside : Cursor → Cursor → Prop
  | escape (behind rest : List Char) :
      Inside ⟨behind, '\\' :: rest⟩ (next ⟨'\\' :: behind, rest⟩)
  | plain {behind rest : List Char} {a : Char} : a ≠ '\\' → a ≠ '`' →
      ¬ (a = '$' ∧ rest.head? = some '\x7b') → Inside ⟨behind, a :: rest⟩ ⟨a :: behind, rest⟩

/-- A scan, what it finds, and the place or the fault with which it ends. -/
inductive Run (undo : Bool) : Stage → List Mention → Except ScanError Cursor → Prop
  | ended (depth : Option Nat) (behind : List Char) :
      Run undo (.code depth ⟨behind, []⟩) [] (.ok ⟨behind, []⟩)
  | passes {depth depth' : Option Nat} {behind rest : List Char} {a : Char} {c : Cursor}
      {ms : List Mention} {r : Except ScanError Cursor} :
      Passes depth (lexeme behind a rest) depth' c → Run undo (.code depth' c) ms r →
      Run undo (.code depth ⟨behind, a :: rest⟩) ms r
  | fails {depth : Option Nat} {behind rest : List Char} {a : Char} {e : ScanError} :
      lexeme behind a rest = .fail e → Run undo (.code depth ⟨behind, a :: rest⟩) [] (.error e)
  | closes {behind rest : List Char} {a : Char} {c : Cursor} :
      lexeme behind a rest = .closeBrace c →
      Run undo (.code (some 0) ⟨behind, a :: rest⟩) [] (.ok c)
  | clause {depth : Option Nat} {behind rest : List Char} {a : Char} {w : String} {c d : Cursor}
      {m : Option Mention} {ms : List Mention} {r : Except ScanError Cursor} :
      lexeme behind a rest = .word w true c → keywordClause w c = .ok (d, m) →
      Run undo (.code depth d) ms r →
      Run undo (.code depth ⟨behind, a :: rest⟩) (m.toList ++ ms) r
  | badClause {depth : Option Nat} {behind rest : List Char} {a : Char} {w : String} {c : Cursor}
      {e : ScanError} :
      lexeme behind a rest = .word w true c → keywordClause w c = .error e →
      Run undo (.code depth ⟨behind, a :: rest⟩) [] (.error e)
  | template {depth : Option Nat} {behind rest : List Char} {a : Char} {inside c : Cursor}
      {ns ms : List Mention} {r : Except ScanError Cursor} :
      lexeme behind a rest = .template inside →
      Run undo (.template ⟨behind, a :: rest⟩ inside) ns (.ok c) → Run undo (.code depth c) ms r →
      Run undo (.code depth ⟨behind, a :: rest⟩) (ns ++ ms) r
  | abandons {depth : Option Nat} {behind rest : List Char} {a : Char} {inside : Cursor}
      {ns ms : List Mention} {e : ScanError} {r : Except ScanError Cursor} :
      lexeme behind a rest = .template inside →
      Run undo (.template ⟨behind, a :: rest⟩ inside) ns (.error e) →
      Run undo (.code depth inside) ms r →
      Run undo (.code depth ⟨behind, a :: rest⟩) ((if undo then [] else ns) ++ ms) r
  | unclosed (opened : Cursor) (behind : List Char) :
      Run undo (.template opened ⟨behind, []⟩) [] (.error (opened.error .unclosedTemplate))
  | closed (opened : Cursor) (behind rest : List Char) :
      Run undo (.template opened ⟨behind, '`' :: rest⟩) [] (.ok ⟨'`' :: behind, rest⟩)
  | inside {opened c d : Cursor} {ms : List Mention} {r : Except ScanError Cursor} :
      Inside c d → Run undo (.template opened d) ms r → Run undo (.template opened c) ms r
  | substitution {opened : Cursor} {behind rest : List Char} {c : Cursor} {ns ms : List Mention}
      {r : Except ScanError Cursor} :
      Run undo (.code (some 0) ⟨'\x7b' :: '$' :: behind, rest⟩) ns (.ok c) →
      Run undo (.template opened c) ms r →
      Run undo (.template opened ⟨behind, '$' :: '\x7b' :: rest⟩) (ns ++ ms) r
  | badSubstitution {opened : Cursor} {behind rest : List Char} {ns : List Mention}
      {e : ScanError} :
      Run undo (.code (some 0) ⟨'\x7b' :: '$' :: behind, rest⟩) ns (.error e) →
      Run undo (.template opened ⟨behind, '$' :: '\x7b' :: rest⟩) ns (.error e)

theorem Passes.onward {depth depth' : Option Nat} {behind rest : List Char} {a : Char} {c : Cursor}
    (h : Passes depth (lexeme behind a rest) depth' c) : Onward ⟨a :: behind, rest⟩ c := by
  apply onward_lexeme
  generalize lexeme behind a rest = l at h
  cases h <;> rfl

theorem onward_of_lexeme {behind rest : List Char} {a : Char} {l : Lexeme} {c : Cursor}
    (hl : lexeme behind a rest = l) (hc : l.cursor? = some c) : Onward ⟨behind, a :: rest⟩ c := by
  subst hl
  exact (onward_lexeme hc).step

theorem onward_of_clause {behind rest : List Char} {a : Char} {w : String} {c d : Cursor}
    {m : Option Mention} (hl : lexeme behind a rest = .word w true c)
    (hk : keywordClause w c = .ok (d, m)) : Onward ⟨behind, a :: rest⟩ d :=
  (onward_of_lexeme hl rfl).trans (Clause.from_keywordClause w c d m hk)

theorem Inside.onward {c d : Cursor} (h : Inside c d) : c.Onward d := by
  cases h with
  | escape => exact (onward_next _).step
  | plain => exact .step (.refl _)

theorem Inside.length_lt {c d : Cursor} (h : Inside c d) : d.ahead.length < c.ahead.length := by
  cases h with
  | escape behind rest =>
    have hle : _ ≤ rest.length := (onward_next ⟨'\\' :: behind, rest⟩).length_le
    exact Nat.lt_succ_of_le hle
  | plain => simp

namespace Run

variable {undo : Bool} {st : Stage} {ms : List Mention} {r : Except ScanError Cursor}

/-- A run goes on, and ends behind its begin. -/
theorem onward (h : Run undo st ms r) {c : Cursor} (hr : r = .ok c) : st.cursor.Onward c := by
  induction h generalizing c with
  | ended => cases hr; exact .refl _
  | passes hp _ ih => exact (hp.onward.trans (ih hr)).step
  | fails | badClause | unclosed | badSubstitution => cases hr
  | closes hl =>
    cases hr
    exact onward_of_lexeme hl rfl
  | clause hl hk _ ih => exact (onward_of_clause hl hk).trans (ih hr)
  | template hl _ _ ih ih' => exact ((onward_of_lexeme hl rfl).trans (ih rfl)).trans (ih' hr)
  | abandons hl _ _ _ ih => exact (onward_of_lexeme hl rfl).trans (ih hr)
  | closed => cases hr; exact .step (.refl _)
  | inside hi _ ih => exact hi.onward.trans (ih hr)
  | substitution _ _ ih ih' => exact ((ih rfl).trans (ih' hr)).step.step

end Run

def Halt.ofEnd : Except ScanError Cursor → Halt
  | .ok c => .at c
  | .error e => .failed e

namespace Run

variable {undo : Bool} {st : Stage} {ms : List Mention} {r : Except ScanError Cursor}

theorem scan_inside {c d : Cursor} (h : Inside c d) (fuel : Nat) (opened : Cursor)
    (found : List Mention) :
    scanTemplateWith undo (fuel + 1) opened c found =
      scanTemplateWith undo fuel opened d found := by
  cases h with
  | escape => rfl
  | @plain behind rest a hescape hquote hsub =>
    rw [scanTemplateWith]
    split
    case h_1 h => cases h
    case h_2 h => exact absurd (List.cons.inj h).1 hescape
    case h_3 h => exact absurd (List.cons.inj h).1 hquote
    case h_4 h =>
      obtain ⟨rfl, rfl⟩ := List.cons.inj h
      exact absurd ⟨rfl, rfl⟩ hsub
    case h_5 => rfl

/-- A scan does what its run says, if its fuel is beyond the characters ahead. -/
theorem scan_eq (h : Run undo st ms r) {fuel : Nat} (hfuel : st.cursor.ahead.length < fuel)
    (found : List Mention) : st.scan undo fuel found = ⟨found ++ ms, .ofEnd r⟩ := by
  induction h generalizing fuel found
  all_goals obtain ⟨fuel, rfl⟩ := Nat.exists_eq_add_one_of_ne_zero (Nat.ne_zero_of_lt hfuel)
  case ended =>
    simp [Stage.scan, scanCodeWith, Halt.ofEnd]
  case passes hp _ ih =>
    have hle := hp.onward.length_le
    simp only [Stage.cursor, List.length_cons] at hfuel hle ih
    rw [← @ih fuel (by omega) found]
    simp only [Stage.scan, scanCodeWith.eq_2]
    generalize lexeme _ _ _ = l at hp
    cases hp with
    | pass | opening | bound => rfl
    | closing _ hdepth =>
      dsimp only
      split
      · exact absurd rfl hdepth
      · rfl
  case fails hl =>
    simp [Stage.scan, scanCodeWith, hl, Halt.ofEnd]
  case closes hl =>
    simp [Stage.scan, scanCodeWith, hl, Halt.ofEnd]
  case clause hl hk _ ih =>
    have hc := onward_lexeme (by rw [hl]; rfl)
    have hle := (hc.trans (Clause.from_keywordClause _ _ _ _ hk)).length_le
    simp only [Stage.cursor, List.length_cons] at hfuel hle ih
    rw [← List.append_assoc, ← @ih fuel (by omega)]
    simp [Stage.scan, scanCodeWith, hl, hk]
  case badClause hl hk =>
    simp [Stage.scan, scanCodeWith, hl, hk, Halt.ofEnd]
  case template hl hn _ ihn ih =>
    have hc := (onward_lexeme (by rw [hl]; rfl)).length_le
    have hle := (hn.onward rfl).length_le
    simp only [Stage.cursor, List.length_cons, Stage.scan] at hfuel hc hle ih ihn
    rw [← List.append_assoc, ← @ih fuel (by omega)]
    simp [Stage.scan, scanCodeWith, hl, @ihn fuel (by omega) found, Halt.ofEnd]
  case abandons hl hn _ ihn ih =>
    have hc := (onward_lexeme (by rw [hl]; rfl)).length_le
    simp only [Stage.cursor, List.length_cons, Stage.scan] at hfuel hc ih ihn
    rw [← List.append_assoc, ← @ih fuel (by omega)]
    simp only [Stage.scan, scanCodeWith, hl, @ihn fuel (by omega) found, Halt.ofEnd]
    cases undo <;> simp
  case unclosed =>
    simp [Stage.scan, scanTemplateWith, Halt.ofEnd]
  case closed =>
    simp [Stage.scan, scanTemplateWith, Halt.ofEnd, next]
  case inside hi _ ih =>
    have hlt := hi.length_lt
    simp only [Stage.cursor, Stage.scan] at hfuel ih ⊢
    rw [scan_inside hi, ih (by omega)]
  case substitution hn _ ihn ih =>
    have hle := (hn.onward rfl).length_le
    simp only [Stage.cursor, List.length_cons, Stage.scan] at hfuel hle ih ihn
    rw [← List.append_assoc, ← @ih fuel (by omega)]
    simp [Stage.scan, scanTemplateWith, next, @ihn fuel (by omega) found, Halt.ofEnd]
  case badSubstitution hn ihn =>
    simp only [Stage.cursor, List.length_cons, Stage.scan] at hfuel ihn
    simp [Stage.scan, scanTemplateWith, next, @ihn fuel (by omega) found, Halt.ofEnd]

theorem exists_code (undo : Bool) (depth : Option Nat) {behind rest : List Char} {a : Char}
    (ih : ∀ st : Stage, st.cursor.ahead.length ≤ rest.length → ∃ ms r, Run undo st ms r) :
    ∃ ms r, Run undo (.code depth ⟨behind, a :: rest⟩) ms r := by
  have hle {c : Cursor} (h : Onward ⟨a :: behind, rest⟩ c) : c.ahead.length ≤ rest.length :=
    h.length_le
  have hpass {l : Lexeme} {depth' : Option Nat} {c : Cursor} (hl : lexeme behind a rest = l)
      (hp : Passes depth l depth' c) : ∃ ms r, Run undo (.code depth ⟨behind, a :: rest⟩) ms r := by
    subst hl
    obtain ⟨ms, r, hr⟩ := ih (.code depth' c) (hle hp.onward)
    exact ⟨ms, r, .passes hp hr⟩
  cases hl : lexeme behind a rest with
  | pass c => exact hpass hl (.pass depth c)
  | fail e => exact ⟨[], _, .fails hl⟩
  | openBrace c => exact hpass hl (.opening depth c)
  | closeBrace c =>
    by_cases hdepth : depth = some 0
    · subst hdepth
      exact ⟨[], _, .closes hl⟩
    · exact hpass hl (.closing c hdepth)
  | template inside =>
    have hinside : Onward ⟨a :: behind, rest⟩ inside := onward_lexeme (by rw [hl]; rfl)
    obtain ⟨ns, r, hn⟩ := ih (.template ⟨behind, a :: rest⟩ inside) (hle hinside)
    cases r with
    | error e =>
      obtain ⟨ms, r, hr⟩ := ih (.code depth inside) (hle hinside)
      exact ⟨_, r, .abandons hl hn hr⟩
    | ok c =>
      obtain ⟨ms, r, hr⟩ := ih (.code depth c) (hle (hinside.trans (hn.onward rfl)))
      exact ⟨_, r, .template hl hn hr⟩
  | word w free c =>
    cases free with
    | false => exact hpass hl (.bound depth w c)
    | true =>
      have hc : Onward ⟨a :: behind, rest⟩ c := onward_lexeme (by rw [hl]; rfl)
      cases hk : keywordClause w c with
      | error e => exact ⟨[], _, .badClause hl hk⟩
      | ok r =>
        have hd := Clause.from_keywordClause w c r.1 r.2 hk
        obtain ⟨ms, r', hr⟩ := ih (.code depth r.1) (hle (hc.trans hd))
        exact ⟨_, r', .clause hl hk hr⟩

theorem exists_template (undo : Bool) (opened : Cursor) {behind rest : List Char} {a : Char}
    (ih : ∀ st : Stage, st.cursor.ahead.length ≤ rest.length → ∃ ms r, Run undo st ms r) :
    ∃ ms r, Run undo (.template opened ⟨behind, a :: rest⟩) ms r := by
  have hinside {c : Cursor} (hi : Inside ⟨behind, a :: rest⟩ c) :
      ∃ ms r, Run undo (.template opened ⟨behind, a :: rest⟩) ms r := by
    obtain ⟨ms, r, hr⟩ := ih (.template opened c) (Nat.le_of_lt_succ hi.length_lt)
    exact ⟨ms, r, .inside hi hr⟩
  by_cases hescape : a = '\\'
  · subst hescape
    exact hinside (.escape behind rest)
  by_cases hquote : a = '`'
  · subst hquote
    exact ⟨[], _, .closed opened behind rest⟩
  by_cases hsub : a = '$' ∧ rest.head? = some '\x7b'
  · obtain ⟨rfl, hsub⟩ := hsub
    obtain ⟨rest, rfl⟩ := List.head?_eq_some_iff.mp hsub
    obtain ⟨ns, r, hn⟩ := ih (.code (some 0) ⟨'\x7b' :: '$' :: behind, rest⟩) (Nat.le_succ _)
    cases r with
    | error e => exact ⟨ns, _, .badSubstitution hn⟩
    | ok c =>
      have hle : c.ahead.length ≤ rest.length := (hn.onward rfl).length_le
      obtain ⟨ms, r, hr⟩ := ih (.template opened c) (Nat.le_succ_of_le hle)
      exact ⟨_, r, .substitution hn hr⟩
  exact hinside (.plain hescape hquote hsub)

/-- Every scan has a run. What a run is made of has fewer characters ahead. -/
theorem exists_run (undo : Bool) (st : Stage) : ∃ ms r, Run undo st ms r := by
  induction hn : st.cursor.ahead.length using Nat.strongRecOn generalizing st with
  | ind n ih =>
    have hrest {behind rest : List Char} {a : Char} (hst : st.cursor = ⟨behind, a :: rest⟩)
        (st' : Stage) (hle : st'.cursor.ahead.length ≤ rest.length) :
        ∃ ms r, Run undo st' ms r := by
      refine ih _ ?_ st' rfl
      rw [← hn, hst]
      exact Nat.lt_succ_of_le hle
    cases st with
    | code depth c =>
      obtain ⟨behind, _ | ⟨a, rest⟩⟩ := c
      · exact ⟨[], _, .ended depth behind⟩
      · exact exists_code undo depth (hrest rfl)
    | template opened c =>
      obtain ⟨behind, _ | ⟨a, rest⟩⟩ := c
      · exact ⟨[], _, .unclosed opened behind⟩
      · exact exists_template undo opened (hrest rfl)

end Run

/-- What a script is answered is what its run comes to. -/
theorem Run.scanScriptWith_eq {undo : Bool} {s : String} {ms : List Mention}
    {r : Except ScanError Cursor} (h : Run undo (.code none (.start s)) ms r) :
    scanScriptWith undo s = r.map fun _ => Mention.dedupe ms := by
  have hscan := h.scan_eq (Nat.lt_succ_self s.toList.length) []
  simp only [Stage.scan, List.nil_append] at hscan
  rw [scanScriptWith, hscan]
  cases r <;> rfl

/-! ## Steps -/

/-- What a scan passes at once in code outside templates, and what it mentions. -/
inductive Step (undo : Bool) : Cursor → List Mention → Cursor → Prop
  | passes {behind rest : List Char} {a : Char} {c : Cursor} :
      Passes none (lexeme behind a rest) none c → Step undo ⟨behind, a :: rest⟩ [] c
  | clause {behind rest : List Char} {a : Char} {w : String} {c d : Cursor} {m : Option Mention} :
      lexeme behind a rest = .word w true c → keywordClause w c = .ok (d, m) →
      Step undo ⟨behind, a :: rest⟩ m.toList d
  | template {behind rest : List Char} {a : Char} {inside c : Cursor} {ns : List Mention} :
      lexeme behind a rest = .template inside →
      Run undo (.template ⟨behind, a :: rest⟩ inside) ns (.ok c) →
      Step undo ⟨behind, a :: rest⟩ ns c
  | abandons {behind rest : List Char} {a : Char} {inside : Cursor} {ns : List Mention}
      {e : ScanError} :
      lexeme behind a rest = .template inside →
      Run undo (.template ⟨behind, a :: rest⟩ inside) ns (.error e) →
      Step undo ⟨behind, a :: rest⟩ (if undo then [] else ns) inside

/-- What a scan passes step by step. -/
inductive Steps (undo : Bool) : Cursor → List Mention → Cursor → Prop
  | here (c : Cursor) : Steps undo c [] c
  | step {c d e : Cursor} {ms ns : List Mention} : Step undo c ms d → Steps undo d ns e →
      Steps undo c (ms ++ ns) e

section
variable {undo : Bool} {c d : Cursor} {ms ns : List Mention} {r : Except ScanError Cursor}

theorem Step.run (h : Step undo c ms d) (hr : Run undo (.code none d) ns r) :
    Run undo (.code none c) (ms ++ ns) r := by
  cases h with
  | passes hp => exact .passes hp hr
  | clause hl hk => exact .clause hl hk hr
  | template hl hn => exact .template hl hn hr
  | abandons hl hn => exact .abandons hl hn hr

theorem Steps.run (h : Steps undo c ms d) (hr : Run undo (.code none d) ns r) :
    Run undo (.code none c) (ms ++ ns) r := by
  induction h with
  | here => exact hr
  | step hs _ ih =>
    rw [List.append_assoc]
    exact hs.run (ih hr)

theorem Steps.trans {e : Cursor} (h : Steps undo c ms d) (h' : Steps undo d ns e) :
    Steps undo c (ms ++ ns) e := by
  induction h with
  | here => exact h'
  | step hs _ ih =>
    rw [List.append_assoc]
    exact .step hs (ih h')

end

theorem step_pass {undo : Bool} {behind rest : List Char} {a : Char} {c : Cursor}
    (h : lexeme behind a rest = .pass c) : Step undo ⟨behind, a :: rest⟩ [] c :=
  .passes (by rw [h]; exact .pass none c)

/-- The answer for a text that is passed to its end. -/
theorem Steps.scanScript_eq {s : String} {ms : List Mention} {c : Cursor}
    (h : Steps false (.start s) ms c) (hc : c.ahead = []) :
    scanScript s = .ok (Mention.dedupe ms) := by
  obtain ⟨behind, ahead⟩ := c
  obtain rfl : ahead = [] := hc
  rw [← scanScriptWith_false, (h.run (.ended none behind)).scanScriptWith_eq, List.append_nil]
  rfl

end Bundler.Source

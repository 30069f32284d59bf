import Bundler.Proofs.Source.Keywords
import Bundler.Proofs.Source.Plain

/-!
# Clauses as they are written

The parts of a clause are written one behind the other, with blanks and comments before each of
them; only words have to be kept apart. A scanner that reads them as a clause walks over them as
long as no `from` stands outside the braces. Read as plain code they mention nothing.
-/

namespace Bundler.Source

open Cursor

/-! ## Parts -/

/-- A word other than the keywords of a declaration. -/
structure Identifier where
  chars : List Char
  isWord : IsWord chars
  free : chars ∉ ["import".toList, "export".toList]

def Identifier.asWord : Identifier := ⟨"as".toList, by decide, by decide⟩

def Identifier.fromWord : Identifier := ⟨"from".toList, by decide, by decide⟩

/-- A string that is closed: what is written in it and what is read. -/
structure Quoted where
  quote : Char
  raw : List Char
  value : List Char
  isQuote : isQuote quote
  spells : Spells quote raw value

inductive Part
  | word (x : Identifier)
  | string (s : Quoted)
  | opening
  | closing
  | comma
  | star

namespace Part

def chars : Part → List Char
  | word x => x.chars
  | string s => s.quote :: (s.raw ++ [s.quote])
  | opening => ['\x7b']
  | closing => ['}']
  | comma => [',']
  | star => ['*']

def isWord : Part → Bool
  | word _ => true
  | _ => false

/-- The braces that are open behind a part. -/
def after (n : Nat) : Part → Nat
  | opening => n + 1
  | closing => n - 1
  | _ => n

/-- A clause of which `n` braces are open goes on behind the part. -/
def Fits (n : Nat) : Part → Prop
  | word x => x.chars = "from".toList → 0 < n
  | string _ => 0 < n
  | _ => True

end Part

/-- A clause goes on over all parts, with `n` braces open before them and `m` behind them. -/
def Fits : Nat → List Part → Nat → Prop
  | n, [], m => n = m
  | n, p :: ps, m => p.Fits n ∧ Fits (p.after n) ps m

/-- The parts are written one behind the other. Where a word ends, none goes on. -/
inductive Laid : List Part → List Char → Prop
  | nil : Laid [] []
  | cons {g t : List Char} {p : Part} {ps : List Part} : Spacing g →
      (p.isWord → t.head?.any isWordChar = false) → Laid ps t → Laid (p :: ps) (g ++ (p.chars ++ t))

theorem Fits.append {n m k : Nat} {ps qs : List Part} (h : Fits n ps m) (h' : Fits m qs k) :
    Fits n (ps ++ qs) k := by
  induction ps generalizing n with
  | nil =>
    obtain rfl : n = m := h
    exact h'
  | cons p ps ih => exact ⟨h.1, ih h.2⟩

theorem Identifier.exists_head (x : Identifier) : ∃ a w, x.chars = a :: w ∧ isWordStart a := by
  have hx := x.isWord
  cases hchars : x.chars with
  | nil =>
    rw [hchars] at hx
    cases hx
  | cons a w =>
    rw [hchars] at hx
    exact ⟨a, w, rfl, hx.1⟩

theorem Identifier.eq_fromWord {x : Identifier} (h : x.chars = "from".toList) : x = fromWord := by
  obtain ⟨chars, isWord, free⟩ := x
  subst h
  rfl

namespace Part

/-- No gap and no call begins with a part. -/
theorem exists_head (p : Part) :
    ∃ a t, p.chars = a :: t ∧ Text.isBlank a = false ∧ a ≠ '/' ∧ a ≠ '(' := by
  cases p with
  | word x =>
    obtain ⟨a, w, heq, ha⟩ := x.exists_head
    exact ⟨a, w, heq, isBlank_of_isWordStart ha, ne_of_isWordStart ha (by decide),
      ne_of_isWordStart ha (by decide)⟩
  | string s =>
    have hq : s.quote = '"' ∨ s.quote = '\'' := by simpa [isQuote] using s.isQuote
    refine ⟨_, _, rfl, isBlank_of_isQuote s.isQuote, ?_, ?_⟩
    all_goals obtain hq | hq := hq <;> rw [hq] <;> decide
  | opening => exact ⟨_, _, rfl, by decide⟩
  | closing => exact ⟨_, _, rfl, by decide⟩
  | comma => exact ⟨_, _, rfl, by decide⟩
  | star => exact ⟨_, _, rfl, by decide⟩

section
variable {p : Part} {c d : Cursor} {n : Nat} (hover : c.Over p.chars d)
include hover

theorem lands : c.Lands := by
  obtain ⟨a, t, heq, hblank, hslash, -⟩ := p.exists_head
  have hahead := hover.ahead
  rw [heq] at hahead
  exact lands_of_token hahead hblank hslash

theorem head_ne_paren : c.ahead.head? ≠ some '(' := by
  obtain ⟨a, t, heq, -, -, hparen⟩ := p.exists_head
  simpa [hover.ahead, heq] using hparen

theorem token (hfits : p.Fits n) (hstop : p.isWord → d.ahead.head?.any isWordChar = false) :
    Token n c (p.after n) d := by
  cases p with
  | word x => exact .word ⟨x.isWord, hover, seam_of_stop (hstop rfl)⟩ hfits
  | string s => exact .string hfits ⟨s.quote, s.raw, s.isQuote, s.spells, hover⟩
  | opening => exact .opening hover
  | closing => exact .closing hover
  | comma =>
    exact .mark hover (lands hover) (by decide) (by decide) (by decide) (by decide) (.inl rfl)
  | star =>
    exact .mark hover (lands hover) (by decide) (by decide) (by decide) (by decide)
      (.inr (.inl rfl))

end

end Part

/-! ## Parts of a clause -/

theorem Walks.trans {n m k : Nat} {c d e : Cursor} (h : Walks n c m d) (h' : Walks m d k e) :
    Walks n c k e := by
  induction h' with
  | here => exact h
  | token _ hs ht ih => exact .token (ih h) hs ht

theorem head?_append_any {p : Char → Bool} {t u : List Char} (ht : t.head?.any p = false)
    (hu : u.head?.any p = false) : (t ++ u).head?.any p = false := by
  cases t with
  | nil => exact hu
  | cons a t => exact ht

namespace Laid

variable {p : Part} {ps qs : List Part} {t : List Char} {n m : Nat} {b c e : Cursor}

/-- The first part stands behind a gap, the others behind it. -/
theorem head (h : Laid (p :: ps) t) (hover : c.Over t e)
    (he : e.ahead.head?.any isWordChar = false) :
    ∃ (d f : Cursor) (u : List Char), c.Spaced d ∧ d.Over p.chars f ∧
      (p.isWord → f.ahead.head?.any isWordChar = false) ∧ Laid ps u ∧ f.Over u e := by
  cases h with
  | cons hg hstop hps =>
    obtain ⟨d, hd, hrest⟩ := hover.split
    obtain ⟨f, hp, hf⟩ := hrest.split
    refine ⟨d, f, _, ⟨_, hg, hd⟩, hp, ?_, hps, hf⟩
    intro hword
    rw [hf.ahead]
    exact head?_append_any (hstop hword) he

/-- What is written may also begin with the first part. -/
theorem first (h : Laid (p :: ps) t) (hover : c.Over t e) :
    ∃ (d : Cursor) (u : List Char), c.Spaced d ∧ d.Lands ∧ d.ahead.head? = p.chars.head? ∧
      Laid (p :: ps) u ∧ d.Over u e := by
  cases h with
  | cons hg hstop hps =>
    obtain ⟨d, hd, hrest⟩ := hover.split
    obtain ⟨f, hp, -⟩ := hrest.split
    refine ⟨d, _, ⟨_, hg, hd⟩, Part.lands hp, ?_, .cons .nil hstop hps, hrest⟩
    obtain ⟨a, w, heq, -⟩ := p.exists_head
    simp [hp.ahead, heq]

/-- The scanner walks over parts that keep the clause open. -/
theorem walks (h : Laid (ps ++ qs) t) (hfits : Fits n ps m) (hover : c.Over t e)
    (he : e.ahead.head?.any isWordChar = false) :
    ∃ (d : Cursor) (u : List Char), Walks n c m d ∧ Laid qs u ∧ d.Over u e := by
  induction ps generalizing n c t with
  | nil =>
    obtain rfl : n = m := hfits
    exact ⟨c, t, .here n c, h, hover⟩
  | cons p ps ih =>
    obtain ⟨d, f, u, hs, hp, hstop, hps, hf⟩ := h.head hover he
    obtain ⟨k, v, hwalk, hqs, hk⟩ := ih hps hfits.2 hf
    have hfirst : Walks n c (p.after n) f := .token (.here n c) hs (Part.token hp hfits.1 hstop)
    exact ⟨k, v, hfirst.trans hwalk, hqs, hk⟩

/-- The parts of a clause up to the first `from` outside the braces are passed; what then counts
is whether a string follows. -/
theorem keywordClause_eq {keyword : String} {kind : DependencyKind}
    (hkind : fromKind? keyword = some kind) (h : Laid (ps ++ .word .fromWord :: qs) t)
    (hfits : Fits 0 ps 0)
    (hbegins : ∀ p ∈ (ps ++ .word .fromWord :: qs).head?, ∃ a ∈ p.chars.head?, Begins kind a)
    (hover : b.Over t e) (he : e.ahead.head?.any isWordChar = false) :
    ∃ (d : Cursor) (u : List Char), Laid qs u ∧ d.Over u e ∧
      keywordClause keyword b =
        if d.skipGap.ahead.head?.any isQuote then specifier kind d.skipGap
        else .ok (d.skipGap, none) := by
  obtain ⟨p, rest, hparts⟩ : ∃ p rest, ps ++ .word .fromWord :: qs = p :: rest :=
    List.exists_cons_of_ne_nil (by simp)
  rw [hparts] at hbegins h
  obtain ⟨c, t, hspaced, hlands, hhead, hlaid, hc⟩ := h.first hover
  rw [← hparts] at hlaid
  obtain ⟨d, u, hwalk, hrest, hd⟩ := hlaid.walks hfits hc he
  obtain ⟨f, k, u, hs, hfrom, hstop, hqs, hk⟩ := hrest.head hd he
  have hword : f.Word "from".toList k := ⟨by decide, hfrom, seam_of_stop (hstop rfl)⟩
  have hclause : b.InClause kind 0 d := ⟨c, hspaced, hlands, hhead ▸ hbegins p rfl, hwalk⟩
  obtain ⟨fuel, hfuel, heq⟩ := hclause.keywordClause_eq hkind
  obtain ⟨fuel, rfl⟩ := Nat.exists_eq_add_one_of_ne_zero (Nat.ne_zero_of_lt hfuel)
  refine ⟨k, u, hqs, hk, ?_⟩
  rw [heq, fromClause_specifier hs hword]

end Laid

/-! ## Parts in plain code -/

/-- What stands from `c` on mentions nothing up to `e`, also from behind the gap at `c`. -/
structure Quiet (c e : Cursor) : Prop where
  steps : Steps false c [] e
  gap : Steps false c.skipGap [] e
  noCall : c.skipGap.ahead.head? ≠ some '('

section
variable {c d e : Cursor}

theorem quiet_of_spaced (hs : c.Spaced d) (hd : d.Lands) (hparen : d.ahead.head? ≠ some '(')
    (h : Steps false d [] e) : Quiet c e := by
  have hskip := hs.skipGap_eq hd
  exact ⟨hs.steps.trans h, by rwa [hskip], by rwa [hskip]⟩

/-- Where no call follows, a word at most passes the gap behind it. -/
theorem Identifier.keywordClause_eq (x : Identifier) (hparen : c.skipGap.ahead.head? ≠ some '(') :
    keywordClause (String.ofList x.chars) c = .ok (c, none) ∨
      keywordClause (String.ofList x.chars) c = .ok (c.skipGap, none) := by
  have hne {keyword : String} (h : String.ofList x.chars = keyword) : x.chars = keyword.toList := by
    rw [← h, String.toList_ofList]
  unfold keywordClause
  split
  case h_1 h => exact absurd (by simp [← hne h]) x.free
  case h_2 h => exact absurd (by simp [← hne h]) x.free
  case h_3 => exact .inr (by rw [callClause, if_neg hparen])
  case h_4 => exact .inl rfl

theorem Quiet.steps_word {x : Identifier} (hword : c.Word x.chars d) (h : Quiet d e) :
    Steps false c [] e := by
  obtain ⟨a, rest, -, hahead⟩ := hword.head
  obtain ⟨behind, ahead⟩ := c
  cases hahead
  have hlexeme : lexeme behind a rest = .word (String.ofList x.chars) (atBoundary behind) d :=
    lexeme_eq_word_iff.mpr ⟨by simpa using hword, rfl⟩
  cases hb : atBoundary behind with
  | false =>
    rw [hb] at hlexeme
    exact .step (.passes (by rw [hlexeme]; exact .bound none _ d)) h.steps
  | true =>
    rw [hb] at hlexeme
    obtain hclause | hclause := x.keywordClause_eq h.noCall
    · exact .step (.clause hlexeme hclause) h.steps
    · exact .step (.clause hlexeme hclause) h.gap

theorem Part.steps {p : Part} (hover : c.Over p.chars d)
    (hstop : p.isWord → d.ahead.head?.any isWordChar = false) (h : Quiet d e) :
    Steps false c [] e := by
  cases p with
  | word x =>
    exact h.steps_word ⟨x.isWord, hover, seam_of_stop (hstop rfl)⟩
  | string s =>
    have hliteral : c.Literal s.value d := ⟨s.quote, s.raw, s.isQuote, s.spells, hover⟩
    exact .step hliteral.step h.steps
  | opening => exact .step (step_mark hover fun _ _ => .opening none _) h.steps
  | closing => exact .step (step_mark hover fun _ _ => .closing _ (by decide)) h.steps
  | comma => exact .step (step_mark hover fun _ _ => .pass none _) h.steps
  | star => exact .step (step_mark hover fun _ _ => .pass none _) h.steps

/-- Parts that are read as plain code mention nothing. -/
theorem Laid.quiet {ps : List Part} {t : List Char} (h : Laid ps t) (hover : c.Over t d)
    (hd : d.ahead.head?.any isWordChar = false) (hquiet : Quiet d e) : Quiet c e := by
  induction ps generalizing c t with
  | nil =>
    cases h
    rwa [hover.eq_of_nil] at hquiet
  | cons p ps ih =>
    obtain ⟨f, k, u, hs, hp, hstop, hps, hk⟩ := h.head hover hd
    have hsteps := Part.steps hp hstop (ih hps hk)
    exact quiet_of_spaced hs (Part.lands hp) (Part.head_ne_paren hp) hsteps

end

end Bundler.Source

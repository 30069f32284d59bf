import Bundler.Proofs.Source.Parts
import Bundler.Proofs.Source.Printed

/-!
# Declarations

Every declaration that imports from a module or exports from one, written with any blanks and
comments between its parts, is recognised, but for those that bind the name `from` outside their
braces: the scanner takes this name for the `from` before the specifier, finds no string behind
it and gives the clause up. Such a declaration mentions nothing.
-/

namespace Bundler.Source

open Cursor

/-! ## Forms -/

inductive ListItem
  | plain (x : Identifier)
  | renamed (x y : Identifier)
  | quoted (s : Quoted) (y : Identifier)

def ListItem.parts : ListItem → List Part
  | plain x => [.word x]
  | renamed x y => [.word x, .word .asWord, .word y]
  | quoted s y => [.string s, .word .asWord, .word y]

/-- Commas stand between the items, and behind the last one if there is to be a `trailing` one. -/
def listParts (trailing : Bool) : List ListItem → List Part
  | [] => []
  | [i] => i.parts ++ if trailing then [.comma] else []
  | i :: items => i.parts ++ .comma :: listParts trailing items

/-- The names of a module, all of them as one or those of a list. -/
inductive Names
  | all (x : Identifier)
  | list (items : List ListItem) (trailing : Bool)

namespace Names

def parts : Names → List Part
  | all x => [.star, .word .asWord, .word x]
  | list items trailing => .opening :: (listParts trailing items ++ [.closing])

def bindsFrom : Names → Bool
  | all x => x.chars = "from".toList
  | list _ _ => false

end Names

inductive Declaration
  | importDefault (x : Identifier)
  | importNames (names : Names)
  | importBoth (x : Identifier) (names : Names)
  | exportAll
  | exportNames (names : Names)

namespace Declaration

def keyword : Declaration → String
  | importDefault _ | importNames _ | importBoth _ _ => "import"
  | exportAll | exportNames _ => "export"

def kind : Declaration → DependencyKind
  | importDefault _ | importNames _ | importBoth _ _ => .staticImport
  | exportAll | exportNames _ => .exportFrom

/-- The parts between the keyword and the `from` before the specifier. -/
def parts : Declaration → List Part
  | importDefault x => [.word x]
  | importNames names | exportNames names => names.parts
  | importBoth x names => .word x :: .comma :: names.parts
  | exportAll => [.star]

/-- Whether the declaration binds the name `from` outside its braces. -/
def bindsFrom : Declaration → Bool
  | importDefault x => x.chars = "from".toList
  | importNames names | exportNames names => names.bindsFrom
  | importBoth x names => x.chars = "from".toList || names.bindsFrom
  | exportAll => false

/-- What is written of the declaration before its specifier. -/
inductive Before (d : Declaration) : List Char → Prop
  | intro {g t g' : List Char} : Spacing g → t.head?.any isWordChar = false →
      Laid (d.parts ++ [.word .fromWord]) t → Spacing g' →
      d.Before (g ++ (d.keyword.toList ++ (t ++ g')))

end Declaration

/-! ## Where a clause is given up -/

theorem ListItem.fits (i : ListItem) : Fits 1 i.parts 1 := by
  cases i <;> simp [parts, Source.Fits, Part.Fits, Part.after]

theorem fits_listParts (trailing : Bool) (items : List ListItem) :
    Fits 1 (listParts trailing items) 1 := by
  fun_induction listParts trailing items
  case case1 => rfl
  case case2 i =>
    apply i.fits.append
    cases trailing <;> simp [Fits, Part.Fits, Part.after]
  case case3 i _ _ ih => exact i.fits.append ⟨trivial, ih⟩

/-- A clause of these parts is read up to the `from` between `ps` and `qs`. That is the last one,
unless the parts bind `from`. -/
structure Stop (parts : List Part) (bindsFrom : Bool) (ps qs : List Part) : Prop where
  eq : parts ++ [.word .fromWord] = ps ++ .word .fromWord :: qs
  fits : Fits 0 ps 0
  rest : if bindsFrom then ∃ p rest, qs = p :: rest ∧ (p = .comma ∨ p = .word .fromWord)
    else qs = []

theorem stop_of_fits {parts : List Part} (h : Fits 0 parts 0) : Stop parts false parts [] :=
  ⟨rfl, h, rfl⟩

theorem stop_of_from (parts : List Part) {p : Part} {rest : List Part}
    (heq : parts ++ [.word .fromWord] = p :: rest) (hp : p = .comma ∨ p = .word .fromWord) :
    Stop (.word .fromWord :: parts) true [] (p :: rest) :=
  ⟨by rw [List.cons_append, heq, List.nil_append], rfl, p, rest, rfl, hp⟩

theorem Stop.append {first parts ps qs : List Part} {bindsFrom : Bool}
    (h : Stop parts bindsFrom ps qs) (hfits : Fits 0 first 0) :
    Stop (first ++ parts) bindsFrom (first ++ ps) qs :=
  ⟨by rw [List.append_assoc, h.eq, List.append_assoc], hfits.append h.fits, h.rest⟩

theorem Identifier.fits {x : Identifier} (h : x.chars ≠ "from".toList) : Fits 0 [.word x] 0 :=
  ⟨fun heq => absurd heq h, rfl⟩

theorem Names.exists_stop (names : Names) : ∃ ps qs, Stop names.parts names.bindsFrom ps qs := by
  cases names with
  | all x =>
    have hfirst : Fits 0 [.star, .word .asWord] 0 := ⟨trivial, Identifier.fits (by decide)⟩
    by_cases hx : x.chars = "from".toList
    · obtain rfl := Identifier.eq_fromWord hx
      exact ⟨_, _, (stop_of_from [] rfl (.inr rfl)).append hfirst⟩
    · have hbinds : bindsFrom (.all x) = false := decide_eq_false hx
      rw [hbinds]
      exact ⟨_, _, (stop_of_fits (Identifier.fits hx)).append hfirst⟩
  | list items trailing =>
    have hlast : Fits 1 [.closing] 0 := ⟨trivial, rfl⟩
    have hlist : Fits 0 (.opening :: (listParts trailing items ++ [.closing])) 0 :=
      ⟨trivial, (fits_listParts trailing items).append hlast⟩
    exact ⟨_, _, stop_of_fits hlist⟩

namespace Declaration

variable (d : Declaration)

theorem exists_stop : ∃ ps qs, Stop d.parts d.bindsFrom ps qs := by
  cases d with
  | importDefault x =>
    by_cases hx : x.chars = "from".toList
    · obtain rfl := Identifier.eq_fromWord hx
      exact ⟨_, _, stop_of_from [] rfl (.inr rfl)⟩
    · have hbinds : bindsFrom (.importDefault x) = false := decide_eq_false hx
      rw [hbinds]
      exact ⟨_, _, stop_of_fits (Identifier.fits hx)⟩
  | importNames names | exportNames names => exact names.exists_stop
  | importBoth x names =>
    by_cases hx : x.chars = "from".toList
    · obtain rfl := Identifier.eq_fromWord hx
      exact ⟨_, _, stop_of_from (.comma :: names.parts) rfl (.inl rfl)⟩
    · obtain ⟨ps, qs, hstop⟩ := names.exists_stop
      have hbinds : bindsFrom (.importBoth x names) = names.bindsFrom := by
        rw [bindsFrom, decide_eq_false hx, Bool.false_or]
      have hfirst : Fits 0 [.word x, .comma] 0 := (Identifier.fits hx).append ⟨trivial, rfl⟩
      rw [hbinds]
      exact ⟨_, _, hstop.append hfirst⟩
  | exportAll =>
    have hfits : Fits 0 [.star] 0 := ⟨trivial, rfl⟩
    exact ⟨_, _, stop_of_fits hfits⟩

theorem begins (p : Part) (hp : p ∈ (d.parts ++ [Part.word .fromWord]).head?) :
    ∃ a ∈ p.chars.head?, Begins d.kind a := by
  have hword (x : Identifier) : ∃ a ∈ (Part.word x).chars.head?, Begins .staticImport a := by
    obtain ⟨a, w, heq, ha⟩ := x.exists_head
    have hne {b : Char} (hb : isWordStart b = false) : a ≠ b := ne_of_isWordStart ha hb
    exact ⟨a, congrArg List.head? heq, hne (by decide), hne (by decide), isQuote_eq_false ha⟩
  have hnames (names : Names) (hp : p ∈ (names.parts ++ [Part.word .fromWord]).head?) :
      p = .star ∨ p = .opening := by
    cases names with
    | all => exact .inl (Option.some.inj hp).symm
    | list => exact .inr (Option.some.inj hp).symm
  cases d with
  | importDefault x | importBoth x =>
    obtain rfl := Option.some.inj hp
    exact hword x
  | importNames names =>
    obtain rfl | rfl := hnames names hp
    · exact ⟨'*', rfl, by decide, by decide, by decide⟩
    · exact ⟨'\x7b', rfl, by decide, by decide, by decide⟩
  | exportAll =>
    obtain rfl := Option.some.inj hp
    exact ⟨'*', rfl, .inl rfl⟩
  | exportNames names =>
    obtain rfl | rfl := hnames names hp
    · exact ⟨'*', rfl, .inl rfl⟩
    · exact ⟨'\x7b', rfl, .inr rfl⟩

end Declaration

/-! ## What is found -/

section
variable {q : Quote}

theorem StringText.spells (s : StringText q) : Spells q.char s.chars s.chars := by
  obtain ⟨chars, own, plain, line⟩ := s
  induction chars with
  | nil => exact .nil
  | cons a chars ih =>
    simp only [List.mem_cons, not_or] at own plain line
    exact .plain (Ne.symm plain.1) (Ne.symm line.1) (Ne.symm own.1) (ih own.2 plain.2 line.2)

theorem StringText.literal_between (s : StringText q) (behind rest : List Char) :
    Literal ⟨behind, s.literal ++ rest⟩ s.chars ⟨s.literal.reverse ++ behind, rest⟩ :=
  ⟨q.char, s.chars, q.isQuote_char, s.spells, rfl, rfl⟩

theorem steps_ending (semicolon : Bool) (behind : List Char) :
    ∃ c : Cursor, c.ahead = [] ∧ Steps false ⟨behind, Item.ending semicolon⟩ [] c := by
  cases semicolon with
  | true => exact ⟨_, rfl, .step (step_pass (lexeme_punctuation behind [] (by decide))) (.here _)⟩
  | false => exact ⟨_, rfl, .here _⟩

theorem Spacing.atBoundary {g : List Char} (h : Spacing g) : atBoundary g.reverse := by
  obtain rfl | ⟨t, a, rfl, ha, hdot⟩ := h.eq_nil_or_concat
  · rfl
  · simp [Source.atBoundary, ha, hdot]

theorem Declaration.fromKind?_keyword (d : Declaration) : fromKind? d.keyword = some d.kind := by
  cases d <;> rfl

theorem Declaration.isWord_keyword (d : Declaration) : IsWord d.keyword.toList := by
  cases d <;> simp only [keyword] <;> decide

/-- The places of a declaration at the begin of a text: its keyword, what is written behind the
keyword, and the gap before the specifier. -/
theorem Declaration.Before.exists_places {d : Declaration} {before : List Char} {c e : Cursor}
    (h : d.Before before) (hc : c.behind = []) (hover : c.Over before e)
    (he : e.ahead.head?.any isWordChar = false) :
    ∃ (k b f : Cursor) (t : List Char), c.Spaced k ∧ k.Word d.keyword.toList b ∧
      atBoundary k.behind ∧ Laid (d.parts ++ [.word .fromWord]) t ∧ b.Over t f ∧ f.Spaced e ∧
      f.ahead.head?.any isWordChar = false := by
  cases h with
  | @intro g t g' hg ht hlaid hg' =>
    obtain ⟨k, hk, hover⟩ := hover.split
    obtain ⟨b, hb, hover⟩ := hover.split
    obtain ⟨f, hf, hgap⟩ := hover.split
    have hstop : f.ahead.head?.any isWordChar = false := by
      rw [hgap.ahead]
      exact head?_append_any hg'.head?_any he
    have hkeyword : k.Word d.keyword.toList b := by
      refine ⟨d.isWord_keyword, hb, seam_of_stop ?_⟩
      rw [hf.ahead]
      exact head?_append_any ht hstop
    have hfree : atBoundary k.behind := by
      rw [hk.behind, hc, List.append_nil]
      exact hg.atBoundary
    exact ⟨k, b, f, t, ⟨g, hg, hk⟩, hkeyword, hfree, hlaid, hf, ⟨g', hg', hgap⟩, hstop⟩

/-- What the clause of a declaration comes to. What it binds decides whether the clause passes the
specifier or leaves it to plain code. -/
theorem Declaration.exists_clause (d : Declaration) {t : List Char} {b e f g k : Cursor}
    (hlaid : Laid (d.parts ++ [.word .fromWord]) t) (hover : b.Over t f) (hs : f.Spaced e)
    (hstop : f.ahead.head?.any isWordChar = false) (s : Specifier q) (he : e.Literal s.chars g)
    (hend : Steps false g [] k) :
    ∃ c, Steps false c [] k ∧ keywordClause d.keyword b =
      .ok (c, if d.bindsFrom then none else some ⟨String.ofList s.chars, d.kind, e.line⟩) := by
  obtain ⟨ps, qs, heq, hfits, hrest⟩ := d.exists_stop
  have hbegins := d.begins
  rw [heq] at hlaid hbegins
  obtain ⟨f', u, hqs, hf', hclause⟩ :=
    hlaid.keywordClause_eq d.fromKind?_keyword hfits hbegins hover hstop
  rw [hclause]
  cases hbinds : d.bindsFrom with
  | false =>
    rw [hbinds] at hrest
    obtain rfl : qs = [] := hrest
    cases hqs with
    | nil =>
      obtain rfl := hf'.eq_of_nil
      refine ⟨g, hend, ?_⟩
      rw [hs.skipGap_eq he.lands, if_pos he.head, specifier, he.demandString_eq]
      simp only [s.mention_eq]
      rfl
  | true =>
    rw [hbinds] at hrest
    obtain ⟨p, rest, rfl, hp⟩ := hrest
    have hquiet : Quiet f k := quiet_of_spaced hs he.lands he.head_ne_paren (.step he.step hend)
    obtain ⟨f'', _, hs', hlands, hhead, -⟩ := hqs.first hf'
    have hquote : ¬ f'.skipGap.ahead.head?.any isQuote := by
      rw [hs'.skipGap_eq hlands, hhead]
      obtain rfl | rfl := hp <;> decide
    refine ⟨f'.skipGap, (hqs.quiet hf' hstop hquiet).gap, ?_⟩
    rw [if_neg hquote]
    rfl

/-- A declaration mentions its specifier, on the line of its quote, unless it binds `from`. -/
theorem scanScript_declaration (d : Declaration) {before : List Char} (h : d.Before before)
    (s : Specifier q) (semicolon : Bool) :
    scanScript (String.ofList (before ++ (s.literal ++ Item.ending semicolon))) =
      .ok (if d.bindsFrom then []
        else [⟨String.ofList s.chars, d.kind, 1 + before.count '\n'⟩]) := by
  let e : Cursor := ⟨before.reverse, s.literal ++ Item.ending semicolon⟩
  have hover : Over (start (String.ofList (before ++ e.ahead))) before e :=
    ⟨by simp [start], by simp [start, e]⟩
  have hliteral := s.literal_between before.reverse (Item.ending semicolon)
  obtain ⟨last, hlast, hend⟩ := steps_ending semicolon (s.literal.reverse ++ before.reverse)
  obtain ⟨k, b, f, t, hfirst, hkeyword, hfree, hlaid, hf, hgap, hstop⟩ :=
    h.exists_places rfl hover hliteral.stop
  obtain ⟨c, hc, hclause⟩ := d.exists_clause hlaid hf hgap hstop s hliteral hend
  have hsteps := hfirst.steps.trans (.step (hkeyword.step hfree hclause) hc)
  have hline : Cursor.line ⟨before.reverse, s.literal ++ Item.ending semicolon⟩ =
      1 + before.count '\n' := by
    simp [Cursor.line]
  rw [hsteps.scanScript_eq hlast, hline]
  cases d.bindsFrom <;> rfl

/-- A default import that binds `from`, and a list in which it is renamed, without a blank. -/
theorem scanScript_declaration_from :
    scanScript "import from from 'x';" = .ok [] ∧
      scanScript "import\x7bfrom as y\x7dfrom\"x\"" = .ok [⟨"x", .staticImport, 1⟩] := by
  have hgap : Spacing [' '] := .blank (by decide) .nil
  let y : Identifier := ⟨['y'], by decide, by decide⟩
  constructor
  · let x : Specifier .single := ⟨⟨['x'], by decide, by decide, by decide⟩, by decide⟩
    have hlaid : Laid [.word .fromWord, .word .fromWord] _ :=
      .cons hgap (by decide) (.cons hgap (by decide) .nil)
    have hbefore : (Declaration.importDefault .fromWord).Before _ :=
      .intro .nil (by decide) hlaid hgap
    exact scanScript_declaration _ hbefore x true
  · let x : Specifier .double := ⟨⟨['x'], by decide, by decide, by decide⟩, by decide⟩
    have hlaid : Laid [.opening, .word .fromWord, .word .asWord, .word y, .closing,
        .word .fromWord] _ :=
      .cons .nil nofun (.cons .nil (by decide) (.cons hgap (by decide) (.cons hgap (by decide)
        (.cons .nil nofun (.cons .nil (by decide) .nil)))))
    have hbefore : (Declaration.importNames (.list [.renamed .fromWord y] false)).Before _ :=
      .intro .nil (by decide) hlaid .nil
    have hanswer := scanScript_declaration _ hbefore x false
    rw [show String.ofList _ = "import\x7bfrom as y\x7dfrom\"x\"" by decide +kernel] at hanswer
    rw [hanswer]
    decide +kernel

end

end Bundler.Source

import Bundler.Proofs.Source.Tokens

/-!
# What introduces a specifier

A specifier stands behind a keyword, behind the `from` of a clause that a keyword began, or behind
the parenthesis of a call. Each clause that is read mentions nothing but the literal at such a
place, and fails only at a string that is not closed.
-/

namespace Bundler.Source

open Cursor

/-- The place is right behind a word that stands for itself. -/
def Cursor.Behind (c : Cursor) (keyword : String) : Prop :=
  ∃ b : Cursor, b.Word keyword.toList c ∧ atBoundary b.behind

/-- The kind of a mention behind `from`. -/
def fromKind? : String → Option DependencyKind
  | "import" => some .staticImport
  | "export" => some .exportFrom
  | _ => none

/-- The kind of a mention in a call. -/
def callKind? : String → Option DependencyKind
  | "import" => some .dynamicImport
  | "require" => some .require
  | _ => none

/-- What a clause begins with: behind `import` anything but a string, a parenthesis and a dot,
behind `export` a star or a brace. -/
def Begins : DependencyKind → Char → Prop
  | .staticImport, a => a ≠ '(' ∧ a ≠ '.' ∧ isQuote a = false
  | .exportFrom, a => a = '*' ∨ a = '\x7b'
  | _, _ => False

/-- `n` braces are open at `d` in the clause behind a keyword that ends at `b`. -/
def Cursor.InClause (kind : DependencyKind) (b : Cursor) (n : Nat) (d : Cursor) : Prop :=
  ∃ c : Cursor, b.Spaced c ∧ c.Lands ∧ (∃ a ∈ c.ahead.head?, Begins kind a) ∧ Walks 0 c n d

/-- The keyword form of a kind ends at the place, with blanks and comments behind it. -/
inductive Introduced : DependencyKind → Cursor → Prop
  | effect {b c : Cursor} : b.Behind "import" → b.Spaced c → Introduced .staticImport c
  | clause {keyword : String} {kind : DependencyKind} {b c d e f : Cursor} :
      fromKind? keyword = some kind → b.Behind keyword → b.InClause kind 0 c → c.Spaced d →
      d.Seam → d.Word "from".toList e → e.Spaced f → Introduced kind f
  | call {keyword : String} {kind : DependencyKind} {b c d e : Cursor} :
      callKind? keyword = some kind → b.Behind keyword → b.Spaced c → c.Over ['('] d → d.Spaced e →
      Introduced kind e

/-- A literal that begins at the place belongs to a clause or to a call. -/
inductive Cursor.AwaitsLiteral : Cursor → Prop
  | specifier {kind : DependencyKind} {c : Cursor} : Introduced kind c → AwaitsLiteral c
  | name {keyword : String} {kind : DependencyKind} {n : Nat} {b c d : Cursor} :
      fromKind? keyword = some kind → b.Behind keyword → b.InClause kind (n + 1) c → c.Spaced d →
      AwaitsLiteral d

/-- The mention stands as a literal at `c`. -/
structure StandsAt (m : Mention) (c d : Cursor) : Prop where
  literal : c.Literal m.specifier.toList d
  line : m.line = c.line
  introduced : Introduced m.kind c
  nonempty : m.specifier ≠ ""

/-- What a clause that is read from `c` on may come to. -/
structure Clause.Sound (c : Cursor) (clause : Clause) : Prop where
  mention : ∀ d m, clause = .ok (d, some m) →
    ∃ q e : Cursor, c.Onward q ∧ StandsAt m q e ∧ e.Onward d
  error : ∀ e, clause = .error e →
    ∃ q : Cursor, c.Onward q ∧ q.AwaitsLiteral ∧ q.AtOpenString ∧ e = q.error .unclosedString

namespace Clause

variable {c d : Cursor} {clause : Clause} {kind : DependencyKind} {n fuel : Nat}

theorem Sound.mono (h : c.Onward d) (hd : Sound d clause) : Sound c clause where
  mention e m hm := by
    obtain ⟨q, f, hq, hstands, hf⟩ := hd.mention e m hm
    exact ⟨q, f, h.trans hq, hstands, hf⟩
  error e he := by
    obtain ⟨q, hq, hfault⟩ := hd.error e he
    exact ⟨q, h.trans hq, hfault⟩

theorem sound_none (c d : Cursor) : Sound c (.ok (d, none)) := ⟨by simp, by simp⟩

theorem sound_error (h : c.AwaitsLiteral) (hc : c.AtOpenString) :
    Sound c (.error (c.error .unclosedString)) where
  mention _ _ h := by cases h
  error e he := by
    cases he
    exact ⟨c, .refl c, h, hc, rfl⟩

theorem sound_mention {value : List Char} {e : Cursor} (h : Introduced kind c)
    (hc : c.Literal value e) (hd : e.Onward d) :
    Sound c (.ok (d, Source.mention (String.ofList value) kind c.line)) where
  mention f m hm := by
    obtain ⟨rfl, hm⟩ := Prod.mk.inj (Except.ok.inj hm)
    unfold Source.mention at hm
    split at hm
    · cases hm
    · cases hm
      exact ⟨c, e, .refl c, ⟨by simpa using hc, rfl, h, by simp_all⟩, hd⟩
  error _ h := by cases h

theorem sound_specifier (h : Introduced kind c) (hc : c.ahead.head?.any isQuote) :
    Sound c (specifier kind c) := by
  unfold specifier
  obtain ⟨value, d, hliteral, heq⟩ | ⟨hopen, heq⟩ := demandString_cases hc
  · rw [heq]
    exact sound_mention h hliteral (.refl d)
  · rw [heq]
    exact sound_error (.specifier h) hopen

end Clause

namespace Cursor

variable {b c d e : Cursor} {kind : DependencyKind} {n m : Nat}

theorem Behind.seam {keyword : String} (h : c.Behind keyword) : c.Seam := by
  obtain ⟨b, hword, -⟩ := h
  exact hword.seam

theorem InClause.token (h : b.InClause kind n c) (hs : c.Spaced d) (ht : Token n d m e) :
    b.InClause kind m e := by
  obtain ⟨a, hspaced, hlands, hbegins, hwalk⟩ := h
  exact ⟨a, hspaced, hlands, hbegins, hwalk.token hs ht⟩

theorem InClause.seam (h : b.InClause kind 0 c) (hb : b.Seam) : c.Seam := by
  obtain ⟨a, hspaced, -, -, hwalk⟩ := h
  exact hwalk.seam (fun _ => hspaced.seam hb) rfl

theorem spaced_skipGap (h : c.skipGap.ahead ≠ []) : c.Spaced c.skipGap := spacing_skipGap h

end Cursor

theorem ne_nil_of_any {p : Char → Bool} {l : List Char} (h : l.head?.any p) : l ≠ [] := by
  rintro rfl
  cases h

/-- What is read of a clause from a place within it. -/
theorem Clause.sound_fromClause {keyword : String} {kind : DependencyKind} {b c : Cursor} {n : Nat}
    (hkind : fromKind? keyword = some kind) (hb : b.Behind keyword) (h : b.InClause kind n c)
    (fuel : Nat) : Sound c (fromClause kind fuel n c) := by
  induction fuel generalizing c n with
  | zero => exact sound_none c c
  | succ fuel ih =>
    rw [fromClause]
    refine .mono (onward_blank c) ?_
    have hlands := c.lands_skipGap
    cases hahead : c.skipGap.ahead with
    | nil => exact sound_none _ _
    | cons a rest =>
      have hs : c.Spaced c.skipGap := spaced_skipGap (by simp [hahead])
      generalize c.skipGap = e at hlands hahead hs
      have hnext : e.Over [a] e.next := by
        obtain ⟨behind, ahead⟩ := e
        cases hahead
        exact ⟨rfl, rfl⟩
      have hword' (ha : isWordStart a) :
          e.Word (takeWord e.behind (a :: rest)).1 (takeWord e.behind (a :: rest)).2 := by
        have hw := @word_takeWord a e.behind rest ha
        rwa [← hahead] at hw ⊢
      have hgo {m : Nat} {d : Cursor} (ht : Token n e m d) : Sound e (fromClause kind fuel m d) :=
        .mono ht.onward (ih (h.token hs ht))
      dsimp only
      split_ifs with hopen hclose hend hquote hword hfrom hq hmark
      · subst hopen
        exact hgo (.opening hnext)
      · subst hclose
        exact hgo (.closing hnext)
      · exact sound_none _ _
      · obtain ⟨value, d, hliteral, heq⟩ | ⟨hbroken, heq⟩ :=
          demandString_cases (c := e) (by simp [hahead, hquote.1])
        · simp only [heq]
          exact hgo (.string hquote.2 hliteral)
        · simp only [heq]
          obtain ⟨k, rfl⟩ : ∃ k, n = k + 1 := ⟨n - 1, by omega⟩
          exact sound_error (.name hkind hb h hs) hbroken
      · have hw := hword' hword
        have hspaced := spaced_skipGap (ne_nil_of_any hq)
        obtain ⟨hfrom, rfl⟩ := hfrom
        rw [hfrom] at hw
        refine .mono (hw.between.onward.trans hspaced.onward) ?_
        have hseam := hs.seam (h.seam hb.seam)
        exact sound_specifier (.clause hkind hb h hs hseam hw hspaced) hq
      · exact sound_none _ _
      · exact hgo (.word (hword' hword) fun hw => Nat.pos_of_ne_zero fun hn => hfrom ⟨hw, hn⟩)
      · have hno : isQuote a = false := by
          rw [Bool.eq_false_iff]
          intro hq
          obtain rfl | rfl | hn := hmark
          · exact absurd hq (by decide)
          · exact absurd hq (by decide)
          · exact hquote ⟨hq, hn⟩
        exact hgo (.mark hnext hlands hopen hclose hno (by simpa using hword) hmark)
      · exact sound_none _ _

namespace Clause

variable {b c : Cursor} {keyword : String} {kind : DependencyKind}

theorem sound_callClause (hkind : callKind? keyword = some kind) (hb : b.Behind keyword)
    (hs : b.Spaced c) : Sound c (callClause kind c) := by
  unfold callClause
  refine .mono (onward_blank c) ?_
  dsimp only
  split_ifs with hopen hquote
  · have hparen : c.skipGap.Over ['('] c.skipGap.next := by
      obtain ⟨rest, hahead⟩ := List.head?_eq_some_iff.mp hopen
      generalize c.skipGap = e at hahead
      obtain ⟨behind, ahead⟩ := e
      cases hahead
      exact ⟨rfl, rfl⟩
    have hc : c.Spaced c.skipGap := spaced_skipGap (by intro h; simp [h] at hopen)
    generalize c.skipGap = e at hparen hc hquote
    have he : e.next.Spaced e.next.skipGap := spaced_skipGap (ne_nil_of_any hquote)
    have hintro : Introduced kind e.next.skipGap := .call hkind hb (hs.trans hc) hparen he
    refine .mono (hparen.onward.trans he.onward) ?_
    obtain ⟨value, d, hliteral, heq⟩ | ⟨hbroken, heq⟩ := demandString_cases hquote
    · simp only [heq]
      split_ifs
      · exact sound_mention hintro hliteral (onward_blank d)
      · exact sound_none _ _
    · simp only [heq]
      exact sound_error (.specifier hintro) hbroken
  · exact sound_none _ _
  · exact sound_none _ _

theorem sound_importClause (h : c.Behind "import") : Sound c (importClause c) := by
  unfold importClause
  refine .mono (onward_blank c) ?_
  have hs {a : Char} (ha : c.skipGap.ahead.head? = some a) : c.Spaced c.skipGap :=
    spaced_skipGap (by intro hnil; simp [hnil] at ha)
  dsimp only
  split
  case h_1 ha => exact sound_callClause rfl h (hs ha)
  case h_2 => exact sound_none _ _
  case h_3 a hparen hdot ha =>
    split_ifs with hquote
    · exact sound_specifier (.effect h (hs ha)) (by rwa [ha])
    · have hbegins : Begins .staticImport a := by
        simp only [Bool.not_eq_true] at hquote
        simpa [Begins, hquote] using ⟨hparen, hdot⟩
      exact sound_fromClause rfl h
        ⟨c.skipGap, hs ha, c.lands_skipGap, ⟨a, ha, hbegins⟩, .here _ _⟩ _
  case h_4 => exact sound_none _ _

theorem sound_exportClause (h : c.Behind "export") : Sound c (exportClause c) := by
  unfold exportClause
  refine .mono (onward_blank c) ?_
  dsimp only
  split
  case h_1 a ha =>
    have hs : c.Spaced c.skipGap := spaced_skipGap (by intro hnil; simp [hnil] at ha)
    split_ifs with hfirst
    · have hbegins : Begins .exportFrom a := hfirst
      exact sound_fromClause rfl h
        ⟨c.skipGap, hs, c.lands_skipGap, ⟨a, ha, hbegins⟩, .here _ _⟩ _
    · exact sound_none _ _
  case h_2 => exact sound_none _ _

theorem sound_keywordClause (h : c.Behind keyword) : Sound c (keywordClause keyword c) := by
  unfold keywordClause
  split
  · exact sound_importClause h
  · exact sound_exportClause h
  · exact sound_callClause rfl h (.refl c)
  · exact sound_none _ _

end Clause

/-! ## What the scanner reads behind a keyword -/

section
variable {b c d e : Cursor} {keyword : String} {kind : DependencyKind} {n : Nat}

theorem Cursor.Over.head_eq {a : Char} {t : List Char} (h : c.Over (a :: t) d) :
    c.ahead.head? = some a := by
  rw [h.ahead]
  rfl

/-- The scanner comes to every place of a clause. -/
theorem Cursor.InClause.keywordClause_eq (hkind : fromKind? keyword = some kind)
    (h : b.InClause kind n d) :
    ∃ fuel, d.ahead.length < fuel ∧ keywordClause keyword b = fromClause kind fuel n d := by
  obtain ⟨c, hspaced, hlands, ⟨a, ha, hbegins⟩, hwalk⟩ := h
  have hskip := hspaced.skipGap_eq hlands
  obtain ⟨fuel, hfuel, heq⟩ := hwalk.fromClause_eq kind (Nat.lt_succ_self _)
  refine ⟨fuel, hfuel, ?_⟩
  rw [← heq]
  have ha : c.ahead.head? = some a := ha
  unfold fromKind? at hkind
  split at hkind <;> cases hkind
  · obtain ⟨hparen, hdot, hquote⟩ := hbegins
    simp [keywordClause, importClause, hskip, ha, hquote]
  · have hbegins : a = '*' ∨ a = '\x7b' := hbegins
    simp [keywordClause, exportClause, hskip, ha, hbegins]

/-- What the scanner reads behind the parenthesis of a call. -/
def callArgument (kind : DependencyKind) (c : Cursor) : Clause :=
  let c := c.skipGap
  if c.ahead.head?.any isQuote then
    match c.demandString with
    | .error e => .error e
    | .ok (s, d) =>
      let d := d.skipGap
      .ok (d, if d.ahead.head?.any fun a => a = ')' || a = ',' then mention s kind c.line else none)
  else .ok (c, none)

/-- The scanner comes to the argument of a call. -/
theorem keywordClause_call (hkind : callKind? keyword = some kind) (hs : b.Spaced c)
    (hparen : c.Over ['('] d) : keywordClause keyword b = callArgument kind d := by
  have hlands : c.Lands := lands_of_token hparen.ahead (by decide) (by decide)
  have hskip : b.skipGap = c := hs.skipGap_eq hlands
  have hc : c.skipGap = c := hlands
  unfold callKind? at hkind
  split at hkind <;> cases hkind
  · simp only [keywordClause, importClause, hskip, hparen.head_eq, callClause, hc, hparen.next_eq,
      if_true]
    rfl
  · simp only [keywordClause, callClause, hskip, hparen.head_eq, hparen.next_eq, if_true]
    rfl

end

end Bundler.Source

import Bundler.Proofs.Source.Clauses
import Bundler.Proofs.Source.Mentions

/-!
# Printed programs

A program is printed item by item: comments, strings and templates whose texts may look like code,
and the forms in which a dependency is written. A scan of the print finds the dependencies of the
items and nothing else, whatever stands in the texts between them.
-/

namespace Bundler.Source

/-! ## Items -/

/-- A word that is none of those a scan looks for. -/
structure Name where
  first : Char
  others : List Char
  isStart : isWordStart first
  isWord : others.all isWordChar
  free : first :: others ∉ ["import".toList, "export".toList, "require".toList, "from".toList]

namespace Name

def chars (x : Name) : List Char := x.first :: x.others

def text (x : Name) : String := String.ofList x.chars

@[simp] theorem toList_text (x : Name) : x.text.toList = x.chars := String.toList_ofList

theorem first_not_mem (x : Name) : x.first ∉ ['/', '(', '.'] := by
  have hne {b : Char} (hb : isWordStart b = false) : x.first ≠ b := ne_of_isWordStart x.isStart hb
  simp [hne (b := '/') (by decide), hne (b := '(') (by decide), hne (b := '.') (by decide)]

@[simp] theorem newline_not_mem (x : Name) : '\n' ∉ x.chars := fun h =>
  absurd (List.all_eq_true.mp (all_isWordChar_cons x.isStart x.isWord) _ h) (by decide)

@[simp] theorem count_newline (x : Name) : x.chars.count '\n' = 0 :=
  List.count_eq_zero_of_not_mem x.newline_not_mem

end Name

structure LineText where
  chars : List Char
  line : '\n' ∉ chars

structure BlockText where
  chars : List Char
  inside : ¬ ['*', '/'] <:+: chars

/-- What can stand in a template as it is. -/
structure TemplateText where
  chars : List Char
  own : '`' ∉ chars
  plain : '\\' ∉ chars
  noSubstitution : ¬ ['$', '\x7b'] <:+: chars

structure Specifier (q : Quote) extends StringText q where
  nonempty : chars ≠ []

/-- The forms in which a script mentions a specifier. -/
inductive Form
  | effect
  | named (x : Name)
  | whole (x : Name)
  | list (x : Name)
  | exportAll
  | exportList (x : Name)
  | require (x : Name)
  | dynamic

namespace Form

def kind : Form → DependencyKind
  | effect | named _ | whole _ | list _ => .staticImport
  | exportAll | exportList _ => .exportFrom
  | require _ => .require
  | dynamic => .dynamicImport

/-- What stands before the specifier. -/
def before : Form → String
  | effect => "import "
  | named x => "import " ++ x.text ++ " from "
  | whole x => "import * as " ++ x.text ++ " from "
  | list x => "import \x7b " ++ x.text ++ " \x7d from "
  | exportAll => "export * from "
  | exportList x => "export \x7b " ++ x.text ++ " \x7d from "
  | require x => x.text ++ " = require("
  | dynamic => "import("

/-- What stands behind it. -/
def after : Form → String
  | require _ | dynamic => ")"
  | _ => ""

end Form

inductive Item
  | lineComment (text : LineText)
  | blockComment (text : BlockText)
  | string (q : Quote) (text : StringText q) (semicolon : Bool)
  | template (text : TemplateText) (semicolon : Bool)
  | dependency (form : Form) (q : Quote) (specifier : Specifier q) (semicolon : Bool)

namespace Item

/-- A statement may end with its line. -/
def ending (semicolon : Bool) : List Char := if semicolon then [';'] else []

def chars : Item → List Char
  | lineComment t => '/' :: '/' :: t.chars
  | blockComment t => '/' :: '*' :: (t.chars ++ ['*', '/'])
  | string _ t semicolon => t.literal ++ ending semicolon
  | template t semicolon => '`' :: (t.chars ++ '`' :: ending semicolon)
  | dependency form _ s semicolon =>
    form.before.toList ++ s.literal ++ form.after.toList ++ ending semicolon

/-- What an item mentions that begins on the line `n`. -/
def mention? (n : Nat) : Item → Option Mention
  | dependency form _ s _ => some ⟨String.ofList s.chars, form.kind, n⟩
  | _ => none

/-- A program, each item on lines of its own. -/
def print (items : List Item) : List Char := items.flatMap fun i => i.chars ++ ['\n']

/-- The mentions of a program that begins on the line `n`. -/
def mentions : Nat → List Item → List Mention
  | _, [] => []
  | n, i :: items => (i.mention? n).toList ++ mentions (n + i.chars.count '\n' + 1) items

end Item

/-! ## Reading the forms -/

/-- What stands between `import` or `export` and a specifier, if a clause is read over it. -/
def Binds (binding : List Char) : Prop :=
  ∀ (kind : DependencyKind) (q : Quote) (s : StringText q) (fuel : Nat) (behind rest : List Char),
    fromClause kind (fuel + 4) 0 ⟨behind, binding ++ (s.literal ++ rest)⟩ =
      specifier kind ⟨binding.reverse ++ behind, s.literal ++ rest⟩

theorem binds_all : Binds "* from ".toList := by
  intro kind q s fuel behind rest
  change fromClause kind (fuel + 4) 0
    ⟨behind, '*' :: ' ' :: ("from ".toList ++ (s.literal ++ rest))⟩ = _
  rw [fromClause_star, fromClause_space, fromClause_from]
  simp

section
variable (x : Name)

theorem Name.ne_from : x.first :: x.others ≠ "from".toList := fun e => x.free (by simp [e])

theorem binds_name : Binds (x.chars ++ " from ".toList) := by
  intro kind q s fuel behind rest
  rw [List.append_assoc]
  change fromClause kind (fuel + 4) 0
    ⟨behind, x.first :: (x.others ++ ' ' :: ("from ".toList ++ (s.literal ++ rest)))⟩ = _
  rw [fromClause_word _ _ _ _ _ x.isStart x.isWord (by decide) (absurd · x.ne_from),
    fromClause_space, fromClause_from]
  simp [Name.chars]

theorem binds_whole : Binds ("* as ".toList ++ x.chars ++ " from ".toList) := by
  intro kind q s fuel behind rest
  rw [List.append_assoc, List.append_assoc]
  change fromClause kind (fuel + 4) 0 ⟨behind, '*' :: ' ' :: 'a' :: (['s'] ++ ' ' ::
    x.first :: (x.others ++ ' ' :: ("from ".toList ++ (s.literal ++ rest))))⟩ = _
  rw [fromClause_star, fromClause_space,
    fromClause_word _ _ _ _ _ (by decide) (by decide) (by decide) (absurd · (by decide)),
    fromClause_space,
    fromClause_word _ _ _ _ _ x.isStart x.isWord (by decide) (absurd · x.ne_from),
    fromClause_space, fromClause_from]
  simp [Name.chars]

theorem binds_list : Binds ("\x7b ".toList ++ x.chars ++ " \x7d from ".toList) := by
  intro kind q s fuel behind rest
  rw [List.append_assoc, List.append_assoc]
  change fromClause kind (fuel + 4) 0 ⟨behind, '\x7b' :: ' ' :: x.first :: (x.others ++ ' ' ::
    '}' :: ' ' :: ("from ".toList ++ (s.literal ++ rest)))⟩ = _
  rw [fromClause_open, fromClause_space,
    fromClause_word _ _ _ _ _ x.isStart x.isWord (by decide) (fun _ => Nat.one_pos),
    fromClause_space, fromClause_close, fromClause_space, fromClause_from]
  simp [Name.chars]

end

theorem Specifier.mention_eq {q : Quote} (s : Specifier q) (kind : DependencyKind) (line : Nat) :
    mention (String.ofList s.chars) kind line = some ⟨String.ofList s.chars, kind, line⟩ :=
  if_neg (by simpa using s.nonempty)

theorem StringText.length_text {q : Quote} (s : StringText q) (binding rest : List Char) :
    (binding ++ (s.literal ++ rest)).length + 2 =
      binding.length + s.chars.length + rest.length + 4 := by
  simp only [literal, List.length_append, List.length_cons, List.length_nil]
  omega

/-- The print before a specifier keeps to its line. -/
theorem Form.newline_not_mem_before (form : Form) : '\n' ∉ form.before.toList := by
  cases form <;> simp [before]

/-- A word that stands for itself is passed with its clause. -/
theorem reads_word {word : String} {a stop : Char} {others behind rest : List Char} {c : Cursor}
    {m : Option Mention} (hb : atBoundary behind) (heq : word.toList = a :: others)
    (ha : isWordStart a) (hword : others.all isWordChar) (hstop : isWordChar stop = false)
    (hclause : keywordClause word ⟨word.toList.reverse ++ behind, stop :: rest⟩ = .ok (c, m)) :
    Reads ⟨behind, word.toList ++ stop :: rest⟩ m.toList c := by
  have hl := lexeme_word behind rest ha hword hstop
  rw [hb, ← heq, String.ofList_toList] at hl
  rw [heq, List.cons_append]
  simpa using Reads.clause hl hclause (.done c)

section
variable (stop : Char) {behind rest : List Char} {c : Cursor} {m : Option Mention}
  (hb : atBoundary behind) (hstop : isWordChar stop = false)
include hb hstop

theorem reads_import
    (h : importClause ⟨"import".toList.reverse ++ behind, stop :: rest⟩ = .ok (c, m)) :
    Reads ⟨behind, "import".toList ++ stop :: rest⟩ m.toList c :=
  reads_word hb rfl (by decide) (by decide) hstop (by simpa only [keywordClause] using h)

theorem reads_export
    (h : exportClause ⟨"export".toList.reverse ++ behind, stop :: rest⟩ = .ok (c, m)) :
    Reads ⟨behind, "export".toList ++ stop :: rest⟩ m.toList c :=
  reads_word hb rfl (by decide) (by decide) hstop (by simpa only [keywordClause] using h)

theorem reads_require
    (h : callClause .require ⟨"require".toList.reverse ++ behind, stop :: rest⟩ = .ok (c, m)) :
    Reads ⟨behind, "require".toList ++ stop :: rest⟩ m.toList c :=
  reads_word hb rfl (by decide) (by decide) hstop (by simpa only [keywordClause] using h)

end

theorem Name.keywordClause_eq (x : Name) (c : Cursor) :
    keywordClause (String.ofList x.chars) c = .ok (c, none) := by
  have hne {w : String} (hw : String.ofList x.chars = w) : x.chars = w.toList := by
    rw [← hw, String.toList_ofList]
  unfold keywordClause
  split
  case h_1 h => exact absurd (by simp [← hne h, chars]) x.free
  case h_2 h => exact absurd (by simp [← hne h, chars]) x.free
  case h_3 h => exact absurd (by simp [← hne h, chars]) x.free
  case h_4 => rfl

section
variable {q : Quote} (form : Form) (s : Specifier q) (behind rest : List Char)

theorem Form.specifier_eq (kind : DependencyKind) :
    specifier kind ⟨form.before.toList.reverse ++ behind, s.literal ++ rest⟩ =
      .ok (⟨(form.before.toList ++ s.literal).reverse ++ behind, rest⟩,
        some ⟨String.ofList s.chars, kind, 1 + behind.count '\n'⟩) := by
  have hline : form.before.toList.count '\n' = 0 :=
    List.count_eq_zero_of_not_mem form.newline_not_mem_before
  simp [s.toStringText.specifier_eq, s.mention_eq, hline]

/-- The clause behind a keyword ends with the specifier of its form. -/
theorem Form.fromClause_eq (kind : DependencyKind) {keyword tail : List Char} {a : Char}
    (hbinds : Binds (a :: tail)) (hbefore : form.before.toList = keyword ++ ' ' :: a :: tail) :
    fromClause kind ((tail ++ (s.literal ++ rest)).length + 2) 0
        ⟨' ' :: (keyword.reverse ++ behind), a :: (tail ++ (s.literal ++ rest))⟩ =
      .ok (⟨(form.before.toList ++ s.literal).reverse ++ behind, rest⟩,
        some ⟨String.ofList s.chars, kind, 1 + behind.count '\n'⟩) := by
  have hrun := hbinds kind q s.toStringText (tail.length + s.chars.length + rest.length)
    (' ' :: (keyword.reverse ++ behind)) rest
  rw [← form.specifier_eq s behind rest kind, hbefore, s.length_text]
  simpa using hrun

variable {a : Char} {binding : List Char} (hb : atBoundary behind) (hbinds : Binds binding)
  (hhead : binding.head? = some a)
include hb hbinds hhead

theorem Form.reads_import_from (hbefore : form.before.toList = "import ".toList ++ binding)
    (hblank : Text.isBlank a = false) (ha : a ∉ ['/', '(', '.']) (hquote : isQuote a = false) :
    Reads ⟨behind, form.before.toList ++ (s.literal ++ rest)⟩
      [⟨String.ofList s.chars, .staticImport, 1 + behind.count '\n'⟩]
      ⟨(form.before.toList ++ s.literal).reverse ++ behind, rest⟩ := by
  obtain ⟨tail, rfl⟩ := List.head?_eq_some_iff.mp hhead
  have hclause := (importClause_from ("import".toList.reverse ++ behind)
    (tail ++ (s.literal ++ rest)) hblank ha hquote).trans
    (form.fromClause_eq s behind rest .staticImport hbinds hbefore)
  have htext : form.before.toList ++ (s.literal ++ rest) =
      "import".toList ++ ' ' :: a :: (tail ++ (s.literal ++ rest)) := by
    rw [hbefore, List.append_assoc]
    rfl
  rw [htext]
  exact reads_import ' ' hb (by decide) hclause

theorem Form.reads_export_from (hbefore : form.before.toList = "export ".toList ++ binding)
    (ha : a = '*' ∨ a = '\x7b') :
    Reads ⟨behind, form.before.toList ++ (s.literal ++ rest)⟩
      [⟨String.ofList s.chars, .exportFrom, 1 + behind.count '\n'⟩]
      ⟨(form.before.toList ++ s.literal).reverse ++ behind, rest⟩ := by
  obtain ⟨tail, rfl⟩ := List.head?_eq_some_iff.mp hhead
  have hclause := (exportClause_from ("export".toList.reverse ++ behind)
    (tail ++ (s.literal ++ rest)) ha).trans
    (form.fromClause_eq s behind rest .exportFrom hbinds hbefore)
  have htext : form.before.toList ++ (s.literal ++ rest) =
      "export".toList ++ ' ' :: a :: (tail ++ (s.literal ++ rest)) := by
    rw [hbefore, List.append_assoc]
    rfl
  rw [htext]
  exact reads_export ' ' hb (by decide) hclause

omit hbinds hhead in
theorem Form.reads :
    Reads ⟨behind, form.before.toList ++ (s.literal ++ (form.after.toList ++ rest))⟩
      [⟨String.ofList s.chars, form.kind, 1 + behind.count '\n'⟩]
      ⟨(form.before.toList ++ s.literal).reverse ++ behind, form.after.toList ++ rest⟩ := by
  cases form with
  | effect =>
    refine @reads_import ' ' behind (s.literal ++ rest) _ (some _) hb (by decide) ?_
    rw [importClause_string]
    exact Form.effect.specifier_eq s behind rest .staticImport
  | named x =>
    exact (Form.named x).reads_import_from s behind rest hb (binds_name x) rfl (by simp [before])
      (isBlank_of_isWordStart x.isStart) x.first_not_mem (isQuote_eq_false x.isStart)
  | whole x =>
    exact (Form.whole x).reads_import_from s behind rest hb (binds_whole x) rfl (by simp [before])
      (by decide) (by decide) (by decide)
  | list x =>
    exact (Form.list x).reads_import_from s behind rest hb (binds_list x) rfl (by simp [before])
      (by decide) (by decide) (by decide)
  | exportAll =>
    exact Form.exportAll.reads_export_from s behind rest hb binds_all rfl rfl (.inl rfl)
  | exportList x =>
    exact (Form.exportList x).reads_export_from s behind rest hb (binds_list x) rfl
      (by simp [before]) (.inr rfl)
  | require x =>
    let call := "require".toList ++ '(' :: (s.literal ++ ')' :: rest)
    let behind₁ := " = ".toList.reverse ++ (x.text.toList.reverse ++ behind)
    have hname : Reads ⟨behind, x.text.toList ++ (" = ".toList ++ call)⟩ [] _ :=
      reads_word hb x.toList_text x.isStart x.isWord (by decide) (x.keywordClause_eq _)
    have hgap : Reads _ [] ⟨behind₁, call⟩ :=
      .punctuation (by decide) (x.text.toList.reverse ++ behind) call
    have hcall := callClause_string .require ("require".toList.reverse ++ behind₁) rest
      s.toStringText
    rw [s.mention_eq] at hcall
    have hread := reads_require '(' (show atBoundary behind₁ from rfl) (by decide) hcall
    simpa [before, after, kind, behind₁, call] using (hname.trans hgap).trans hread
  | dynamic =>
    have hcall := callClause_string .dynamicImport ("import".toList.reverse ++ behind) rest
      s.toStringText
    rw [← importClause_call, s.mention_eq] at hcall
    simpa [before, after, kind] using reads_import '(' hb (by decide) hcall

end

/-! ## Reading a program -/

namespace Item

variable (behind rest : List Char)

theorem reads_ending (semicolon : Bool) :
    Reads ⟨behind, ending semicolon ++ rest⟩ [] ⟨(ending semicolon).reverse ++ behind, rest⟩ :=
  .punctuation (by cases semicolon <;> decide) behind rest

/-- An item is read to its end, from wherever a word may begin. -/
theorem reads (i : Item) (hb : atBoundary behind) :
    Reads ⟨behind, i.chars ++ '\n' :: rest⟩ (i.mention? (1 + behind.count '\n')).toList
      ⟨i.chars.reverse ++ behind, '\n' :: rest⟩ := by
  cases i with
  | lineComment t =>
    have hline : '\n' ∉ '/' :: '/' :: t.chars := by simp [t.line]
    have hskip := skipLine_text behind rest hline
    have hl : lexeme behind '/' ('/' :: (t.chars ++ '\n' :: rest)) =
        .pass ⟨('/' :: '/' :: t.chars).reverse ++ behind, '\n' :: rest⟩ := by
      simpa [lexeme] using hskip
    exact .pass hl (.done _)
  | blockComment t =>
    have hskip := skipBlock?_text ('*' :: '/' :: behind) ('\n' :: rest) t.inside
    have hl : lexeme behind '/' ('*' :: (t.chars ++ '*' :: '/' :: '\n' :: rest)) =
        .pass ⟨'/' :: '*' :: (t.chars.reverse ++ '*' :: '/' :: behind), '\n' :: rest⟩ := by
      simp [lexeme, hskip]
    simpa [chars, mention?] using Reads.pass hl (.done _)
  | string q t semicolon =>
    have hl := t.lexeme_eq behind (ending semicolon ++ '\n' :: rest)
    simpa [chars, mention?, StringText.literal] using Reads.pass hl (reads_ending _ _ semicolon)
  | template t semicolon =>
    have h := Reads.template t.own t.plain t.noSubstitution
      (reads_ending ('`' :: (t.chars.reverse ++ '`' :: behind)) ('\n' :: rest) semicolon)
    simpa [chars, mention?] using h
  | dependency form q s semicolon =>
    have hform := form.reads s behind (ending semicolon ++ '\n' :: rest) hb
    have hafter : Reads _ [] ⟨form.after.toList.reverse ++
        ((form.before.toList ++ s.literal).reverse ++ behind), ending semicolon ++ '\n' :: rest⟩ :=
      .punctuation (by cases form <;> dsimp only [Form.after] <;> decide) _ _
    simpa [chars, mention?] using
      (hform.trans hafter).trans (reads_ending _ ('\n' :: rest) semicolon)

/-- A program is read item by item. Between two items stands a newline, so that the next begins
at a boundary, and the lines behind it are those of the items before. -/
theorem reads_print (items : List Item) (hb : atBoundary behind) :
    Reads ⟨behind, print items⟩ (mentions (1 + behind.count '\n') items)
      ⟨(print items).reverse ++ behind, []⟩ := by
  induction items generalizing behind with
  | nil => exact .done _
  | cons i items ih =>
    have hi := i.reads behind (print items) hb
    have hnewline : Reads _ [] ⟨'\n' :: (i.chars.reverse ++ behind), print items⟩ :=
      .punctuation (show ['\n'].all isPunctuation by decide) (i.chars.reverse ++ behind) _
    have hitems := ih ('\n' :: (i.chars.reverse ++ behind)) rfl
    have hline : 1 + behind.count '\n' + i.chars.count '\n' + 1 =
        1 + ('\n' :: (i.chars.reverse ++ behind)).count '\n' := by
      simp
      omega
    rw [mentions, hline]
    simpa [print] using (hi.trans hnewline).trans hitems

/-- A scan finds the dependencies of a printed program: each specifier once, where it comes first,
whatever the texts between them look like. -/
theorem scanScript_print (items : List Item) :
    scanScript (String.ofList (print items)) = .ok (Mention.report (mentions 1 items)) := by
  have h : Reads (Cursor.start (String.ofList (print items))) (mentions 1 items)
      ⟨(print items).reverse, []⟩ := by
    simpa [Cursor.start] using reads_print [] items rfl
  rw [← Mention.dedupe_eq_report, h.scanScript_eq]

example : print [.template ⟨" import 'a'".toList, by decide, by decide, by decide⟩ true,
    .dependency (.list ⟨'x', [], by decide, by decide, by decide⟩) .double
      ⟨⟨['b'], by decide, by decide, by decide⟩, by decide⟩ true] =
    "` import 'a'`;\nimport \x7b x \x7d from \"b\";\n".toList := by decide

end Item

end Bundler.Source

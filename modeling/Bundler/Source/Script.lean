import Bundler.Source.Cursor

/-!
# Dependencies of scripts

A scan passes over comments, strings, regular expressions and templates and reports the specifiers
of `import`, `export ... from`, `import(...)` and `require(...)`. It does not parse: it only knows
where a specifier can stand. A literal that does not close is read again as code from behind its
opening quote.
-/

namespace Bundler.Source

/-- A clause that was read: where it ends and what it mentions. -/
abbrev Clause := Except ScanError (Cursor × Option Mention)

/-- The string that is ahead; there is a fault at its quote if it does not close. -/
def Cursor.demandString (c : Cursor) : Except ScanError (String × Cursor) :=
  match c.string? with
  | some r => .ok r
  | none => .error (c.error .unclosedString)

/-- A mention, unless its specifier is empty. -/
def mention (specifier : String) (kind : DependencyKind) (line : Nat) : Option Mention :=
  if specifier.isEmpty then none else some ⟨specifier, kind, line⟩

/-- The specifier that is ahead, with the line of its quote. -/
def specifier (kind : DependencyKind) (c : Cursor) : Clause :=
  match c.demandString with
  | .ok (s, c') => .ok (c', mention s kind c.line)
  | .error e => .error e

/-- Walks a clause up to `from` and a specifier. It ends at a `;` and at what cannot stand in a
clause; `depth` braces are open. -/
def fromClause (kind : DependencyKind) : Nat → Nat → Cursor → Clause
  | 0, _, c => .ok (c, none)
  | fuel + 1, depth, c =>
    let c := c.skipGap
    match c.ahead with
    | [] => .ok (c, none)
    | a :: _ =>
      if a = '\x7b' then fromClause kind fuel (depth + 1) c.next
      else if a = '}' then fromClause kind fuel (depth - 1) c.next
      else if a = ';' ∧ depth = 0 then .ok (c, none)
      else if isQuote a ∧ 0 < depth then
        match c.demandString with
        | .ok (_, c') => fromClause kind fuel depth c'
        | .error e => .error e
      else if isWordStart a then
        let (word, c') := takeWord c.behind c.ahead
        if word = "from".toList ∧ depth = 0 then
          let c' := c'.skipGap
          if c'.ahead.head?.any isQuote then specifier kind c' else .ok (c', none)
        else fromClause kind fuel depth c'
      else if a = ',' ∨ a = '*' ∨ 0 < depth then fromClause kind fuel depth c.next
      else .ok (c, none)

/-- The arguments of `import` or `require`: a string alone, or before a comma, is a specifier. -/
def callClause (kind : DependencyKind) (c : Cursor) : Clause :=
  let c := c.skipGap
  if c.ahead.head? = some '(' then
    let c := c.next.skipGap
    if c.ahead.head?.any isQuote then
      match c.demandString with
      | .error e => .error e
      | .ok (s, c') =>
        let c' := c'.skipGap
        .ok (c', if c'.ahead.head?.any fun a => a = ')' || a = ',' then mention s kind c.line
          else none)
    else .ok (c, none)
  else .ok (c, none)

/-- What follows `import`. -/
def importClause (c : Cursor) : Clause :=
  let c := c.skipGap
  match c.ahead.head? with
  | some '(' => callClause .dynamicImport c
  | some '.' => .ok (c, none)
  | some a =>
    if isQuote a then specifier .staticImport c
    else fromClause .staticImport (c.ahead.length + 1) 0 c
  | none => .ok (c, none)

/-- What follows `export`: only lists and stars can name another module. -/
def exportClause (c : Cursor) : Clause :=
  let c := c.skipGap
  match c.ahead.head? with
  | some a =>
    if a = '*' ∨ a = '\x7b' then fromClause .exportFrom (c.ahead.length + 1) 0 c
    else .ok (c, none)
  | none => .ok (c, none)

/-- What follows a word that stands for itself. -/
def keywordClause (word : String) (c : Cursor) : Clause :=
  match word with
  | "import" => importClause c
  | "export" => exportClause c
  | "require" => callClause .require c
  | _ => .ok (c, none)

/-- What a scan does with the characters ahead. -/
inductive Lexeme
  /-- Passes over something. -/
  | pass (c : Cursor)
  | fail (e : ScanError)
  /-- A template, of which the opening quote is passed. -/
  | template (inside : Cursor)
  | openBrace (c : Cursor)
  | closeBrace (c : Cursor)
  /-- A word, and whether it stands for itself. -/
  | word (w : String) (free : Bool) (c : Cursor)

/-- The lexeme that begins with `a`, the first character ahead. -/
def lexeme (behind : List Char) (a : Char) (rest : List Char) : Lexeme :=
  let after : Cursor := ⟨a :: behind, rest⟩
  if a = '/' then
    if rest.head? = some '/' then .pass (skipLine behind (a :: rest))
    else if rest.head? = some '*' then
      match skipBlock? ('*' :: a :: behind) rest.tail with
      | some c => .pass c
      | none => .fail (Cursor.error ⟨behind, a :: rest⟩ .unclosedBlockComment)
    else if regexMayFollow behind then .pass ((skipRegex? false (a :: behind) rest).getD after)
    else .pass after
  else if isQuote a then .pass (((stringBody? a (a :: behind) rest).map (·.2)).getD after)
  else if a = '`' then .template after
  else if a = '\x7b' then .openBrace after
  else if a = '}' then .closeBrace after
  else if isWordStart a then
    let (w, c) := takeWord behind (a :: rest)
    .word (String.ofList w) (atBoundary behind) c
  else .pass after

/-- How a scan ended: at a cursor, with a fault, or because its fuel was used up. -/
inductive Halt
  | at (c : Cursor)
  | failed (e : ScanError)
  | outOfFuel
deriving DecidableEq

/-- What a scan found, in the order of the source, and how it ended. -/
structure Scan where
  found : List Mention
  halt : Halt
deriving DecidableEq

mutual

/-- Scans code. In a substitution, of which `depth` braces are open, it ends behind the brace that
closes it. -/
def scanCode : Nat → Option Nat → Cursor → List Mention → Scan
  | 0, _, _, found => ⟨found, .outOfFuel⟩
  | fuel + 1, depth, c, found =>
    match c.ahead with
    | [] => ⟨found, .at c⟩
    | a :: rest =>
      match lexeme c.behind a rest with
      | .pass c' => scanCode fuel depth c' found
      | .fail e => ⟨found, .failed e⟩
      | .openBrace c' => scanCode fuel (depth.map (· + 1)) c' found
      | .closeBrace c' =>
        match depth with
        | some 0 => ⟨found, .at c'⟩
        | _ => scanCode fuel (depth.map (· - 1)) c' found
      | .template inside =>
        match scanTemplate fuel c inside found with
        | ⟨found', .at c'⟩ => scanCode fuel depth c' found'
        | ⟨found', .failed _⟩ => scanCode fuel depth inside found'
        | ⟨found', .outOfFuel⟩ => ⟨found', .outOfFuel⟩
      | .word w free c' =>
        if free then
          match keywordClause w c' with
          | .ok (c'', m) => scanCode fuel depth c'' (found ++ m.toList)
          | .error e => ⟨found, .failed e⟩
        else scanCode fuel depth c' found

/-- Scans a template that was opened at `opened`, up to its closing quote. -/
def scanTemplate : Nat → Cursor → Cursor → List Mention → Scan
  | 0, _, _, found => ⟨found, .outOfFuel⟩
  | fuel + 1, opened, c, found =>
    match c.ahead with
    | [] => ⟨found, .failed (opened.error .unclosedTemplate)⟩
    | '\\' :: _ => scanTemplate fuel opened c.next.next found
    | '`' :: _ => ⟨found, .at c.next⟩
    | '$' :: '\x7b' :: _ =>
      match scanCode fuel (some 0) c.next.next found with
      | ⟨found', .at c'⟩ => scanTemplate fuel opened c' found'
      | failed => failed
    | _ :: _ => scanTemplate fuel opened c.next found

end

/-- The dependencies of a script, each specifier once and in the order of the source. -/
def scanScript (s : String) : Except ScanError (List Mention) :=
  let c := Cursor.start s
  match scanCode (c.ahead.length + 1) none c [] with
  | ⟨_, .failed e⟩ => .error e
  | ⟨found, _⟩ => .ok (Mention.dedupe found)

end Bundler.Source

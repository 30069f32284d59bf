import Bundler.Proofs.Path
import Bundler.Proofs.Table
import Bundler.Resolve.Package

/-!
# What packages offer

What a request names and what a `package.json` contributes to it, apart from how either is read. A
request falls into parts at its slashes. The values of `exports` have targets in an order of
preference, of which the first one counts.
-/

namespace Bundler

namespace Package

/-! ## The parts of a request -/

/-- The parts of a text, between its slashes. -/
def parts (s : String) : List (List Char) := s.toList.splitOn '/'

def ofParts (ps : List (List Char)) : String := String.ofList (['/'].intercalate ps)

/-- How many parts of a request are the name of a package: one more if it begins with a scope. -/
def nameParts (request : String) : Nat := if request.toList.head? = some '@' then 2 else 1

def nameOf (request : String) : String := ofParts ((parts request).take (nameParts request))

/-- What a request asks for in its package; none if that is the package itself. -/
def subpathOf (request : String) : Option String :=
  match (parts request).drop (nameParts request) with
  | [] => none
  | rest => some (ofParts rest)

theorem ofParts_splitOn (cs : List Char) : ofParts (cs.splitOn '/') = String.ofList cs :=
  congrArg String.ofList (List.intercalate_splitOn '/')

theorem splitOn_of_splitOnce?_none {cs : List Char} (h : Text.splitOnce? '/' cs = none) :
    cs.splitOn '/' = [cs] := List.splitOn_eq_singleton (Text.splitOnce?_eq_none.mp h)

theorem splitOn_of_splitOnce?_some {cs : List Char} {p : List Char × List Char}
    (h : Text.splitOnce? '/' cs = some p) : cs.splitOn '/' = p.1 :: p.2.splitOn '/' := by
  obtain ⟨hcs, hfree⟩ := Text.splitOnce?_eq_some h
  rw [hcs, List.splitOn_append_cons_self, List.splitOn_eq_singleton hfree]
  rfl

/-- A text whose first part is known. -/
theorem head?_splitOn {cs part : List Char} (h : '/' ∉ part) :
    (cs.splitOn '/').head? = some part ↔ cs = part ∨ ∃ rest, cs = part ++ '/' :: rest := by
  constructor
  · intro hhead
    cases hsplit : Text.splitOnce? '/' cs with
    | none =>
      rw [splitOn_of_splitOnce?_none hsplit] at hhead
      exact .inl (Option.some.inj hhead)
    | some p =>
      rw [splitOn_of_splitOnce?_some hsplit] at hhead
      obtain rfl : p.1 = part := Option.some.inj hhead
      exact .inr ⟨p.2, (Text.splitOnce?_eq_some hsplit).1⟩
  · rintro (rfl | ⟨rest, rfl⟩)
    · rw [List.splitOn_eq_singleton h]
      rfl
    · rw [List.splitOn_append_cons_self, List.splitOn_eq_singleton h]
      rfl

theorem subpathOf_of_drop {request : String} (cs : List Char)
    (h : (parts request).drop (nameParts request) = cs.splitOn '/') :
    subpathOf request = some (String.ofList cs) := by
  unfold subpathOf
  split
  next hnil => exact absurd (h.symm.trans hnil) (List.splitOn_ne_nil _ _)
  next => rw [h, ofParts_splitOn]

/-- A request is read by its parts. -/
theorem parse_eq (s : String) : Request.parse s = ⟨nameOf s, subpathOf s⟩ := by
  have hwhole : (parts s).length ≤ nameParts s → (⟨s, none⟩ : Request) = ⟨nameOf s, subpathOf s⟩ := by
    intro hlen
    have hname : nameOf s = s := by
      unfold nameOf
      rw [List.take_of_length_le hlen]
      exact (ofParts_splitOn _).trans String.ofList_toList
    unfold subpathOf
    rw [hname, List.drop_of_length_le hlen]
  unfold Request.parse
  split
  next tail hs =>
    have hn : nameParts s = 2 := if_pos (by rw [hs]; rfl)
    split
    next hsplit =>
      refine hwhole ?_
      rw [hn, parts, splitOn_of_splitOnce?_none hsplit]
      exact Nat.le_succ 1
    next scope rest hsplit =>
      have hparts : parts s = scope :: rest.splitOn '/' := splitOn_of_splitOnce?_some hsplit
      split
      next hrest =>
        refine hwhole ?_
        rw [hn, hparts, splitOn_of_splitOnce?_none hrest]
        exact Nat.le_refl 2
      next name sub hrest =>
        rw [splitOn_of_splitOnce?_some hrest] at hparts
        have hname : nameOf s = String.ofList (scope ++ '/' :: name) := by
          unfold nameOf
          rw [hn, hparts]
          simp [ofParts, List.intercalate]
        rw [hname, subpathOf_of_drop sub (by rw [hn, hparts]; rfl)]
  next hs =>
    have hn : nameParts s = 1 := by
      refine if_neg fun hat => ?_
      obtain ⟨tail, htail⟩ := List.head?_eq_some_iff.mp hat
      exact hs tail htail
    split
    next hsplit =>
      refine hwhole ?_
      rw [hn, parts, splitOn_of_splitOnce?_none hsplit]
      exact Nat.le_refl 1
    next name sub hsplit =>
      have hparts : parts s = name :: sub.splitOn '/' := splitOn_of_splitOnce?_some hsplit
      have hname : nameOf s = String.ofList name := by
        unfold nameOf
        rw [hn, hparts]
        simp [ofParts, List.intercalate]
      rw [hname, subpathOf_of_drop sub (by rw [hn, hparts]; rfl)]

/-! ## The targets of an export -/

mutual

/-- The targets of an export, the preferred one first: a text is one itself, and among conditions
those of `import` come before those of `default`, and these before those of `require`. -/
def choices : Json → List String
  | .text s => [s]
  | .object fields => choicesAt "import" fields ++ choicesAt "default" fields ++
      choicesAt "require" fields
  | _ => []

/-- The targets of the export that stands under a key. -/
def choicesAt (key : String) : List (String × Json) → List String
  | [] => []
  | (k, v) :: rest => if k = key then choices v else choicesAt key rest

end

/-- The targets that `exports` has for a key, the preferred one first. A text is for the package
itself, whose key is a dot. So are conditions, which are fields that do not begin with a dot. -/
def exportChoices (key : String) : Json → List String
  | .text s => if key = "." then [s] else []
  | .object fields =>
    if key = "." ∧ ∀ f ∈ fields, f.1.toList.head? ≠ some '.' then choices (.object fields)
    else choicesAt key fields
  | _ => []

/-- The text that stands under a key. -/
def textAt (manifest : Json) (key : String) : List String :=
  ((manifest.field? key).bind Json.text?).toList

/-- What a `package.json` contributes to a request: the preferred target of its exports and, for the
package itself, its module and its main file. -/
def contributed (manifest : Json) : Option String → List String
  | none => ((manifest.field? "exports").toList.flatMap (exportChoices ".")).take 1 ++
      textAt manifest "module" ++ textAt manifest "main"
  | some sub => ((manifest.field? "exports").toList.flatMap (exportChoices ("./" ++ sub))).take 1

theorem fieldTargets_eq (fields : List (String × Json)) :
    fieldTargets fields = fields.map fun f => (f.1, exportTarget? f.2) := by
  induction fields with
  | nil => rfl
  | cons f fields ih => rw [fieldTargets, List.map_cons, ih]

/-- The target of conditions is that of the first condition that has one. -/
theorem exportTarget?_object (fields : List (String × Json)) : exportTarget? (.object fields) =
    conditions.findSome? fun c => (Table.find c fields).bind exportTarget? := by
  rw [exportTarget?, fieldTargets_eq]
  refine congrArg conditions.findSome? (funext fun c => ?_)
  refine (congrArg Option.join (Table.find_map (fun _ => exportTarget?) c fields)).trans ?_
  cases Table.find c fields <;> rfl

mutual

theorem exportTarget?_eq : ∀ v, exportTarget? v = (choices v).head?
  | .text s => rfl
  | .object fields => by
    have hc := fun c => bind_exportTarget?_eq c fields
    rw [exportTarget?_object, choices]
    simp only [conditions, List.findSome?_cons, List.findSome?_nil, hc, List.head?_append]
    cases (choicesAt "import" fields).head? <;> cases (choicesAt "default" fields).head? <;>
      cases (choicesAt "require" fields).head? <;> rfl
  | .null | .bool _ | .number _ | .list _ => rfl

theorem bind_exportTarget?_eq (c : String) : ∀ fields : List (String × Json),
    (Table.find c fields).bind exportTarget? = (choicesAt c fields).head?
  | [] => rfl
  | (k, v) :: rest => by
    rw [Table.find, choicesAt]
    by_cases hk : k = c
    · rw [if_pos (Table.compare_eq_iff.mpr hk.symm), if_pos hk]
      exact exportTarget?_eq v
    · rw [if_neg fun he => hk (Table.compare_eq_iff.mp he).symm, if_neg hk]
      exact bind_exportTarget?_eq c rest

end

theorem find_eq_none {c : String} {fields : List (String × Json)} (h : ∀ f ∈ fields, f.1 ≠ c) :
    Table.find c fields = none := by
  induction fields with
  | nil => rfl
  | cons f fields ih =>
    rw [Table.find, if_neg fun he => h f List.mem_cons_self (Table.compare_eq_iff.mp he).symm]
    exact ih fun f hf => h f (List.mem_cons_of_mem _ hf)

theorem startsWith_dot {s : String} : Text.startsWith s "." = true ↔ s.toList.head? = some '.' := by
  rw [show Text.startsWith s "." = ['.'].isPrefixOf s.toList from rfl]
  cases s.toList with
  | nil => decide
  | cons c cs =>
    simp only [List.isPrefixOf, Bool.and_true, beq_iff_eq, List.head?_cons, Option.some.injEq]
    exact eq_comm

theorem exported?_eq (exports : Json) (key : String) :
    exported? exports key = (exportChoices key exports).head? := by
  cases exports with
  | text s =>
    unfold exported? exportChoices
    dsimp only
    split <;> rfl
  | object fields =>
    unfold exported? exportChoices
    dsimp only
    by_cases hconditions : key = "." ∧ ∀ f ∈ fields, f.1.toList.head? ≠ some '.'
    · -- No field is for the package itself, so the conditions are.
      rw [if_pos hconditions, ← exportTarget?_eq]
      obtain ⟨rfl, hplain⟩ := hconditions
      have hnone : Table.find "." fields = none := find_eq_none fun f hf he => hplain f hf (he ▸ rfl)
      have hany : (fields.any fun f => Text.startsWith f.1 ".") = false :=
        List.any_eq_false.mpr fun f hf hd => hplain f hf (startsWith_dot.mp hd)
      rw [hnone, hany]
      rfl
    · rw [if_neg hconditions, ← bind_exportTarget?_eq]
      cases Table.find key fields with
      | some v => rfl
      | none =>
        refine if_neg fun hkey => hconditions ?_
        rw [Bool.and_eq_true, decide_eq_true_eq, Bool.not_eq_true', List.any_eq_false] at hkey
        exact ⟨hkey.1, fun f hf hd => hkey.2 f hf (startsWith_dot.mpr hd)⟩
  | null => rfl
  | bool b => rfl
  | number n => rfl
  | list items => rfl

/-- What a `package.json` offers is what it contributes. -/
theorem entries_eq (manifest : Json) (subpath : Option String) :
    entries manifest subpath = contributed manifest subpath := by
  have hhead : ∀ key, ((manifest.field? "exports").bind fun e => exported? e key).toList =
      ((manifest.field? "exports").toList.flatMap (exportChoices key)).take 1 := by
    intro key
    cases manifest.field? "exports" with
    | none => rfl
    | some e =>
      rw [Option.bind_some, exported?_eq, Option.toList_some, List.flatMap_singleton]
      cases exportChoices key e <;> rfl
  unfold entries contributed
  dsimp only
  cases subpath with
  | none =>
    have hfallbacks : (["module", "main"].filterMap fun f => (manifest.field? f).bind Json.text?) =
        textAt manifest "module" ++ textAt manifest "main" := by
      simp only [List.filterMap_cons, List.filterMap_nil, textAt]
      cases (manifest.field? "module").bind Json.text? <;>
        cases (manifest.field? "main").bind Json.text? <;> rfl
    rw [hhead, List.append_assoc, ← hfallbacks]
    rfl
  | some sub =>
    rw [hhead]
    exact List.append_nil _

end Package

end Bundler

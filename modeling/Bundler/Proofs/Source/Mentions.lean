import Bundler.Source.Dependency
import Mathlib.Data.List.Induction
import Mathlib.Data.List.Nodup

/-!
# Each specifier once

The mentions of a text are merged one after the other. What comes out is told by the whole list:
the specifiers in the order in which they come first, with the line of the first mention and the
kind on which all mentions of the specifier settle.
-/

namespace Bundler

namespace Mention

/-- The kind on which mentions settle: that of the first, unless it is dynamic and a static one
follows. -/
def settledKind (first : DependencyKind) (later : List DependencyKind) : DependencyKind :=
  if first.isStatic then first else (later.find? (·.isStatic)).getD first

/-- What the mentions of one specifier come to. -/
def account (found : List Mention) (specifier : String) : Option Mention :=
  match found.filter (·.specifier = specifier) with
  | [] => none
  | first :: later => some ⟨specifier, settledKind first.kind (later.map (·.kind)), first.line⟩

/-- One mention for each specifier, in the order in which they come first. -/
def report (found : List Mention) : List Mention :=
  (found.map (·.specifier)).eraseDups.filterMap (account found)

/-- `e` after a later mention of its specifier. -/
def heed (e d : Mention) : Mention :=
  if !e.kind.isStatic && d.kind.isStatic then { e with kind := d.kind } else e

/-- The accounts `f` after the later mention `d`. -/
def after (d : Mention) (f : String → Option Mention) (k : String) : Option Mention :=
  if k = d.specifier then (f k).map (·.heed d) else f k

variable (d : Mention) (found : List Mention)

theorem eraseDups_concat (a : String) (l : List String) :
    (l ++ [a]).eraseDups = if a ∈ l then l.eraseDups else l.eraseDups ++ [a] := by
  rw [List.eraseDups_append]
  by_cases h : a ∈ l <;> simp [List.removeAll, List.eraseDups_cons, h]

theorem nodup_eraseDups (l : List String) : l.eraseDups.Nodup := by
  induction l using List.reverseRecOn with
  | nil => exact List.nodup_nil
  | append_singleton l a ih =>
    rw [eraseDups_concat]
    split
    case isTrue => exact ih
    case isFalse h => exact List.nodup_append_comm.mp (List.nodup_cons.mpr ⟨by simpa using h, ih⟩)

theorem filterMap_after {keys : List String} (f : String → Option Mention)
    (h : d.specifier ∉ keys) : keys.filterMap (d.after f) = keys.filterMap f :=
  List.filterMap_congr fun _ hk => if_neg (ne_of_mem_of_not_mem hk h)

/-- Merging works on the mention of the same specifier, or comes after all others. -/
theorem merge_filterMap {keys : List String} {f : String → Option Mention} (hnodup : keys.Nodup)
    (hkey : ∀ k ∈ keys, ∃ e, f k = some e ∧ e.specifier = k) :
    d.merge (keys.filterMap f) =
      if d.specifier ∈ keys then keys.filterMap (d.after f) else keys.filterMap f ++ [d] := by
  induction keys with
  | nil => rfl
  | cons k keys ih =>
    obtain ⟨e, he, rfl⟩ := hkey k (.head _)
    obtain ⟨hk, hnodup⟩ := List.nodup_cons.mp hnodup
    have ih := ih hnodup fun k hk => hkey k (.tail _ hk)
    by_cases hd : e.specifier = d.specifier
    · have he' : d.after f e.specifier = some (e.heed d) := by rw [after, if_pos hd, he]; rfl
      rw [if_pos (hd ▸ .head _), List.filterMap_cons_some he, List.filterMap_cons_some he',
        filterMap_after d f (hd ▸ hk), merge, if_pos hd, heed]
    · have he' : d.after f e.specifier = some e := by rw [after, if_neg hd, he]
      rw [List.filterMap_cons_some he, List.filterMap_cons_some he', merge, if_neg hd, ih]
      simp only [List.mem_cons, Ne.symm hd, false_or]
      split <;> rfl

theorem settledKind_concat (k last : DependencyKind) (later : List DependencyKind) :
    settledKind k (later ++ [last]) =
      if !(settledKind k later).isStatic && last.isStatic then last else settledKind k later := by
  unfold settledKind
  cases hk : k.isStatic with
  | true => simp [hk]
  | false =>
    cases hf : later.find? (·.isStatic) with
    | none => cases hl : last.isStatic <;> simp [List.find?_append, hf, hl, hk]
    | some s => simp [List.find?_append, hf, List.find?_some hf]

theorem account_of_mem {s : String} (h : s ∈ found.map (·.specifier)) :
    ∃ e, account found s = some e ∧ e.specifier = s := by
  obtain ⟨m, hm, rfl⟩ := List.mem_map.mp h
  unfold account
  split
  case h_1 hnil => exact absurd (List.filter_eq_nil_iff.mp hnil m hm) (by simp)
  case h_2 => exact ⟨_, rfl, rfl⟩

theorem filter_of_not_mem {s : String} (h : s ∉ found.map (·.specifier)) :
    found.filter (·.specifier = s) = [] :=
  List.filter_eq_nil_iff.mpr fun m hm => by
    simpa using fun e => h (List.mem_map.mpr ⟨m, hm, e⟩)

theorem account_concat (s : String) :
    account (found ++ [d]) s =
      if s = d.specifier ∧ s ∉ found.map (·.specifier) then some d
      else d.after (account found) s := by
  by_cases hs : s = d.specifier
  · subst hs
    by_cases hmem : d.specifier ∈ found.map (·.specifier)
    · rw [if_neg fun h => h.2 hmem, after, if_pos rfl]
      cases hf : found.filter (·.specifier = d.specifier) with
      | nil => exact absurd hf (by simpa using hmem)
      | cons first later =>
        simp only [account, List.filter_append, hf, List.filter_singleton, decide_true,
          List.cons_append, List.map_append, List.map_singleton, settledKind_concat, heed,
          Option.map_some, cond_true]
        split <;> rfl
    · have hnil : found.filter (·.specifier = d.specifier) = [] := filter_of_not_mem found hmem
      simp [hmem, account, hnil, settledKind]
  · simp [account, after, hs, Ne.symm hs]

theorem report_concat : report (found ++ [d]) = d.merge (report found) := by
  have hkeys (k : String) (hk : k ∈ (found.map (·.specifier)).eraseDups) :
      k ∈ found.map (·.specifier) := List.mem_eraseDups.mp hk
  have hsame : (found.map (·.specifier)).eraseDups.filterMap (account (found ++ [d])) =
      (found.map (·.specifier)).eraseDups.filterMap (d.after (account found)) :=
    List.filterMap_congr fun k hk => by
      rw [account_concat, if_neg fun h => h.2 (hkeys k hk)]
  unfold report
  rw [merge_filterMap d (nodup_eraseDups _) fun k hk => account_of_mem found (hkeys k hk),
    List.map_append, List.map_singleton, eraseDups_concat]
  simp only [List.mem_eraseDups]
  split
  case isTrue => exact hsame
  case isFalse h =>
    have hd : account (found ++ [d]) d.specifier = some d := by
      rw [account_concat, if_pos ⟨rfl, h⟩]
    rw [List.filterMap_append, hsame, filterMap_after d _ fun hk => h (hkeys _ hk)]
    simp [hd]

theorem dedupe_eq_report : dedupe found = report found := by
  induction found using List.reverseRecOn with
  | nil => rfl
  | append_singleton found d ih =>
    rw [report_concat, ← ih]
    simp [dedupe]

/-! ## What is reported -/

theorem settledKind_mem (first : DependencyKind) (later : List DependencyKind) :
    settledKind first later ∈ first :: later := by
  unfold settledKind
  split
  · exact .head _
  cases hf : later.find? (·.isStatic) with
  | none => exact .head _
  | some k => exact .tail _ (List.mem_of_find?_eq_some hf)

theorem account_spec {s : String} {e : Mention} (h : account found s = some e) :
    e.specifier = s ∧ (∃ m ∈ found, m.specifier = s ∧ m.line = e.line) ∧
      ∃ m ∈ found, m.specifier = s ∧ m.kind = e.kind := by
  unfold account at h
  split at h
  case h_1 => cases h
  case h_2 first later hfilter =>
    cases h
    have hmem (m : Mention) (hm : m ∈ first :: later) : m ∈ found ∧ m.specifier = s := by
      simpa [← hfilter] using hm
    refine ⟨rfl, ⟨first, (hmem first (.head _)).1, (hmem first (.head _)).2, rfl⟩, ?_⟩
    have hkind : _ ∈ (first :: later).map (·.kind) :=
      settledKind_mem first.kind (later.map (·.kind))
    obtain ⟨m, hm, heq⟩ := List.mem_map.mp hkind
    exact ⟨m, (hmem m hm).1, (hmem m hm).2, heq⟩

theorem map_specifier_filterMap {keys : List String} {f : String → Option Mention}
    (h : ∀ k ∈ keys, ∃ e, f k = some e ∧ e.specifier = k) :
    (keys.filterMap f).map (·.specifier) = keys := by
  induction keys with
  | nil => rfl
  | cons k keys ih =>
    obtain ⟨e, he, rfl⟩ := h k (.head _)
    rw [List.filterMap_cons_some he, List.map_cons, ih fun k hk => h k (.tail _ hk)]

/-- The specifiers are reported in the order in which they come first. -/
theorem map_specifier_dedupe :
    (dedupe found).map (·.specifier) = (found.map (·.specifier)).eraseDups := by
  rw [dedupe_eq_report, report]
  apply map_specifier_filterMap
  intro k hk
  exact account_of_mem found (List.mem_eraseDups.mp hk)

/-- What is reported has its line from one mention and its kind from one. -/
theorem found_of_mem_dedupe {e : Mention} (h : e ∈ dedupe found) :
    (∃ m ∈ found, m.specifier = e.specifier ∧ m.line = e.line) ∧
      ∃ m ∈ found, m.specifier = e.specifier ∧ m.kind = e.kind := by
  rw [dedupe_eq_report, report, List.mem_filterMap] at h
  obtain ⟨s, -, hs⟩ := h
  obtain ⟨rfl, hfound⟩ := account_spec found hs
  exact hfound

/-- The line is that of the first mention. -/
theorem first_of_mem_dedupe {e : Mention} (h : e ∈ dedupe found) :
    ∃ before m after, found = before ++ m :: after ∧ m.specifier = e.specifier ∧ m.line = e.line ∧
      ∀ k ∈ before, k.specifier ≠ e.specifier := by
  rw [dedupe_eq_report, report, List.mem_filterMap] at h
  obtain ⟨s, -, hs⟩ := h
  unfold account at hs
  split at hs
  case h_1 => cases hs
  case h_2 first later hfilter =>
    cases hs
    obtain ⟨before, after, hfound, hbefore, hfirst, -⟩ := List.filter_eq_cons_iff.mp hfilter
    exact ⟨before, first, after, hfound, of_decide_eq_true hfirst, rfl, by simpa using hbefore⟩

example : dedupe [⟨"a", .dynamicImport, 1⟩, ⟨"b", .require, 2⟩, ⟨"a", .exportFrom, 3⟩] =
    [⟨"a", .exportFrom, 1⟩, ⟨"b", .require, 2⟩] := by decide

end Mention

end Bundler

import Bundler.Proofs.Resolve.Fallback
import Bundler.Proofs.Resolve.FirstFile
import Bundler.Proofs.Table

/-!
# Who decides about a request

A request has the longest alias that fits it expanded. Then the patterns of the project decide, the
host, and the file tree, each where those before it say nothing; and wherever the request ends, its
query is still there.
-/

namespace Bundler

/-! ## The longest alias -/

namespace Alias

/-- A key fits a request that it is, or that goes on behind it with a slash. -/
def Fits (key request : String) : Prop := request = key ∨ ∃ more, request = key ++ "/" ++ more

/-- The longest key of some aliases that fits a request. -/
structure Longest (aliases : Table String String) (request key : String) : Prop where
  isKey : aliases.contains key = true
  fits : Fits key request
  longest : ∀ other, aliases.contains other = true → Fits other request →
    Text.byteLength other ≤ Text.byteLength key

theorem Fits.begins {key request : String} (h : Fits key request) :
    key.toList <+: request.toList := by
  rcases h with rfl | ⟨more, rfl⟩
  · exact List.prefix_rfl
  · rw [String.toList_append, String.toList_append, List.append_assoc]
    exact List.prefix_append ..

/-- A beginning that is as long as its text is all of it. -/
theorem eq_of_begins {a b : String} (h : a.toList <+: b.toList)
    (hl : Text.byteLength b ≤ Text.byteLength a) : a = b := by
  obtain ⟨more, hmore⟩ := h
  obtain rfl : a ++ String.ofList more = b :=
    String.toList_inj.mp (by rw [String.toList_append, String.toList_ofList, hmore])
  have hzero : (String.ofList more).utf8ByteSize = 0 := by
    unfold Text.byteLength at hl
    rw [String.utf8ByteSize_append] at hl
    omega
  rw [String.utf8ByteSize_eq_zero_iff.mp hzero, String.append_empty]

/-- Two keys that fit one request are beginnings of it, so their lengths tell them apart. -/
theorem Longest.unique {aliases : Table String String} {request k k' : String}
    (h : Longest aliases request k) (h' : Longest aliases request k') : k = k' := by
  rcases List.prefix_or_prefix_of_prefix h.fits.begins h'.fits.begins with hp | hp
  · exact eq_of_begins hp (h.longest k' h'.isKey h'.fits)
  · exact (eq_of_begins hp (h'.longest k h.isKey h.fits)).symm

end Alias

namespace Resolver

open Alias

theorem aliasRest?_eq_some {key request rest : String} : aliasRest? key request = some rest ↔
    request = key ++ rest ∧ (rest = "" ∨ ∃ more, rest = "/" ++ more) := by
  unfold aliasRest?
  constructor
  · intro h
    split at h
    next hp =>
      cases h
      have := List.isPrefixOf?_eq_some_iff_append_eq.mp hp
      exact ⟨String.toList_inj.mp (by rw [String.append_empty, ← this, List.append_nil]), .inl rfl⟩
    next more hp =>
      cases h
      have := List.isPrefixOf?_eq_some_iff_append_eq.mp hp
      refine ⟨String.toList_inj.mp (by rw [String.toList_append, String.toList_ofList, this]), .inr ?_⟩
      exact ⟨String.ofList more, String.toList_inj.mp (by simp)⟩
    next => cases h
  · rintro ⟨rfl, rfl | ⟨more, rfl⟩⟩
    · have hp : key.toList.isPrefixOf? (key ++ "").toList = some [] :=
        List.isPrefixOf?_eq_some_iff_append_eq.mpr (by simp)
      rw [hp]
    · have hp : key.toList.isPrefixOf? (key ++ ("/" ++ more)).toList = some ('/' :: more.toList) :=
        List.isPrefixOf?_eq_some_iff_append_eq.mpr (by simp)
      rw [hp]
      exact congrArg some (String.toList_inj.mp (by simp))

theorem fits_iff {key request : String} :
    Fits key request ↔ ∃ rest, aliasRest? key request = some rest := by
  constructor
  · rintro (rfl | ⟨more, rfl⟩)
    · exact ⟨"", aliasRest?_eq_some.mpr ⟨String.append_empty.symm, .inl rfl⟩⟩
    · exact ⟨"/" ++ more, aliasRest?_eq_some.mpr ⟨String.append_assoc .., .inr ⟨more, rfl⟩⟩⟩
  · rintro ⟨rest, h⟩
    obtain ⟨rfl, rfl | ⟨more, rfl⟩⟩ := aliasRest?_eq_some.mp h
    · exact .inl String.append_empty
    · exact .inr ⟨more, (String.append_assoc ..).symm⟩

theorem aliasBefore_iff {a b : String × String} : aliasBefore a b = true ↔
    Text.byteLength b.1 < Text.byteLength a.1 ∨
      Text.byteLength a.1 = Text.byteLength b.1 ∧ a.1 ≤ b.1 := by
  simp [aliasBefore]

theorem aliasBefore_trans (a b c : String × String) (hab : aliasBefore a b = true)
    (hbc : aliasBefore b c = true) : aliasBefore a c = true := by
  rw [aliasBefore_iff] at *
  rcases hab with hab | ⟨hab, hle⟩ <;> rcases hbc with hbc | ⟨hbc, hle'⟩
  · exact .inl (by omega)
  · exact .inl (by omega)
  · exact .inl (by omega)
  · exact .inr ⟨by omega, String.le_trans hle hle'⟩

theorem aliasBefore_total (a b : String × String) :
    (aliasBefore a b || aliasBefore b a) = true := by
  rw [Bool.or_eq_true, aliasBefore_iff, aliasBefore_iff]
  rcases Nat.lt_trichotomy (Text.byteLength a.1) (Text.byteLength b.1) with h | h | h
  · exact .inr (.inl h)
  · exact (String.le_total a.1 b.1).imp (fun hle => .inr ⟨h, hle⟩) fun hle => .inr ⟨h.symm, hle⟩
  · exact .inl (.inl h)

variable {o : Options} {root : Path} {request : String}

theorem mem_aliases {a : String × String} :
    a ∈ (ofOptions o root).aliases ↔ o.aliases.get? a.1 = some a.2 :=
  List.mem_mergeSort.trans Table.mem_toList

/-- The alias that is expanded is the longest one, since longer ones are tried first. -/
theorem expand_cases (o : Options) (root : Path) (request : String) :
    (∃ key target rest, Longest o.aliases request key ∧ o.aliases.get? key = some target ∧
      request = key ++ rest ∧
      (ofOptions o root).expand request = (ofOptions o root).aliasTarget target ++ rest) ∨
    (∀ key, o.aliases.contains key = true → ¬ Fits key request) ∧
      (ofOptions o root).expand request = request := by
  unfold expand
  cases hf : (ofOptions o root).aliases.findSome? fun a =>
    (aliasRest? a.1 request).map fun rest => (ofOptions o root).aliasTarget a.2 ++ rest with
  | none =>
    refine .inr ⟨fun key hkey hfits => ?_, rfl⟩
    obtain ⟨target, hget⟩ := Table.contains_iff.mp hkey
    obtain ⟨rest, hrest⟩ := fits_iff.mp hfits
    have hnone := List.findSome?_eq_none_iff.mp hf (key, target) (mem_aliases.mpr hget)
    rw [hrest] at hnone
    cases hnone
  | some text =>
    obtain ⟨before, ⟨key, target⟩, behind, hsplit, hfirst, hbefore⟩ :=
      List.findSome?_eq_some_iff.mp hf
    obtain ⟨rest, hrest, rfl⟩ := Option.map_eq_some_iff.mp hfirst
    have hget : o.aliases.get? key = some target :=
      mem_aliases.mp (hsplit ▸ List.mem_append_right _ List.mem_cons_self)
    refine .inl ⟨key, target, rest, ⟨Table.contains_iff.mpr ⟨_, hget⟩, fits_iff.mpr ⟨rest, hrest⟩,
      fun other hother hfits => ?_⟩, hget, (aliasRest?_eq_some.mp hrest).1, rfl⟩
    obtain ⟨target', hget'⟩ := Table.contains_iff.mp hother
    have hmem : (other, target') ∈ before ++ (key, target) :: behind :=
      hsplit ▸ mem_aliases.mpr hget'
    rcases List.mem_append.mp hmem with hmem | hmem
    · -- An alias that was tried before does not fit.
      obtain ⟨rest', hrest'⟩ := fits_iff.mp hfits
      have hnone := hbefore _ hmem
      rw [hrest'] at hnone
      cases hnone
    · rcases List.mem_cons.mp hmem with heq | hmem
      · exact Nat.le_of_eq (congrArg (Text.byteLength ·.1) heq)
      · have hsorted : ((ofOptions o root).aliases).Pairwise fun a b => aliasBefore a b = true :=
          List.pairwise_mergeSort aliasBefore_trans aliasBefore_total _
        rw [hsplit] at hsorted
        have hlast := (List.pairwise_append.mp hsorted).2.1
        rcases aliasBefore_iff.mp ((List.pairwise_cons.mp hlast).1 _ hmem) with hlt | ⟨heq, -⟩
        · exact Nat.le_of_lt hlt
        · exact Nat.le_of_eq heq.symm

/-- A request with the longest alias that fits it expanded. A relative target is taken from the
root, but for `.` and `..`, which stay as they are. -/
structure Expands (o : Options) (root : Path) (request expanded : String) : Prop where
  unique : ∀ key key', Longest o.aliases request key → Longest o.aliases request key' → key = key'
  longest : ∀ key, o.aliases.contains key = true → Fits key request →
    ∃ key, Longest o.aliases request key
  relative : ∀ key target rest, Longest o.aliases request key → o.aliases.get? key = some target →
    request = key ++ rest → Lookup.isRelative target = true → target ≠ "." → target ≠ ".." →
    expanded = (root.join ⟨target⟩).text ++ rest
  other : ∀ key target rest, Longest o.aliases request key → o.aliases.get? key = some target →
    request = key ++ rest → Lookup.isRelative target = false ∨ target = "." ∨ target = ".." →
    expanded = target ++ rest
  same : (∀ key, o.aliases.contains key = true → ¬ Fits key request) → expanded = request

theorem aliasTarget_of_relative (r : Resolver) {target : String}
    (h : Lookup.isRelative target = true) (hd : target ≠ ".") (hu : target ≠ "..") :
    r.aliasTarget target = (r.root.join ⟨target⟩).text := by
  unfold aliasTarget
  refine if_pos ?_
  simpa [Lookup.isRelative, hd, hu] using h

theorem aliasTarget_of_other (r : Resolver) {target : String}
    (h : Lookup.isRelative target = false ∨ target = "." ∨ target = "..") :
    r.aliasTarget target = target := by
  rcases h with h | rfl | rfl
  · unfold aliasTarget
    refine if_neg ?_
    simp only [Lookup.isRelative, Bool.or_eq_false_iff] at h
    simp [h.1.2, h.2]
  · rfl
  · rfl

theorem expands_expand (o : Options) (root : Path) (request : String) :
    Expands o root request ((ofOptions o root).expand request) := by
  rcases expand_cases o root request with ⟨key, target, rest, hkey, hget, hreq, hexp⟩ | ⟨hno, hexp⟩
  · have hrest : ∀ key' target' rest', Longest o.aliases request key' →
        o.aliases.get? key' = some target' → request = key' ++ rest' →
        target' = target ∧ rest' = rest := by
      intro key' target' rest' hkey' hget' hreq'
      obtain rfl := hkey.unique hkey'
      exact ⟨Option.some.inj (hget'.symm.trans hget),
        (String.append_right_inj key).mp (hreq'.symm.trans hreq)⟩
    refine ⟨fun _ _ => Longest.unique, fun _ _ _ => ⟨key, hkey⟩, ?_, ?_, fun hno => ?_⟩
    · intro key' target' rest' hkey' hget' hreq' hrel hd hu
      obtain ⟨rfl, rfl⟩ := hrest key' target' rest' hkey' hget' hreq'
      rw [hexp, aliasTarget_of_relative _ hrel hd hu]
      rfl
    · intro key' target' rest' hkey' hget' hreq' hother
      obtain ⟨rfl, rfl⟩ := hrest key' target' rest' hkey' hget' hreq'
      rw [hexp, aliasTarget_of_other _ hother]
    · exact absurd hkey.fits (hno key hkey.isKey)
  · refine ⟨fun _ _ => Longest.unique, fun key hkey hfits => absurd hfits (hno key hkey), ?_, ?_,
      fun _ => hexp⟩
    · exact fun key _ _ hkey => absurd hkey.fits (hno key hkey.isKey)
    · exact fun key _ _ hkey => absurd hkey.fits (hno key hkey.isKey)

example : (ofOptions { aliases := .ofList [("@", ".")] } ⟨"/r"⟩).expand "@/a" = "./a" := by
  decide +kernel

end Resolver

/-! ## Queries -/

theorem splitQuery_spec (specifier : String) :
    specifier = withQuery (splitQuery specifier).1 (splitQuery specifier).2 ∧
      '?' ∉ (splitQuery specifier).1.toList := by
  unfold splitQuery
  cases h : Text.splitOnce? '?' specifier.toList with
  | none => exact ⟨rfl, Text.splitOnce?_eq_none.mp h⟩
  | some p =>
    obtain ⟨hcut, hmark⟩ := Text.splitOnce?_eq_some h
    exact ⟨String.toList_inj.mp (by simp [withQuery, hcut]), by simpa using hmark⟩

/-! ## The host -/

namespace Flights

/-- The question that was asked last stands in the log as it was asked. -/
theorem AtRest.trips_lead {κ α : Type} [DecidableEq κ] {f : Flights κ α} {key : κ} (h : f.AtRest)
    (hslot : f.slot? key = none) {o : Outcome α} (ho : ∀ reason, o ≠ .panicked reason) :
    (((f.join 0 key).finish f.issued o).settle 0).1.trips = f.trips ++ [⟨key, some o⟩] := by
  have hfinish : (f.join 0 key).finish f.issued o =
      ⟨f.trips ++ [⟨key, some o⟩], (key, f.issued) :: f.slots, [(0, f.issued)]⟩ := by
    rw [join_of_free hslot, h.waiting]
    unfold finish issued
    rw [modify_concat]
    rfl
  have htrip : ((f.join 0 key).finish f.issued o).tripOf? 0 = some f.issued := by
    simp [hfinish, tripOf?]
  have hget : ((f.join 0 key).finish f.issued o).trips[f.issued]? = some ⟨key, some o⟩ := by
    rw [hfinish]
    exact getElem?_concat_eq_some.mpr (.inr ⟨rfl, rfl⟩)
  rw [settle_eq htrip hget ho, hfinish]

end Flights

namespace Bridge

/-- How a question ends that the host hears as it is asked; without a host, nobody answers. -/
def reply (b : Bridge) (host : Option Host) (q : ResolveRequest) : Outcome ResolveAnswer :=
  match host with
  | none => .answered none
  | some host => (b.outcome (host.resolve q)).2

theorem outcome_resolving {α : Type} (b : Bridge) (f : Flights ResolveRequest ResolveAnswer)
    (r : Reply α) : (outcome { b with resolving := f } r).2 = (b.outcome r).2 := by
  unfold outcome
  cases hc : b.cancelled
  · cases r with
    | silence => cases hl : b.limit <;> rfl
    | _ => rfl
  · rfl

variable {b : Bridge} {q : ResolveRequest}

theorem resolve_eq_reply (h : b.resolving.AtRest) (hslot : b.resolving.slot? q = none)
    (host : Option Host) : (b.resolve host q).2 = b.reply host q := by
  cases host with
  | none => rfl
  | some host =>
    obtain ⟨hled, htrip, hout, -⟩ := h.lead hslot (b.outcome (host.resolve q)).2
    obtain ⟨hsame, -⟩ := outcome_sides { b with resolving := b.resolving.join 0 q } (host.resolve q)
    unfold Bridge.resolve ask
    simp only [join, serve, settle, decide_eq_true hled, if_true, htrip, hsame, outcome_resolving,
      hout, Option.map_some]
    rfl

/-- A host hears a question as it is asked. -/
theorem trips_resolve (h : b.resolving.AtRest) (hslot : b.resolving.slot? q = none) (host : Host)
    (ho : ∀ reason, b.reply host q ≠ .panicked reason) :
    (b.resolve (some host) q).1.resolving.trips =
      b.resolving.trips ++ [⟨q, some (b.reply host q)⟩] := by
  obtain ⟨hled, htrip, hout, -⟩ := h.lead hslot (b.outcome (host.resolve q)).2
  obtain ⟨hsame, -⟩ := outcome_sides { b with resolving := b.resolving.join 0 q } (host.resolve q)
  unfold Bridge.resolve ask
  simp only [join, serve, settle, decide_eq_true hled, if_true, htrip, hsame, outcome_resolving,
    hout, Option.map_some]
  exact h.trips_lead hslot ho

end Bridge

namespace Resolver

/-- What a look-up comes to as an answer to a specifier: its query stays on the path, and a fault
names the specifier and the place that it comes from. -/
def located (specifier : String) (source : Path) (query : Option String) :
    Except LookupFault Path → Except ResolveError Resolved
  | .ok p => .ok ⟨⟨withQuery p.text query⟩, false⟩
  | .error fault => .error ⟨specifier, source.text, fault.message⟩

theorem resolveInFiles_snd (r : Resolver) (files : FileTree) (s : Inquiries) (specifier : String)
    (importer : Option ModuleId) (dir : Path) (request : String) (query : Option String)
    (hookError : Option BuildError) :
    (r.resolveInFiles files s specifier importer dir request query hookError).2 =
      ⟨located specifier (source importer dir) query
        (s.cache.lookup ⟨files, r.extensions⟩ dir request).2, hookError⟩ := by
  unfold resolveInFiles lookup
  cases h : (s.cache.lookup ⟨files, r.extensions⟩ dir request).2 with
  | ok p => simp only [h]; rfl
  | error fault => simp only [h]; rfl

/-- What the end of a question to the host makes of a resolution, when the files come to `inFiles`.
A breakdown of the host leaves no resolution, just its reason. -/
def Follows (inFiles : Except ResolveError Resolved) (full : String)
    (x : Except String Resolution) : Outcome ResolveAnswer → Prop
  | .answered (some a) => x = .ok ⟨.ok ⟨⟨a.uri⟩, a.external⟩, none⟩
  | .answered none => x = .ok ⟨inFiles, none⟩
  | .failed f => x = .ok ⟨inFiles, some (Bridge.failure .resolve full f)⟩
  | .panicked reason => x = .error reason

theorem resolve_of_not_external {r : Resolver} {specifier : String}
    (hext : r.isExternal (r.expand (splitQuery specifier).1) = false) (w : World) (s : Inquiries)
    (importer : Option ModuleId) (dir : Path) :
    let asked := s.bridge.resolve w.host ⟨importer.map (·.text), r.asked specifier⟩
    (r.resolve w s specifier importer dir).1.bridge = asked.1 ∧
    Follows (located specifier (source importer dir) (splitQuery specifier).2
        (s.cache.lookup ⟨w.files, r.extensions⟩ dir (r.expand (splitQuery specifier).1)).2)
      (r.asked specifier) (r.resolve w s specifier importer dir).2 asked.2 := by
  unfold resolve asked
  dsimp only
  rw [hext, if_neg (by decide)]
  generalize s.bridge.resolve w.host _ = out
  obtain ⟨bridge, o⟩ := out
  cases o with
  | answered a =>
    cases a with
    | some a => exact ⟨rfl, rfl⟩
    | none => exact ⟨resolveInFiles_bridge .., congrArg Except.ok (resolveInFiles_snd ..)⟩
  | failed f => exact ⟨resolveInFiles_bridge .., congrArg Except.ok (resolveInFiles_snd ..)⟩
  | panicked reason => exact ⟨rfl, rfl⟩

/-- An external request stays as it is, query and all, without a question to the host and without a
look at the files. Another one is what the host answers, whatever the files are. If the host leaves
it open or fails, it is looked up in the files, and just a failure of the host is told with it; if
the host breaks down there is no resolution. The host is asked with the query of the specifier, and
the answer of the files has it. A question that was not asked before is put to the host itself. -/
theorem resolve_precedence (o : Options) (root : Path) (s : Inquiries) (host : Option Host)
    (specifier : String) (importer : Option ModuleId) (dir : Path) :
    let r := ofOptions o root
    let request := (splitQuery specifier).1
    let query := (splitQuery specifier).2
    let expanded := r.expand request
    let full := withQuery expanded query
    let q : ResolveRequest := ⟨importer.map (·.text), full⟩
    let reply := s.bridge.reply host q
    let inFiles := fun files => located specifier (source importer dir) query
      (s.cache.lookup ⟨files, o.extensions⟩ dir expanded).2
    let resolved := fun files => r.resolve ⟨files, host⟩ s specifier importer dir
    (specifier = withQuery request query ∧ '?' ∉ request.toList) ∧
    Expands o root request expanded ∧
    (r.isExternal expanded = true → ∀ files, resolved files = (s, .ok ⟨.ok ⟨⟨full⟩, true⟩, none⟩)) ∧
    (r.isExternal expanded = false →
      (∀ files, Follows (inFiles files) full (resolved files).2 (s.bridge.resolve host q).2) ∧
      (s.bridge.resolving.AtRest → s.bridge.resolving.slot? q = none →
        (s.bridge.resolve host q).2 = reply ∧
        (host.isSome = true → (∀ reason, reply ≠ .panicked reason) → ∀ files,
          (resolved files).1.bridge.resolving.trips =
            s.bridge.resolving.trips ++ [⟨q, some reply⟩]))) := by
  intro r request query expanded full q reply inFiles resolved
  refine ⟨splitQuery_spec specifier, expands_expand o root request, ?_, fun hext => ⟨?_, ?_⟩⟩
  · intro hext files
    exact if_pos hext
  · intro files
    exact (resolve_of_not_external hext ⟨files, host⟩ s importer dir).2
  · intro hs hslot
    refine ⟨Bridge.resolve_eq_reply hs hslot host, fun hhost ho files => ?_⟩
    obtain ⟨hbridge, -⟩ := resolve_of_not_external hext ⟨files, host⟩ s importer dir
    obtain ⟨host, rfl⟩ := Option.isSome_iff_exists.mp hhost
    exact (congrArg (·.resolving.trips) hbridge).trans (Bridge.trips_resolve hs hslot host ho)

/-- Two aliases, both of which fit what begins with the longer one. -/
def nestedAliases : Options := { aliases := .ofList [("@", "./src"), ("@/lib", "../lib")] }

/-- A host that turns every question down and says which one it was. -/
def refusal : Host where
  resolve q := .reject q.importee
  load id := .reject id

theorem resolve_precedence_of_nested_aliases :
    ({} : Inquiries).bridge.resolving.AtRest ∧ ∀ files,
      ((ofOptions nestedAliases ⟨"/r"⟩).resolve ⟨files, some refusal⟩ {} "@/lib/a?x" none ⟨"/r"⟩).2 =
        .ok ⟨located "@/lib/a?x" ⟨"/r"⟩ (some "x")
            (({} : LookupCache).lookup ⟨files, nestedAliases.extensions⟩ ⟨"/r"⟩ "/r/../lib/a").2,
          some (Bridge.failure .resolve "/r/../lib/a?x" (.rejected "/r/../lib/a?x"))⟩ := by
  have hrequest : (splitQuery "@/lib/a?x").1 = "@/lib/a" := by decide +kernel
  have hquery : (splitQuery "@/lib/a?x").2 = some "x" := by decide +kernel
  have hlongest : Alias.Longest nestedAliases.aliases "@/lib/a" "@/lib" := by
    refine ⟨by decide +kernel, .inr ⟨"a", by decide +kernel⟩, fun other hother _ => ?_⟩
    have hkeys : ∀ a ∈ nestedAliases.aliases.toList,
        Text.byteLength a.1 ≤ Text.byteLength "@/lib" := by decide +kernel
    obtain ⟨target, hget⟩ := Table.contains_iff.mp hother
    exact hkeys (other, target) (Table.mem_toList.mpr hget)
  refine ⟨.empty, fun files => ?_⟩
  obtain ⟨-, hexpands, -, h⟩ := resolve_precedence nestedAliases ⟨"/r"⟩ {} (some refusal)
    "@/lib/a?x" none ⟨"/r"⟩
  rw [hrequest] at hexpands h
  have hexpand := hexpands.relative "@/lib" "../lib" "/a" hlongest (by decide +kernel)
    (by decide +kernel) (by decide +kernel) (by decide) (by decide)
  rw [show (Path.join ⟨"/r"⟩ ⟨"../lib"⟩).text ++ "/a" = "/r/../lib/a" by decide +kernel] at hexpand
  rw [hquery, hexpand] at h
  obtain ⟨hfollows, hasked⟩ := h (by decide +kernel)
  have hreply := (hasked .empty rfl).1
  rw [hreply] at hfollows
  exact hfollows files

end Resolver

end Bundler

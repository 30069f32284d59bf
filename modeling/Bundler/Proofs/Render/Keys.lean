import Bundler.Proofs.Session.Located
import Bundler.Render.Chunk

/-!
# Keys of modules

A script knows a module by its key: the path below the root, with slashes for backslashes, and the
query. Two ids of files have one key if the names below the root read alike then; for paths without
a backslash or a `?` they are one id. Where no two ids read alike, the registry gives for every key
in a table the module that the table means.
-/

namespace Bundler

theorem Text.mem_intercalate {sep c : Char} {ls : List (List Char)}
    (h : c ∈ [sep].intercalate ls) : c = sep ∨ ∃ l ∈ ls, c ∈ l := by
  induction ls with
  | nil => cases h
  | cons l ls ih =>
    cases ls with
    | nil =>
      rw [List.intercalate_singleton] at h
      exact .inr ⟨l, List.mem_singleton_self l, h⟩
    | cons l' ls =>
      rw [List.intercalate_cons_cons, List.mem_append, List.mem_append, List.mem_singleton] at h
      rcases h with (h | h) | h
      · exact .inr ⟨l, List.mem_cons_self, h⟩
      · exact .inl h
      · exact (ih h).imp_right fun ⟨x, hx, hc⟩ => ⟨x, List.mem_cons_of_mem _ hx, hc⟩

namespace Path

/-! ## The names of a path -/

/-- The names that count. -/
def names (p : Path) : List String := p.segments.filter (!isVoid ·)

theorem components_eq (p : Path) :
    p.components = p.anchor.components ++ p.names.map component := rfl

theorem components_of_absolute {p : Path} (h : p.isAbsolute = true) :
    p.components = .root :: p.names.map component := by
  rw [components_eq, anchor_eq_root.mpr h]
  rfl

theorem component_injective : Function.Injective component := by
  intro s t h
  unfold component at h
  split at h <;> split at h <;> simp_all

/-- An absolute path that ends within one of its names. -/
structure Cut (p : Path) (before : List String) (last : String) : Prop where
  plain : ∀ s ∈ before, Plain s
  slash : '/' ∉ last.toList
  eq : p = ofNames (before ++ [last])

variable {p : Path} {before : List String} {last : String}

theorem filter_isVoid (hp : ∀ s ∈ before, Plain s) : (before ++ [last]).filter (!isVoid ·) =
    before ++ if isVoid last then [] else [last] := by
  rw [List.filter_append, List.filter_eq_self.mpr fun s hs => by rw [(hp s hs).void]; rfl]
  cases hl : isVoid last <;> simp [hl]

theorem trimEnd_concat (hp : ∀ s ∈ before, Plain s) :
    trimEnd (before ++ [last]) = before ++ if isVoid last then [] else [last] := by
  unfold trimEnd
  rw [List.reverse_concat]
  split
  next hv => rw [List.dropWhile_cons_of_pos hv, dropWhile_isVoid hp]; simp
  next hv => rw [List.dropWhile_cons_of_neg hv]; simp

theorem dropNames_nil (n : Nat) : dropNames n [] = [] := by
  induction n with
  | zero => rfl
  | succ n ih => exact ih

/-- What is left behind some names, without a last name that counts for nothing. -/
theorem trimEnd_dropNames (hp : ∀ s ∈ before, Plain s) (n : Nat) :
    trimEnd (dropNames n (before ++ [last])) =
      ((before ++ [last]).filter (!isVoid ·)).drop n := by
  rw [filter_isVoid hp]
  induction before generalizing n with
  | nil =>
    split
    next hv => cases n <;> simp [dropNames, hv, dropNames_nil, trimEnd]
    next hv => cases n <;> simp [dropNames, hv, dropNames_nil, trimEnd]
  | cons s before ih =>
    have hs : ¬ isVoid s = true := ne_true_of_eq_false (hp s List.mem_cons_self).void
    cases n with
    | zero =>
      rw [List.cons_append, dropNames, List.dropWhile_cons_of_neg hs, ← List.cons_append,
        trimEnd_concat hp, List.drop_zero]
    | succ n =>
      rw [List.cons_append, dropNames, List.dropWhile_cons_of_neg hs, List.drop_one, List.tail_cons,
        ih (fun x hx => hp x (List.mem_cons_of_mem _ hx)), List.cons_append, List.drop_succ_cons]

namespace Cut

variable (h : p.Cut before last)
include h

theorem segments : p.segments = before ++ [last] := by
  rw [h.eq]
  exact segments_concat h.plain h.slash

theorem absolute : p.isAbsolute = true := by
  rw [h.eq]
  exact isAbsolute_ofNames _

/-- A path lies below a base if it goes on behind the names of the base. -/
theorem stripBase?_eq {base : Path} (hb : base.isAbsolute = true) :
    p.stripBase? base = if base.names <+: p.names then
      some ("/".intercalate (p.names.drop base.names.length)) else none := by
  have hprefix : base.components.isPrefixOf p.components = true ↔ base.names <+: p.names := by
    rw [List.isPrefixOf_iff_prefix, components_of_absolute hb, components_of_absolute h.absolute,
      List.cons_prefix_cons]
    refine ⟨fun ⟨_, hpre⟩ => ?_, fun hpre => ⟨rfl, hpre.map component⟩⟩
    obtain ⟨l, hl, he⟩ := List.prefix_map_iff.mp hpre
    exact List.map_injective_iff.mpr component_injective he ▸ hl
  have hlength : base.components.length - p.anchor.components.length = base.names.length := by
    rw [components_of_absolute hb, anchor_eq_root.mpr h.absolute]
    simp [Anchor.components]
  unfold Path.stripBase?
  rw [if_neg (by rw [components_of_absolute hb]; exact Bool.false_ne_true), hlength]
  dsimp only
  rw [h.segments,
    trimEnd_dropNames h.plain, ← h.segments]
  exact if_congr hprefix rfl rfl

end Cut

/-! ## Names as text -/

theorem mem_names {s : String} (h : s ∈ p.names) : '/' ∉ s.toList ∧ isVoid s = false := by
  obtain ⟨hs, hv⟩ := List.mem_filter.mp h
  exact ⟨not_mem_of_mem_splitSlashes hs, by simpa using hv⟩

theorem names_ofNames {ns : List String} (h : ∀ s ∈ ns, '/' ∉ s.toList ∧ isVoid s = false) :
    (ofNames ns).names = ns := by
  by_cases hne : ns = []
  · subst hne
    rfl
  · unfold names
    rw [segments_ofNames (fun s hs => (h s hs).1) hne]
    exact List.filter_eq_self.mpr fun s hs => by rw [(h s hs).2]; rfl

/-- The characters of names are those of the path. -/
theorem mem_text_of_mem_names {s : String} (h : s ∈ p.names) {c : Char} (hc : c ∈ s.toList) :
    c ∈ p.text.toList := by
  obtain ⟨l, hl, rfl⟩ := List.mem_map.mp (List.mem_filter.mp h).1
  rw [String.toList_ofList] at hc
  exact List.mem_of_mem_drop (Text.mem_of_mem_pieces hl hc)

/-- The text of some names, with slashes for backslashes. -/
def slashed (ns : List String) : List Char :=
  (['/'].intercalate (ns.map String.toList)).map fun c => if c = '\\' then '/' else c

end Path

theorem Text.replaceAll_singleton (a b : Char) (s : List Char) :
    replaceAll [a] [b] s = s.map fun c => if c = a then b else c := by
  unfold replaceAll
  induction s with
  | nil => rfl
  | cons c cs ih =>
    rw [replaceFrom, List.map_cons, ← ih]
    by_cases h : c = a
    · rw [if_pos (by simp [h]), if_pos h]
      rfl
    · rw [if_neg (by simpa using fun e => h e.symm), if_neg h]

theorem withQuery_splitQuery (s : String) : withQuery (splitQuery s).1 (splitQuery s).2 = s := by
  unfold splitQuery
  cases h : Text.splitOnce? '?' s.toList with
  | none => rfl
  | some r =>
    rw [← String.toList_inj]
    exact (by simp [withQuery] : _ = r.1 ++ '?' :: r.2).trans (Text.splitOnce?_eq_some h).1.symm

namespace ModuleId

theorem eq_of_path_of_query {a b : ModuleId} (hp : a.path = b.path) (hq : a.query = b.query) :
    a = b := by
  have htext : ∀ id : ModuleId, id.text = withQuery id.path.text id.query := fun id =>
    (withQuery_splitQuery id.text).symm
  have h : a.text = b.text := by rw [htext a, htext b, hp, hq]
  cases a
  cases b
  exact congrArg mk h

/-- An id of a file: a canonical path and, if there is one, a query. -/
def Located (id : ModuleId) : Prop :=
  ∃ (names : List String) (query : Option String),
    (∀ s ∈ names, Path.Plain s) ∧ id = ofPath (.ofNames names) query

theorem Located.cut {id : ModuleId} (h : id.Located) : ∃ before last, id.path.Cut before last := by
  obtain ⟨names, query, hplain, rfl⟩ := h
  obtain ⟨k, last, hlast, hpath⟩ := Path.exists_path_ofPath hplain query
  exact ⟨names.take k, last, fun s hs => hplain s (List.mem_of_mem_take hs), hlast, hpath⟩

theorem not_mem_path (id : ModuleId) : '?' ∉ id.path.text.toList := by
  rw [toList_path]
  intro h
  simpa using List.mem_takeWhile_imp h

/-- Ids that read alike below `root`: the names below it make one text with slashes for
backslashes, and the queries are the same. -/
def Alike (root : Path) (a b : ModuleId) : Prop :=
  a.query = b.query ∧ ∃ below below', a.path.names = root.names ++ below ∧
    b.path.names = root.names ++ below' ∧ Path.slashed below = Path.slashed below'

/-! ## The form below the root -/

variable {root : Path} {id : ModuleId} {below : List String}

theorem relativeTo_of_below (hr : root.isAbsolute = true) (h : id.Located)
    (hb : id.path.names = root.names ++ below) :
    id.relativeTo root = "./" ++ withQuery (String.ofList (Path.slashed below)) id.query := by
  obtain ⟨before, last, hcut⟩ := h.cut
  have hprefix : root.names <+: id.path.names := ⟨below, hb.symm⟩
  have htext : Text.substitute "\\" "/" ("/".intercalate below) =
      String.ofList (Path.slashed below) := by
    unfold Text.substitute Path.slashed
    rw [String.toList_intercalate]
    exact congrArg String.ofList (Text.replaceAll_singleton ..)
  unfold relativeTo
  rw [hcut.stripBase?_eq hr, if_pos hprefix, hb, List.drop_left]
  dsimp only
  rw [htext]

theorem relativeTo_of_outside (hr : root.isAbsolute = true) (h : id.Located)
    (hn : ¬ root.names <+: id.path.names) : id.relativeTo root = id.text := by
  obtain ⟨before, last, hcut⟩ := h.cut
  unfold relativeTo
  rw [hcut.stripBase?_eq hr, if_neg hn]

theorem not_mem_slashed (hb : id.path.names = root.names ++ below) : '?' ∉ Path.slashed below := by
  intro h
  obtain ⟨c, hc, he⟩ := List.mem_map.mp h
  have hc' : c = '?' := by
    split at he
    · cases he
    · exact he
  rcases Text.mem_intercalate (hc' ▸ hc) with hs | ⟨l, hl, hq⟩
  · cases hs
  · obtain ⟨s, hs, rfl⟩ := List.mem_map.mp hl
    exact id.not_mem_path
      (Path.mem_text_of_mem_names (hb ▸ List.mem_append_right _ hs) hq)

/-- The text of an id of a file begins with a slash. -/
theorem Located.text_head (h : id.Located) : ∃ cs, id.text.toList = '/' :: cs := by
  obtain ⟨names, query, -, rfl⟩ := h
  have htext := Path.toList_ofNames names
  cases query with
  | none => exact ⟨_, htext⟩
  | some q =>
    have hquery : (withQuery (Path.ofNames names).text (some q)).toList =
        (Path.ofNames names).text.toList ++ '?' :: q.toList := by simp [withQuery]
    exact ⟨_, hquery.trans (congrArg (· ++ _) htext)⟩

theorem relativeTo_eq_iff (hr : root.isAbsolute = true) {a b : ModuleId} (ha : a.Located)
    (hb : b.Located) : a.relativeTo root = b.relativeTo root ↔ a = b ∨ Alike root a b := by
  have hdiffer : ∀ {x y : ModuleId} {l : List String}, x.Located → y.Located →
      x.path.names = root.names ++ l → ¬ root.names <+: y.path.names →
      x.relativeTo root ≠ y.relativeTo root := by
    intro x y l hx hy hl hn he
    rw [relativeTo_of_below hr hx hl, relativeTo_of_outside hr hy hn] at he
    obtain ⟨cs, hcs⟩ := hy.text_head
    have hlist := congrArg String.toList he
    rw [hcs, String.toList_append] at hlist
    cases hlist
  constructor
  · intro h
    by_cases hpa : root.names <+: a.path.names
    · obtain ⟨l, hl⟩ := hpa
      by_cases hpb : root.names <+: b.path.names
      · obtain ⟨l', hl'⟩ := hpb
        rw [relativeTo_of_below hr ha hl.symm, relativeTo_of_below hr hb hl'.symm,
          String.append_right_inj] at h
        have hsplit := congrArg splitQuery h
        rw [splitQuery_withQuery (by rw [String.toList_ofList]; exact not_mem_slashed hl.symm),
          splitQuery_withQuery (by rw [String.toList_ofList]; exact not_mem_slashed hl'.symm)]
          at hsplit
        obtain ⟨htext, hquery⟩ := Prod.mk.inj hsplit
        exact .inr ⟨hquery, l, l', hl.symm, hl'.symm, String.ofList_injective htext⟩
      · exact absurd h (hdiffer ha hb hl.symm hpb)
    · by_cases hpb : root.names <+: b.path.names
      · obtain ⟨l', hl'⟩ := hpb
        exact absurd h.symm (hdiffer hb ha hl'.symm hpa)
      · rw [relativeTo_of_outside hr ha hpa, relativeTo_of_outside hr hb hpb] at h
        cases a
        cases b
        exact .inl (congrArg mk h)
  · rintro (rfl | ⟨hq, l, l', hl, hl', hs⟩)
    · rfl
    · rw [relativeTo_of_below hr ha hl, relativeTo_of_below hr hb hl', hq, hs]

/-- The path of an id has no backslash and no name that counts for nothing or leads back; the
latter is so where no name has a `?`. -/
structure Clear (id : ModuleId) : Prop where
  backslash : '\\' ∉ id.path.text.toList
  tidy : id.path.Tidy

theorem clear_ofPath {names : List String} (h : ∀ s ∈ names, Path.Plain s) (query : Option String)
    (hb : '\\' ∉ (Path.ofNames names).text.toList) (hq : '?' ∉ (Path.ofNames names).text.toList) :
    (ofPath (.ofNames names) query).Clear := by
  have hpath := ((ofPath_splits _ query).mpr hq).1
  constructor
  · rwa [hpath]
  · rw [hpath]
    exact Path.tidy_ofNames h

theorem Alike.eq_of_clear {a b : ModuleId} (h : Alike root a b) (ha : a.Clear) (hb : b.Clear)
    (hla : a.Located) (hlb : b.Located) : a = b := by
  obtain ⟨hq, l, l', hl, hl', hs⟩ := h
  have hslashed : ∀ {x : ModuleId} {l : List String}, x.Clear → x.path.names = root.names ++ l →
      Path.slashed l = ['/'].intercalate (l.map String.toList) ∧
      ∀ s ∈ l, '/' ∉ s.toList ∧ Path.isVoid s = false := by
    intro x l hx hl
    have hmem : ∀ s ∈ l, s ∈ x.path.names := fun s hs => hl ▸ List.mem_append_right _ hs
    refine ⟨?_, fun s hs => Path.mem_names (hmem s hs)⟩
    refine (List.map_congr_left fun c hc => if_neg fun he => ?_).trans (List.map_id _)
    rcases Text.mem_intercalate hc with hc | ⟨cs, hcs, hc⟩
    · exact absurd (he.symm.trans hc) (by decide)
    · obtain ⟨s, hs, rfl⟩ := List.mem_map.mp hcs
      exact hx.backslash (Path.mem_text_of_mem_names (hmem s hs) (he ▸ hc))
  obtain ⟨hsa, hla'⟩ := hslashed ha hl
  obtain ⟨hsb, hlb'⟩ := hslashed hb hl'
  rw [hsa, hsb] at hs
  have hnames : l = l' := by
    rw [← Path.names_ofNames hla', ← Path.names_ofNames hlb']
    refine congrArg Path.names (congrArg Path.mk (String.toList_inj.mp ?_))
    exact (Path.toList_ofNames l).trans
      ((congrArg ('/' :: ·) hs).trans (Path.toList_ofNames l').symm)
  obtain ⟨_, _, hca⟩ := hla.cut
  obtain ⟨_, _, hcb⟩ := hlb.cut
  refine eq_of_path_of_query (ha.tidy.eq_of_components hb.tidy ?_) hq
  rw [Path.components_of_absolute hca.absolute, Path.components_of_absolute hcb.absolute, hl, hl',
    hnames]

end ModuleId

/-! ## The registry -/

theorem Table.get?_foldl_insert {α β : Type} {f : α → String} {v : α → β} {l : List α}
    {t : Table String β} {k : String} {b : β}
    (h : (l.foldl (fun t x => t.insert (f x) (v x)) t).get? k = some b) :
    (∃ x ∈ l, f x = k ∧ v x = b) ∨ t.get? k = some b := by
  induction l generalizing t with
  | nil => exact .inr h
  | cons y l ih =>
    rcases ih h with ⟨x, hx, hk⟩ | h
    · exact .inl ⟨x, List.mem_cons_of_mem _ hx, hk⟩
    · rw [get?_insert] at h
      split at h
      next he => exact .inl ⟨y, List.mem_cons_self, he.symm, Option.some.inj h⟩
      next => exact .inr h

theorem Table.get?_foldl_insert_self {α : Type} {f : α → String} {l : List α} {t : Table String α}
    {x : α} (hx : x ∈ l ∨ t.get? (f x) = some x) (hl : ∀ y ∈ l, f y = f x → y = x) :
    (l.foldl (fun t x => t.insert (f x) x) t).get? (f x) = some x := by
  induction l generalizing t with
  | nil => exact hx.resolve_left List.not_mem_nil
  | cons y l ih =>
    refine ih ?_ fun z hz => hl z (List.mem_cons_of_mem _ hz)
    rw [get?_insert]
    split
    next he => exact .inr (congrArg some (hl y List.mem_cons_self he.symm))
    next he =>
      refine hx.imp_left fun hx => (List.mem_cons.mp hx).resolve_left ?_
      rintro rfl
      exact he rfl

theorem Table.mem_of_get?_ofList {α : Type} {l : List (String × α)} {k : String} {v : α}
    (h : (ofList l).get? k = some v) : (k, v) ∈ l := by
  rcases get?_foldl_insert h with ⟨e, he, rfl, rfl⟩ | h
  · exact he
  · cases h

/-- A look-up gives ids of files. -/
theorem Lookup.located_of_find (l : Lookup) (hn : l.files.Named) {dir p : Path} {request : String}
    (h : l.find dir request = .ok p) (query : Option String) :
    (ModuleId.ofPath p query).Located := by
  obtain ⟨names, bytes, rfl, hleads, -⟩ := leads_of_find hn h
  exact ⟨names, query, hleads.plain, rfl⟩

namespace Render

variable (r : Renderer)

/-- What the registry has once the scripts of some chunks ran: of several definitions for a key the
last one. -/
def registry (g : ModuleGraph) (loaded : List Chunk) : Table String (ModuleId × Module) :=
  (loaded.flatMap (members g)).foldl (fun t x => t.insert (key r x.1) x) {}

/-- The ids that scripts speak of: of their modules, and of what these depend on within. -/
def Mentions (g : ModuleGraph) (loaded : List Chunk) (id : ModuleId) : Prop :=
  ∃ c ∈ loaded, ∃ x ∈ members g c,
    id = x.1 ∨ ∃ d ∈ x.2.dependencies, d.target = some id ∧ d.external = false

/-- The registry has the modules of the scripts that ran, each by its key, and a key in the table of
a module is that of what a dependency was resolved to, of which it has the definition as soon as
that ran. -/
structure Registers (g : ModuleGraph) (loaded : List Chunk) : Prop where
  defined : ∀ c ∈ loaded, ∀ x ∈ members g c, (registry r g loaded).get? (key r x.1) = some x
  linked : ∀ c ∈ loaded, ∀ x ∈ members g c, ∀ specifier k,
    (dependencyTable r x.2).field? specifier = some (.text k) →
      ∃ d ∈ x.2.dependencies, ∃ t, d.specifier = specifier ∧ d.target = some t ∧
        d.external = false ∧ k = key r t ∧
        (∀ y, (registry r g loaded).get? k = some y → y.1 = t) ∧
        ∀ c' ∈ loaded, ∀ y ∈ members g c', y.1 = t → (registry r g loaded).get? k = some y

variable {r}

theorem eq_of_mem_members {g : ModuleGraph} {c c' : Chunk} {x y : ModuleId × Module}
    (hx : x ∈ members g c) (hy : y ∈ members g c') (h : x.1 = y.1) : x = y := by
  obtain ⟨id, -, hid⟩ := List.mem_filterMap.mp hx
  obtain ⟨id', -, hid'⟩ := List.mem_filterMap.mp hy
  obtain ⟨m, hm, rfl⟩ := Option.map_eq_some_iff.mp hid
  obtain ⟨m', hm', rfl⟩ := Option.map_eq_some_iff.mp hid'
  obtain rfl : id = id' := h
  rw [hm] at hm'
  cases hm'
  rfl

theorem mem_dependencyTable {m : Module} {specifier k : String}
    (h : (dependencyTable r m).field? specifier = some (.text k)) :
    ∃ d ∈ m.dependencies, ∃ t, d.specifier = specifier ∧ d.target = some t ∧
      d.external = false ∧ k = key r t := by
  obtain ⟨d, hd, he⟩ := List.mem_filterMap.mp (Table.mem_of_get?_ofList h)
  obtain ⟨t, ht, he⟩ := Option.map_eq_some_iff.mp he
  obtain ⟨hs, hv⟩ := Prod.mk.inj he
  split at hv
  next => cases hv
  next hext =>
    cases hv
    exact ⟨d, hd, t, hs, ht, eq_false_of_ne_true hext, rfl⟩

/-- Where different ids have different keys, the registry is right. -/
theorem registers_of_injective {g : ModuleGraph} {loaded : List Chunk}
    (h : ∀ a b, Mentions g loaded a → Mentions g loaded b → key r a = key r b → a = b) :
    Registers r g loaded := by
  have hdefined : ∀ c ∈ loaded, ∀ x ∈ members g c,
      (registry r g loaded).get? (key r x.1) = some x := by
    intro c hc x hx
    have hunique : ∀ y ∈ loaded.flatMap (members g), key r y.1 = key r x.1 → y = x := by
      intro y hy he
      obtain ⟨c', hc', hy⟩ := List.mem_flatMap.mp hy
      exact eq_of_mem_members hy hx
        (h _ _ ⟨c', hc', y, hy, .inl rfl⟩ ⟨c, hc, x, hx, .inl rfl⟩ he)
    exact Table.get?_foldl_insert_self (.inl (List.mem_flatMap.mpr ⟨c, hc, hx⟩)) hunique
  refine ⟨hdefined, fun c hc x hx specifier k hk => ?_⟩
  obtain ⟨d, hd, t, hs, ht, hext, rfl⟩ := mem_dependencyTable hk
  refine ⟨d, hd, t, hs, ht, hext, rfl, fun y hy => ?_, fun c' hc' y hy he => ?_⟩
  · rcases Table.get?_foldl_insert hy with ⟨z, hmem, hkey, rfl⟩ | hnone
    · obtain ⟨c', hc', hmem⟩ := List.mem_flatMap.mp hmem
      exact h _ _ ⟨c', hc', z, hmem, .inl rfl⟩ ⟨c, hc, x, hx, .inr ⟨d, hd, ht, hext⟩⟩ hkey
    · cases hnone
  · rw [← he]
    exact hdefined c' hc' y hy

/-- Two ids of files have one key if they are one id or read alike below the root, and only then;
without backslashes and `?` in their paths they are one id. If no ids of files that scripts mention
read alike, no definition takes the place of another one in the registry, and every key in a table
leads to the module that the dependency was resolved to. -/
theorem keys_tell_apart (r : Renderer) (hr : r.options.root.isAbsolute = true) :
    (∀ a b : ModuleId, a.Located → b.Located →
      (key r a = key r b ↔ a = b ∨ a.Alike r.options.root b)) ∧
    (∀ a b : ModuleId, a.Located → b.Located → a.Clear → b.Clear →
      a.Alike r.options.root b → a = b) ∧
    ∀ g loaded, (∀ id, Mentions g loaded id → id.Located) →
      (∀ a b, Mentions g loaded a → Mentions g loaded b → a.Alike r.options.root b → a = b) →
        Registers r g loaded := by
  have hkeys : ∀ a b : ModuleId, a.Located → b.Located →
      (key r a = key r b ↔ a = b ∨ a.Alike r.options.root b) :=
    fun a b ha hb => ModuleId.relativeTo_eq_iff hr ha hb
  refine ⟨hkeys, fun a b ha hb hca hcb h => h.eq_of_clear hca hcb ha hb,
    fun g loaded hlocated happart => registers_of_injective fun a b ha hb hk => ?_⟩
  exact ((hkeys a b (hlocated a ha) (hlocated b hb)).mp hk).elim id (happart a b ha hb)

def pageId : ModuleId := .ofPath (.ofNames ["kx", "a.js"]) none

def partId : ModuleId := .ofPath (.ofNames ["kx", "lib", "b.js"]) (some "raw")

/-- A module that depends on a part of it. -/
def pageGraph : ModuleGraph :=
  let page : Module :=
    { id := pageId
      dependencies := [⟨"./lib/b.js?raw", .require, 1, some partId, false⟩]
      state := .fresh }
  (({} : ModuleGraph).insert page).insert { id := partId, state := .fresh }

def pageChunk : Chunk := { name := "main", kind := .entry, modules := [pageId, partId] }

theorem mentions_page {id : ModuleId} (h : Mentions pageGraph [pageChunk] id) :
    id = pageId ∨ id = partId := by
  have hall : (members pageGraph pageChunk).all (fun x => (x.1 = pageId || x.1 = partId) &&
      x.2.dependencies.all (·.target = some partId)) = true := by decide +kernel
  obtain ⟨c, hc, x, hx, h⟩ := h
  rw [List.mem_singleton.mp hc] at hx
  have hx := List.all_eq_true.mp hall x hx
  rw [Bool.and_eq_true, Bool.or_eq_true, decide_eq_true_eq, decide_eq_true_eq] at hx
  rcases h with rfl | ⟨d, hd, ht, -⟩
  · exact hx.1
  · have := of_decide_eq_true (List.all_eq_true.mp hx.2 d hd)
    exact .inr (Option.some.inj (ht.symm.trans this))

/-- A path below the root, one with a query, and one outside that a look-up finds; the names of a
fourth path make the text of a fifth one where a backslash is a slash. -/
theorem keys_tell_apart_of_page :
    let r : Renderer := { options := { root := ⟨"/kx"⟩ } }
    let outside : ModuleId := .ofPath ⟨"/b.js"⟩ none
    let slash : ModuleId := .ofPath (.ofNames ["kx", "a", "b.js"]) none
    let backslash : ModuleId := .ofPath (.ofNames ["kx", "a\\b.js"]) none
    r.options.root.isAbsolute = true ∧ pageId.Located ∧ partId.Located ∧ pageId.Clear ∧
      partId.Clear ∧ outside.Located ∧ outside.Clear ∧ key r pageId ≠ key r partId ∧
      key r pageId ≠ key r outside ∧ Registers r pageGraph [pageChunk] ∧
      slash.Located ∧ backslash.Located ∧ slash ≠ backslash ∧ key r slash = key r backslash := by
  intro r outside slash backslash
  have hplain : ∀ names ∈ [["kx", "a.js"], ["kx", "lib", "b.js"], ["kx", "a", "b.js"],
      ["kx", "a\\b.js"]], ∀ s ∈ names, Path.Plain s := by
    have h : ∀ names ∈ [["kx", "a.js"], ["kx", "lib", "b.js"], ["kx", "a", "b.js"],
        ["kx", "a\\b.js"]], ∀ s ∈ names, '/' ∉ s.toList ∧ Path.isVoid s = false ∧ s ≠ ".." := by
      decide
    exact fun names hn s hs => ⟨(h names hn s hs).1, (h names hn s hs).2.1, (h names hn s hs).2.2⟩
  have hr : r.options.root.isAbsolute = true := by decide
  have hpage : pageId.Located := ⟨_, _, hplain _ (by simp), rfl⟩
  have hpart : partId.Located := ⟨_, _, hplain _ (by simp), rfl⟩
  have hnamed : (Session.oneFile "1").files.Named := fun _ h => nomatch h
  have houtside : outside.Located :=
    Lookup.located_of_find ⟨(Session.oneFile "1").files, [".js"]⟩ hnamed Session.one_found.1 none
  have hslash : slash.Located := ⟨_, _, hplain _ (by simp), rfl⟩
  have hbackslash : backslash.Located := ⟨_, _, hplain _ (by simp), rfl⟩
  have hcpage : pageId.Clear :=
    ModuleId.clear_ofPath (hplain _ (by simp)) _ (by decide) (by decide)
  have hcpart : partId.Clear :=
    ModuleId.clear_ofPath (hplain _ (by simp)) _ (by decide) (by decide)
  have hone : ∀ s ∈ ["b.js"], Path.Plain s := fun s hs => by
    rw [List.mem_singleton.mp hs]
    exact ⟨by decide, by decide, by decide⟩
  have hcoutside : outside.Clear := ModuleId.clear_ofPath hone _ (by decide) (by decide)
  obtain ⟨hkeys, hclear, hregisters⟩ := keys_tell_apart r hr
  have hne : pageId ≠ partId ∧ pageId ≠ outside := by decide
  have happart : ¬ pageId.Alike r.options.root partId := fun h =>
    hne.1 (hclear _ _ hpage hpart hcpage hcpart h)
  have halike : slash.Alike r.options.root backslash :=
    ⟨by decide, ["a", "b.js"], ["a\\b.js"], by decide, by decide, by decide⟩
  refine ⟨hr, hpage, hpart, hcpage, hcpart, houtside, hcoutside, fun h => ?_, fun h => ?_,
    hregisters _ _ (fun id h => ?_)
    (fun a b ha hb h => ?_), hslash, hbackslash, by decide,
    (hkeys _ _ hslash hbackslash).mpr (.inr halike)⟩
  · exact ((hkeys _ _ hpage hpart).mp h).elim hne.1 happart
  · exact ((hkeys _ _ hpage houtside).mp h).elim hne.2 fun h =>
      hne.2 (hclear _ _ hpage houtside hcpage hcoutside h)
  · rcases mentions_page h with rfl | rfl
    · exact hpage
    · exact hpart
  · rcases mentions_page ha with rfl | rfl <;> rcases mentions_page hb with rfl | rfl
    · rfl
    · exact absurd h happart
    · exact (hclear _ _ hpart hpage hcpart hcpage h)
    · rfl

end Render

end Bundler

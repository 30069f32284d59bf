import Bundler.Resolve.Resolver

/-!
# What a cache remembers

A cache answers a request from a directory with what its first look-up came to since the cache was
emptied, while the files go on changing. It is followed through any history of look-ups, changes of
the files and emptyings.
-/

namespace Bundler.LookupCache

/-- What happens to a cache and its files. -/
inductive Event
  | ask (dir : Path) (request : String)
  | change (files : FileTree)
  | clear

/-- Files, and a cache of what was looked up in them. -/
structure Shelf where
  files : FileTree
  cache : LookupCache := {}

section
variable (extensions : List String)

def Shelf.after (s : Shelf) : Event → Shelf
  | .ask dir request => { s with cache := (s.cache.lookup ⟨s.files, extensions⟩ dir request).1 }
  | .change files => { s with files }
  | .clear => { s with cache := {} }

/-- What a history leaves behind, which starts with some files and nothing in the cache. The last
event comes first. -/
def shelf (files : FileTree) : List Event → Shelf
  | [] => { files }
  | e :: past => (shelf files past).after extensions e

/-- What is told of a look-up. -/
def told (dir : Path) (request : String) : Except LookupFault Path → Except ResolveError Path
  | .ok p => .ok p
  | .error fault => .error ⟨request, dir.text, fault.message⟩

/-- What a request gets for an answer now. -/
def Shelf.answer (s : Shelf) (dir : Path) (request : String) : Except ResolveError Path :=
  told dir request (s.cache.lookup ⟨s.files, extensions⟩ dir request).2

end

/-- Nobody has asked for a key since the cache was emptied. -/
def Fresh (k : List Path.Component × String) : List Event → Prop
  | [] | .clear :: _ => True
  | .ask dir request :: past => key dir request ≠ k ∧ Fresh k past
  | .change _ :: past => Fresh k past

/-! ## One event -/

/-- What is known of a key; `none` if it has to be looked up. -/
def record? (c : LookupCache) (k : List Path.Component × String) : Option (Option Path) :=
  (c.known.find? fun e => e.1 = k).map (·.2)

theorem get?_eq (c : LookupCache) (dir : Path) (request : String) :
    c.get? dir request = c.record? (key dir request) := rfl

theorem lookup_of_known {c : LookupCache} {dir : Path} {request : String} {r : Option Path}
    (h : c.record? (key dir request) = some r) (l : Lookup) :
    c.lookup l dir request = (c, r.elim (.error .notFound) .ok) := by
  unfold lookup
  rw [get?_eq, h]
  cases r <;> rfl

theorem lookup_of_unknown {c : LookupCache} {dir : Path} {request : String}
    (h : c.record? (key dir request) = none) (l : Lookup) : c.lookup l dir request =
      (⟨(key dir request, (l.find dir request).toOption) :: c.known⟩, l.find dir request) := by
  unfold lookup
  rw [get?_eq, h]

/-- A look-up is recorded if its key was unknown, and leaves all other keys alone. -/
theorem record?_lookup (c : LookupCache) (l : Lookup) (dir : Path) (request : String)
    (k : List Path.Component × String) : (c.lookup l dir request).1.record? k =
      if key dir request = k then
        some ((c.record? k).getD (l.find dir request).toOption)
      else c.record? k := by
  cases h : c.record? (key dir request) with
  | some r =>
    rw [lookup_of_known h]
    split
    next hk => rw [← hk, h]; rfl
    next => rfl
  | none =>
    rw [lookup_of_unknown h]
    by_cases hk : key dir request = k
    · rw [if_pos hk, ← hk, h]
      simp [record?]
    · rw [if_neg hk]
      simp [record?, hk]

theorem Shelf.answer_of_known {s : Shelf} {dir : Path} {request : String} {r : Option Path}
    (h : s.cache.record? (key dir request) = some r) (extensions : List String) :
    s.answer extensions dir request = told dir request (r.elim (.error .notFound) .ok) := by
  unfold Shelf.answer
  rw [lookup_of_known h]

theorem Shelf.answer_of_unknown {s : Shelf} {dir : Path} {request : String}
    (h : s.cache.record? (key dir request) = none) (extensions : List String) :
    s.answer extensions dir request =
      told dir request (Lookup.find ⟨s.files, extensions⟩ dir request) := by
  unfold Shelf.answer
  rw [lookup_of_unknown h]

/-- Two shelves with the same files that know the same of a key. -/
structure Shelf.Alike (k : List Path.Component × String) (s t : Shelf) : Prop where
  files : s.files = t.files
  record? : s.cache.record? k = t.cache.record? k

namespace Shelf.Alike

variable {s t : Shelf}

theorem after {k : List Path.Component × String} (h : s.Alike k t) (extensions : List String)
    (e : Event) : (s.after extensions e).Alike k (t.after extensions e) := by
  cases e with
  | ask dir request =>
    refine ⟨h.files, (record?_lookup ..).trans (Eq.trans ?_ (record?_lookup ..).symm)⟩
    rw [h.record?, h.files]
  | change files => exact ⟨rfl, h.record?⟩
  | clear => exact ⟨h.files, rfl⟩

theorem answer {dir : Path} {request : String} (h : s.Alike (key dir request) t)
    (extensions : List String) :
    s.answer extensions dir request = t.answer extensions dir request := by
  cases hr : s.cache.record? (key dir request) with
  | some r => rw [answer_of_known hr, answer_of_known (h.record? ▸ hr)]
  | none => rw [answer_of_unknown hr, answer_of_unknown (h.record? ▸ hr), h.files]

end Shelf.Alike

/-! ## A history -/

section
variable {extensions : List String} {files : FileTree} {k : List Path.Component × String}

theorem Fresh.record? {history : List Event} (h : Fresh k history) :
    (shelf extensions files history).cache.record? k = none := by
  induction history with
  | nil => rfl
  | cons e past ih =>
    cases e with
    | ask dir request => exact (record?_lookup ..).trans ((if_neg h.1).trans (ih h.2))
    | change files => exact ih h
    | clear => rfl

/-- The first look-up of a key is recorded. -/
theorem Fresh.record?_ask {past : List Event} (h : Fresh k past) (extensions : List String)
    (files : FileTree) {dir : Path} {request : String} (hk : key dir request = k) :
    (shelf extensions files (.ask dir request :: past)).cache.record? k = some
      (Lookup.find ⟨(shelf extensions files past).files, extensions⟩ dir request).toOption := by
  refine (record?_lookup (shelf extensions files past).cache ..).trans ?_
  rw [if_pos hk, h.record?, Option.getD_none]

/-- What is known stays known until the cache is emptied. -/
theorem record?_append {later past : List Event} (h : .clear ∉ later) {r : Option Path}
    (hr : (shelf extensions files past).cache.record? k = some r) :
    (shelf extensions files (later ++ past)).cache.record? k = some r := by
  induction later with
  | nil => exact hr
  | cons e later ih =>
    have hknown := ih fun hc => h (List.mem_cons_of_mem _ hc)
    rw [List.cons_append]
    cases e with
    | ask dir request =>
      refine (record?_lookup (shelf extensions files (later ++ past)).cache ..).trans ?_
      rw [hknown]
      exact ite_self _
    | change files => exact hknown
    | clear => exact absurd List.mem_cons_self h

/-- A look-up of another key is as good as none, also for all that comes later. -/
theorem alike_of_other {dir : Path} {request : String} (h : key dir request ≠ k)
    (later past : List Event) : (shelf extensions files (later ++ .ask dir request :: past)).Alike k
      (shelf extensions files (later ++ past)) := by
  induction later with
  | nil => exact ⟨rfl, (record?_lookup ..).trans (if_neg h)⟩
  | cons e later ih => exact ih.after extensions e

/-- A key that nobody has asked for since the cache was emptied is looked up in the files as they
are. From then on its answer stays what that look-up came to: the path, or a plain fault for what is
asked, whatever becomes of the files. Look-ups of other keys make no difference. -/
theorem answer_snapshot (extensions : List String) (files : FileTree) (history : List Event)
    (dir : Path) (request : String) :
    let now := shelf extensions files history
    (Fresh (key dir request) history →
      now.answer extensions dir request =
        told dir request (Lookup.find ⟨now.files, extensions⟩ dir request)) ∧
    (∀ later dir' request' past, history = later ++ .ask dir' request' :: past →
      key dir' request' = key dir request → .clear ∉ later → Fresh (key dir request) past →
      now.answer extensions dir request =
        match Lookup.find ⟨(shelf extensions files past).files, extensions⟩ dir' request' with
        | .ok p => .ok p
        | .error _ => .error ⟨request, dir.text, "module not found"⟩) ∧
    (∀ later dir' request' past, history = later ++ .ask dir' request' :: past →
      key dir' request' ≠ key dir request → now.answer extensions dir request =
        (shelf extensions files (later ++ past)).answer extensions dir request) := by
  intro now
  refine ⟨fun hfresh => Shelf.answer_of_unknown hfresh.record? extensions, ?_, ?_⟩
  · rintro later dir' request' past rfl hkey hclear hfresh
    have hknown := record?_append hclear (hfresh.record?_ask extensions files hkey)
    refine (Shelf.answer_of_known hknown extensions).trans ?_
    cases Lookup.find ⟨(shelf extensions files past).files, extensions⟩ dir' request' <;> rfl
  · rintro later dir' request' past rfl hne
    exact (alike_of_other hne later past).answer extensions

/-- A file that came after the first look-up is not seen, from whichever spelling of the directory
it is asked for. -/
theorem answer_snapshot_of_new_file :
    let bare : FileTree := ⟨.dir [], []⟩
    let grown : FileTree := ⟨.dir [("a", .file [])], []⟩
    key ⟨"/."⟩ "./a" = key ⟨"/"⟩ "./a" ∧ Fresh (key ⟨"/"⟩ "./a") [] ∧
    Lookup.find ⟨grown, []⟩ ⟨"/"⟩ "./a" = .ok ⟨"/a"⟩ ∧
    (shelf [] bare [.change grown, .ask ⟨"/."⟩ "./a"]).answer [] ⟨"/"⟩ "./a" =
      .error ⟨"./a", "/", "module not found"⟩ := by
  intro bare grown
  have hkey : key ⟨"/."⟩ "./a" = key ⟨"/"⟩ "./a" := by decide +kernel
  have hfirst : Lookup.find ⟨bare, []⟩ ⟨"/."⟩ "./a" = .error .notFound := rfl
  refine ⟨hkey, trivial, rfl, ?_⟩
  have h := (answer_snapshot [] bare [.change grown, .ask ⟨"/."⟩ "./a"] ⟨"/"⟩ "./a").2.1
    [.change grown] ⟨"/."⟩ "./a" [] rfl hkey (fun hc => by simp at hc) trivial
  rw [show (shelf [] bare []).files = bare from rfl, hfirst] at h
  exact h

end

end Bundler.LookupCache

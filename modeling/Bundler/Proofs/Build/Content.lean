import Bundler.Proofs.Build.Demand
import Bundler.Proofs.Resolve.Content

/-!
# Modules of files

Without a host, a module is made of the content of its file and of where its requests lead. Other
content in some file makes other modules of that file only, and requests lead where they led.
-/

namespace Bundler

/-! ## Where requests lead -/

namespace Resolver

variable {r : Resolver} {w : World} {t t' : FileTree} {limit : Option Nat}

/-- Some request leads to an id, outside or inside. -/
def Leads (r : Resolver) (w : World) (limit : Option Nat) (external : Bool) (id : ModuleId) : Prop :=
  ∃ specifier importer dir, (r.ideal w limit specifier importer dir).outcome = .ok ⟨id, external⟩

/-- The ids that requests lead to, inside and outside. -/
def realm (r : Resolver) (w : World) (limit : Option Nat) : Realm :=
  ⟨r.Leads w limit false, r.Leads w limit true⟩

/-- No id is one inside for some request and one outside for another. -/
def Separates (r : Resolver) (w : World) (limit : Option Nat) : Prop :=
  ∀ id, r.Leads w limit false id → ¬ r.Leads w limit true id

section
variable (h : Lookup.Agrees ⟨t, r.extensions⟩ ⟨t', r.extensions⟩) {host : Option Host}
include h

theorem realm_of_agrees : r.realm ⟨t', host⟩ limit = r.realm ⟨t, host⟩ limit := by
  unfold realm Leads
  simp only [ideal_of_agrees h]

theorem separates_of_agrees (hs : r.Separates ⟨t, host⟩ limit) : r.Separates ⟨t', host⟩ limit := by
  unfold Separates Leads at hs ⊢
  simpa only [ideal_of_agrees h] using hs

end

/-- Without a host, a request leads outside as it is, or to a file. -/
theorem ideal_cases {specifier : String} {importer : Option ModuleId} {dir : Path} {x : Resolved}
    (h : (r.ideal ⟨t, none⟩ limit specifier importer dir).outcome = .ok x) :
    r.isExternal (r.expand (splitQuery specifier).1) = true ∧ x.external = true ∨
      ∃ f q, Lookup.Finds ⟨t, r.extensions⟩ f ∧ x = ⟨.ofPath f q, false⟩ := by
  unfold ideal resolve at h
  dsimp only at h
  generalize splitQuery specifier = sq at h ⊢
  obtain ⟨request, query⟩ := sq
  dsimp only at h ⊢
  by_cases hx : r.isExternal (r.expand request) = true
  · rw [if_pos hx] at h
    cases h
    exact .inl ⟨hx, rfl⟩
  · rw [if_neg hx] at h
    have h : (r.resolveInFiles t { bridge := { limit } } specifier importer dir
        (r.expand request) query none).2.outcome = .ok x := h
    have hlookup : (r.lookup t { bridge := { limit } } dir (r.expand request)).2 =
        Lookup.find ⟨t, r.extensions⟩ dir (r.expand request) := rfl
    unfold resolveInFiles at h
    dsimp only at h
    rw [hlookup] at h
    cases hf : Lookup.find ⟨t, r.extensions⟩ dir (r.expand request) with
    | error fault => rw [hf] at h; cases h
    | ok f =>
      rw [hf] at h
      cases h
      exact .inr ⟨f, query, Lookup.finds_of_find hf, rfl⟩

theorem finds_of_leads {id : ModuleId} (h : r.Leads ⟨t, none⟩ limit false id) :
    ∃ f q, Lookup.Finds ⟨t, r.extensions⟩ f ∧ id = .ofPath f q := by
  obtain ⟨_, _, _, h⟩ := h
  rcases ideal_cases h with ⟨-, hx⟩ | ⟨f, q, hf, he⟩
  · cases hx
  · exact ⟨f, q, hf, congrArg Resolved.id he⟩

theorem separates_of_no_externals (h : r.externals = []) : r.Separates ⟨t, none⟩ limit := by
  rintro id - ⟨_, _, _, ho⟩
  rcases ideal_cases ho with ⟨hx, -⟩ | ⟨_, _, -, he⟩
  · unfold isExternal at hx
    rw [h] at hx
    cases hx
  · cases he

end Resolver

namespace Project

variable {p : Project} {w : World} {t t' : FileTree} {limit : Option Nat}

theorem bounded_realm (entries : Table String String) (h : p.resolver.Separates w limit) :
    p.Bounded w limit entries (p.resolver.realm w limit) where
  apart := h
  keeps id _ d hd k hk := by
    obtain ⟨m, rfl⟩ := exists_mention hd
    unfold dependency at hk ⊢
    cases ho : (p.resolver.ideal w limit m.specifier (some id) id.dir).outcome with
    | error e => rw [ho] at hk; cases hk
    | ok r =>
      rw [ho] at hk
      cases hk
      have hr : ∀ b, r.external = b → p.resolver.Leads w limit b r.id := fun b hb =>
        ⟨m.specifier, some id, id.dir, hb ▸ ho⟩
      exact ⟨hr false, hr true⟩
  enters name specifier _ id he := by
    unfold Resolution.entryId? at he
    cases ho : (p.entry w limit specifier).2.outcome with
    | error e => rw [ho] at he; cases he
    | ok r =>
      rw [ho] at he
      by_cases hx : r.external = true
      · exact nomatch (if_pos hx).symm.trans he
      · obtain rfl := Option.some.inj ((if_neg hx).symm.trans he)
        obtain ⟨k, external⟩ := r
        obtain rfl : external = false := eq_false_of_ne_true hx
        exact ⟨_, none, p.resolver.root, ho⟩

theorem entry_of_agrees (h : Lookup.Agrees ⟨t, p.resolver.extensions⟩ ⟨t', p.resolver.extensions⟩)
    {host : Option Host} (specifier : String) :
    p.entry ⟨t', host⟩ limit specifier = p.entry ⟨t, host⟩ limit specifier := by
  have hspecifier : Pass.entrySpecifier t' p.resolver.root specifier =
      Pass.entrySpecifier t p.resolver.root specifier := by
    have hfile : ∀ path, t'.isFile path = t.isFile path := h.isFile
    simp only [Pass.entrySpecifier, hfile]
  unfold entry
  simp only [hspecifier, Resolver.ideal_of_agrees h]

/-! ## Content -/

theorem ideal_of_files (p : Project) (t : FileTree) (limit : Option Nat) (id : ModuleId) :
    p.ideal ⟨t, none⟩ limit id =
      match p.search id ⟨p.loading.ofFile t id none, none⟩ with
      | .error m => m
      | .ok d => (p.idealDraft ⟨t, none⟩ limit d).toModule := rfl

theorem ideal_of_content (h : Lookup.Agrees ⟨t, p.resolver.extensions⟩ ⟨t', p.resolver.extensions⟩)
    {id : ModuleId} (hr : t'.read id.path = t.read id.path) :
    p.ideal ⟨t', none⟩ limit id = p.ideal ⟨t, none⟩ limit id := by
  have hload : p.loading.ofFile t' id none = p.loading.ofFile t id none := by
    unfold Loading.ofFile
    rw [hr]
  have hdraft : ∀ d, p.idealDraft ⟨t', none⟩ limit d = p.idealDraft ⟨t, none⟩ limit d := by
    intro d
    unfold idealDraft
    simp only [Resolver.ideal_of_agrees h]
  rw [ideal_of_files, ideal_of_files, hload]
  simp only [hdraft]

theorem fingerprint_ideal (p : Project) (t : FileTree) (limit : Option Nat) (id : ModuleId) :
    (p.ideal ⟨t, none⟩ limit id).fingerprint =
      (p.loading.ofFile t id none).toOption.map fun l => .ofBytes l.content := by
  rw [ideal_of_files]
  unfold search
  dsimp only
  cases p.loading.ofFile t id none with
  | error e => rfl
  | ok l =>
    dsimp only
    cases p.loading.transform id l with
    | error e => rfl
    | ok x =>
      dsimp only
      cases x.dependencies id l.loader <;> rfl

theorem bare_ideal_of_error {id : ModuleId} {e : BuildError}
    (h : p.loading.ofFile t id none = .error e) :
    (p.ideal ⟨t, none⟩ limit id).bare = (Module.failed id []).bare := by
  rw [ideal_of_files, h]
  rfl

/-- If no content that a file has is mistaken for another, the fingerprint tells the module, but for
its errors. -/
theorem bare_ideal_of_fingerprint
    (h : Lookup.Agrees ⟨t, p.resolver.extensions⟩ ⟨t', p.resolver.extensions⟩) {id : ModuleId}
    (hx : ∀ c c', t.read id.path = .ok c → t'.read id.path = .ok c' →
      Fingerprint.ofBytes c = .ofBytes c' → c = c')
    (hf : (p.ideal ⟨t, none⟩ limit id).fingerprint = (p.ideal ⟨t', none⟩ limit id).fingerprint) :
    (p.ideal ⟨t, none⟩ limit id).bare = (p.ideal ⟨t', none⟩ limit id).bare := by
  have hread : ∀ {t : FileTree} {l}, p.loading.ofFile t id none = .ok l →
      t.read id.path = .ok l.content := by
    intro t l hl
    unfold Loading.ofFile at hl
    cases hs : p.loading.loaderFor id none with
    | error e => rw [hs] at hl; cases hl
    | ok loader =>
      rw [hs] at hl
      cases hr : t.read id.path with
      | error e => simp [hr, bind, Except.bind, throw, throwThe, MonadExceptOf.throw] at hl
      | ok c => simp [hr, bind, Except.bind, pure, Except.pure] at hl; rw [← hl]
  rw [fingerprint_ideal, fingerprint_ideal] at hf
  cases hl : p.loading.ofFile t id none with
  | error e =>
    cases hl' : p.loading.ofFile t' id none with
    | error e' => rw [bare_ideal_of_error hl, bare_ideal_of_error hl']
    | ok l' => rw [hl, hl'] at hf; cases hf
  | ok l =>
    cases hl' : p.loading.ofFile t' id none with
    | error e' => rw [hl, hl'] at hf; cases hf
    | ok l' =>
      rw [hl, hl'] at hf
      have hc := hx _ _ (hread hl) (hread hl') (Option.some.inj hf)
      rw [ideal_of_content h ((hread hl').trans (hc ▸ (hread hl).symm))]

end Project

end Bundler

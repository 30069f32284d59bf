import Bundler.Proofs.Hook.SingleFlight

/-!
# Questions one after the other

The trips of a bridge are a log of the questions that went to the host. Between two questions nobody
waits, and a slot is held by a trip that has ended: it broke down, or its caller went away. So a
question either finds such a trip, or it is the next one in the log.
-/

namespace Bundler

namespace Flights

section
variable {κ α : Type}

/-- Nobody waits, and what holds a slot has ended. -/
structure AtRest (f : Flights κ α) : Prop where
  waiting : f.waiting = []
  ended : ∀ s ∈ f.slots, ∃ o, f.trips[s.2]? = some ⟨s.1, some o⟩

/-- A trip failed, and its outcome was taken. -/
def Failed (f : Flights κ α) (n : Nat) (key : κ) (e : HookFailure) : Prop :=
  f.trips[n]? = some ⟨key, some (.failed e)⟩ ∧ (key, n) ∉ f.slots

instance [DecidableEq κ] [DecidableEq α] (f : Flights κ α) (n : Nat) (key : κ) (e : HookFailure) :
    Decidable (f.Failed n key e) :=
  decidable_of_iff ((f.trips[n]?).any (fun t => t.key = key ∧ t.outcome = some (.failed e)) = true ∧
      (key, n) ∉ f.slots) <| by
    unfold Failed
    rw [Option.any_eq_true]
    refine and_congr_left' ⟨?_, fun ht => ⟨_, ht, by simp⟩⟩
    rintro ⟨⟨key', o⟩, ht, he⟩
    obtain ⟨rfl, rfl⟩ := of_decide_eq_true he
    exact ht

/-- The slot of a key is held by a trip that broke down. -/
def Broken (f : Flights κ α) (key : κ) : Prop :=
  ∃ n reason, (key, n) ∈ f.slots ∧ f.trips[n]? = some ⟨key, some (.panicked reason)⟩

/-- A question was asked from its start to its end: no other one failed, and what broke down stays
so. -/
structure Logs (f g : Flights κ α) (key : κ) (o : Outcome α) : Prop where
  atRest : g.AtRest
  failed : ∀ n k e, g.Failed n k e → f.Failed n k e ∨ k = key ∧ o = .failed e
  kept : ∀ k, f.Broken k → g.Broken k
  broke : ∀ reason, o = .panicked reason → g.Broken key

theorem AtRest.empty : AtRest ({} : Flights κ α) := ⟨rfl, fun _ h => nomatch h⟩

theorem Logs.of_answer {f : Flights κ α} (h : f.AtRest) (key : κ) (a : Option α) :
    f.Logs f key (.answered a) :=
  ⟨h, fun _ _ _ => .inl, fun _ => id, fun _ he => nomatch he⟩

theorem modify_concat {β : Type} (l : List β) (a : β) (g : β → β) :
    (l ++ [a]).modify l.length g = l ++ [g a] := by
  induction l with
  | nil => rfl
  | cons b l ih => simp [ih]

/-! ## A trip that is started -/

/-- A trip was started and has ended, and it holds its slot. -/
def flown (f : Flights κ α) (key : κ) (o : Outcome α) : Flights κ α :=
  { trips := f.trips ++ [⟨key, some o⟩], slots := (key, f.issued) :: f.slots }

section
variable {f : Flights κ α} {key : κ} {o : Outcome α}

theorem AtRest.flown (h : f.AtRest) (key : κ) (o : Outcome α) : (f.flown key o).AtRest := by
  refine ⟨rfl, fun s hs => ?_⟩
  rcases List.mem_cons.mp hs with rfl | hs
  · exact ⟨o, getElem?_concat_eq_some.mpr (.inr ⟨rfl, rfl⟩)⟩
  · obtain ⟨o', ho⟩ := h.ended s hs
    exact ⟨o', getElem?_concat_eq_some.mpr (.inl ho)⟩

theorem Broken.flown {k : κ} (h : f.Broken k) (key : κ) (o : Outcome α) :
    (f.flown key o).Broken k := by
  obtain ⟨n, reason, hs, ht⟩ := h
  exact ⟨n, reason, List.mem_cons_of_mem _ hs, getElem?_concat_eq_some.mpr (.inl ht)⟩

theorem failed_flown {n : Nat} {k : κ} {e : HookFailure} (h : (f.flown key o).Failed n k e) :
    f.Failed n k e := by
  obtain ⟨ht, hs⟩ := h
  rcases getElem?_concat_eq_some.mp ht with ht | ⟨rfl, he⟩
  · exact ⟨ht, fun hm => hs (List.mem_cons_of_mem _ hm)⟩
  · cases he
    exact absurd List.mem_cons_self hs

theorem AtRest.ne_issued (h : f.AtRest) {s : κ × Nat} (hs : s ∈ f.slots) : s.2 ≠ f.issued := by
  obtain ⟨o, ho⟩ := h.ended s hs
  exact Nat.ne_of_lt (List.getElem?_eq_some_iff.mp ho).1

/-- If the trip broke down, it goes on holding its slot. -/
theorem AtRest.logs_flown (h : f.AtRest) (key : κ) (reason : String) :
    f.Logs (f.flown key (.panicked reason)) key (.panicked reason) where
  atRest := h.flown key _
  failed _ _ _ hf := .inl (failed_flown hf)
  kept _ hk := hk.flown key _
  broke _ _ := ⟨f.issued, reason, List.mem_cons_self, getElem?_concat_eq_some.mpr (.inr ⟨rfl, rfl⟩)⟩

/-- If not, its caller gives the slot up. -/
theorem AtRest.logs_concat (h : f.AtRest) (key : κ) (ho : ∀ reason, o ≠ .panicked reason) :
    f.Logs { trips := f.trips ++ [⟨key, some o⟩], slots := f.slots } key o where
  atRest := by
    refine ⟨rfl, fun s hs => ?_⟩
    obtain ⟨o', ho'⟩ := h.ended s hs
    exact ⟨o', getElem?_concat_eq_some.mpr (.inl ho')⟩
  failed := by
    rintro n k e ⟨ht, hs⟩
    rcases getElem?_concat_eq_some.mp ht with ht | ⟨-, he⟩
    · exact .inl ⟨ht, hs⟩
    · cases he
      exact .inr ⟨rfl, rfl⟩
  kept := by
    rintro k ⟨n, reason, hs, ht⟩
    exact ⟨n, reason, hs, getElem?_concat_eq_some.mpr (.inl ht)⟩
  broke reason he := absurd he (ho reason)

end

/-! ## A trip that is found -/

section
variable {f : Flights κ α} {key : κ} {n : Nat} {o : Outcome α}

/-- If the trip broke down, it tells the next caller the same. -/
theorem AtRest.logs_set (h : f.AtRest) (hn : (key, n) ∈ f.slots) {reason : String}
    (ht : f.trips[n]? = some ⟨key, some (.panicked reason)⟩) :
    f.Logs ⟨f.trips.set n ⟨key, some (.panicked brokenReason)⟩, f.slots, []⟩ key
      (.panicked reason) := by
  have hlt : n < f.trips.length := (List.getElem?_eq_some_iff.mp ht).1
  have hself := List.getElem?_set_self (a := ⟨key, some (.panicked brokenReason)⟩) hlt
  have hset : ∀ i, i ≠ n →
      (f.trips.set n ⟨key, some (.panicked brokenReason)⟩)[i]? = f.trips[i]? :=
    fun i hi => List.getElem?_set_ne (Ne.symm hi)
  have hkey : ∀ k o, f.trips[n]? = some ⟨k, o⟩ → k = key := by
    intro k o he
    rw [ht] at he
    cases he
    rfl
  refine ⟨⟨rfl, fun s hs => ?_⟩, ?_, ?_, fun _ _ => ⟨n, brokenReason, hn, hself⟩⟩
  · obtain ⟨o, ho⟩ := h.ended s hs
    by_cases hi : s.2 = n
    · rw [hi] at ho ⊢
      rw [hkey s.1 _ ho]
      exact ⟨_, hself⟩
    · exact ⟨o, (hset s.2 hi).trans ho⟩
  · rintro i k e ⟨hi, hs⟩
    by_cases he : i = n
    · subst he
      rw [hself] at hi
      cases hi
    · rw [hset i he] at hi
      exact .inl ⟨hi, hs⟩
  · rintro k ⟨i, r, hs, hi⟩
    by_cases he : i = n
    · subst he
      rw [hkey k _ hi] at hs ⊢
      exact ⟨i, brokenReason, hs, hself⟩
    · exact ⟨i, r, hs, (hset i he).trans hi⟩

/-- If not, its next caller gives the slot up. -/
theorem AtRest.logs_filter [DecidableEq κ] (h : f.AtRest)
    (ht : f.trips[n]? = some ⟨key, some o⟩) (ho : ∀ reason, o ≠ .panicked reason) :
    f.Logs ⟨f.trips, f.slots.filter fun s => !(s.1 = key && s.2 = n), []⟩ key o where
  atRest := ⟨rfl, fun s hs => h.ended s (List.mem_filter.mp hs).1⟩
  failed := by
    rintro i k e ⟨hi, hs⟩
    by_cases he : i = n ∧ k = key
    · obtain ⟨rfl, rfl⟩ := he
      rw [ht] at hi
      cases hi
      exact .inr ⟨rfl, rfl⟩
    · refine .inl ⟨hi, fun hm => hs (List.mem_filter.mpr ⟨hm, ?_⟩)⟩
      simpa [and_comm, imp_iff_not_or, or_comm] using he
  kept := by
    rintro k ⟨i, reason, hs, hi⟩
    refine ⟨i, reason, List.mem_filter.mpr ⟨hs, ?_⟩, hi⟩
    have hne : i ≠ n := by
      rintro rfl
      rw [ht] at hi
      cases hi
      exact ho reason rfl
    simp [hne]
  broke reason he := absurd he (ho reason)

end

end

/-! ## Questions -/

section
variable {κ α : Type} [DecidableEq κ] {f : Flights κ α} {key : κ} {n : Nat}

theorem mem_of_slot? (h : f.slot? key = some n) : (key, n) ∈ f.slots := by
  obtain ⟨⟨k, i⟩, hs, rfl⟩ := Option.map_eq_some_iff.mp h
  have hk := List.find?_some hs
  simp only [decide_eq_true_eq] at hk
  exact hk ▸ List.mem_of_find?_eq_some hs

theorem AtRest.finish_join (h : f.AtRest) (hslot : f.slot? key = none) (o : Outcome α) :
    (f.join 0 key).finish f.issued o = { f.flown key o with waiting := [(0, f.issued)] } := by
  rw [join_of_free hslot, h.waiting]
  unfold finish issued
  rw [modify_concat]
  rfl

/-- A question that finds its slot free goes to the host. -/
theorem AtRest.lead (h : f.AtRest) (hslot : f.slot? key = none) (o : Outcome α) :
    f.issued < (f.join 0 key).issued ∧ (f.join 0 key).tripOf? 0 = some f.issued ∧
      (((f.join 0 key).finish f.issued o).settle 0).2 = some o ∧
      f.Logs (((f.join 0 key).finish f.issued o).settle 0).1 key o := by
  have hjoin : f.join 0 key = ⟨f.trips ++ [⟨key, none⟩], (key, f.issued) :: f.slots,
      [(0, f.issued)]⟩ := by
    rw [join_of_free hslot, h.waiting]
    rfl
  have htrip : ((f.join 0 key).finish f.issued o).tripOf? 0 = some f.issued := by
    simp [h.finish_join hslot, tripOf?]
  have hget : ((f.join 0 key).finish f.issued o).trips[f.issued]? = some ⟨key, some o⟩ := by
    rw [h.finish_join hslot]
    exact getElem?_concat_eq_some.mpr (.inr ⟨rfl, rfl⟩)
  refine ⟨by simp [hjoin, issued], by simp [hjoin, tripOf?], ?_⟩
  by_cases ho : ∃ reason, o = .panicked reason
  · -- The trip keeps its slot.
    obtain ⟨reason, rfl⟩ := ho
    have hsettle : ((f.join 0 key).finish f.issued (.panicked reason)).settle 0 =
        (f.flown key (.panicked brokenReason), some (.panicked reason)) := by
      unfold settle
      rw [htrip]
      dsimp only
      rw [hget, h.finish_join hslot]
      simp [Flights.flown, issued]
    rw [hsettle]
    have hlogs := h.logs_flown key brokenReason
    exact ⟨rfl, hlogs.atRest, fun n k e hf => .inl (failed_flown hf), hlogs.kept,
      fun _ _ => hlogs.broke _ rfl⟩
  · have hp : ∀ reason, o ≠ .panicked reason := fun reason he => ho ⟨reason, he⟩
    have hslots : (f.flown key o).slots.filter (fun s => !(s.1 = key && s.2 = f.issued)) =
        f.slots := by
      unfold Flights.flown
      rw [List.filter_cons_of_neg (by simp)]
      refine List.filter_eq_self.mpr fun s hs => ?_
      simp [h.ne_issued hs]
    rw [settle_eq htrip hget hp, h.finish_join hslot, hslots]
    exact ⟨rfl, h.logs_concat key hp⟩

/-- A question that finds a trip in its slot takes the outcome of that. -/
theorem AtRest.share (h : f.AtRest) (hslot : f.slot? key = some n) :
    (f.join 0 key).issued = f.issued ∧ ∃ o,
      ((f.join 0 key).settle 0).2 = some o ∧ f.Logs ((f.join 0 key).settle 0).1 key o := by
  have hjoin : f.join 0 key = { f with waiting := [(0, n)] } := by
    rw [join_of_slot hslot, h.waiting]
    rfl
  have hmem := mem_of_slot? hslot
  have htrip : (f.join 0 key).tripOf? 0 = some n := by simp [hjoin, tripOf?]
  obtain ⟨o, ho⟩ := h.ended (key, n) hmem
  have hget : (f.join 0 key).trips[n]? = some ⟨key, some o⟩ := by rw [hjoin]; exact ho
  refine ⟨by rw [hjoin]; rfl, o, ?_⟩
  by_cases hp : ∃ reason, o = .panicked reason
  · obtain ⟨reason, rfl⟩ := hp
    have hsettle : (f.join 0 key).settle 0 =
        (⟨f.trips.set n ⟨key, some (.panicked brokenReason)⟩, f.slots, []⟩,
          some (.panicked reason)) := by
      rw [hjoin]
      simp [settle, tripOf?, ho]
    rw [hsettle]
    exact ⟨rfl, h.logs_set hmem ho⟩
  · have hp : ∀ reason, o ≠ .panicked reason := fun reason he => hp ⟨reason, he⟩
    rw [settle_eq htrip hget hp, hjoin]
    exact ⟨rfl, h.logs_filter ho hp⟩

/-- A question whose caller goes away leaves a trip in its slot. -/
theorem AtRest.withdraw_cases (h : f.AtRest) (key : κ) (o : Outcome α) :
    f.slot? key = none ∧ ((f.join 0 key).finish f.issued o).withdraw 0 = f.flown key o ∨
      (∃ n, f.slot? key = some n) ∧ (f.join 0 key).withdraw 0 = f := by
  cases hslot : f.slot? key with
  | none =>
    left
    rw [h.finish_join hslot]
    exact ⟨rfl, rfl⟩
  | some n =>
    right
    rw [join_of_slot hslot, h.waiting]
    refine ⟨⟨n, rfl⟩, ?_⟩
    obtain ⟨trips, slots, waiting⟩ := f
    cases h.waiting
    rfl

end

end Flights

namespace Bridge

structure AtRest (b : Bridge) : Prop where
  resolving : b.resolving.AtRest
  loading : b.loading.AtRest

theorem AtRest.new (limit : Option Nat) : AtRest { limit } := ⟨.empty, .empty⟩

theorem outcome_sides {α : Type} (b : Bridge) (r : Reply α) :
    (b.outcome r).1.resolving = b.resolving ∧ (b.outcome r).1.loading = b.loading := by
  unfold outcome
  repeat' split
  all_goals exact ⟨rfl, rfl⟩

variable {b : Bridge}

theorem AtRest.resolve (h : b.AtRest) (host : Option Host) (q : ResolveRequest) :
    (b.resolve host q).1.AtRest ∧ (b.resolve host q).1.loading = b.loading ∧
      b.resolving.Logs (b.resolve host q).1.resolving q (b.resolve host q).2 := by
  suffices key : (b.resolve host q).1.loading = b.loading ∧
      b.resolving.Logs (b.resolve host q).1.resolving q (b.resolve host q).2 from
    ⟨⟨key.2.atRest, key.1 ▸ h.loading⟩, key⟩
  cases host with
  | none => exact ⟨rfl, .of_answer h.resolving q none⟩
  | some host =>
    unfold Bridge.resolve ask
    cases hslot : b.resolving.slot? q with
    | none =>
      generalize ho : outcome { b with resolving := b.resolving.join 0 q } (host.resolve q) = o
      obtain ⟨h1, h2⟩ := outcome_sides { b with resolving := b.resolving.join 0 q } (host.resolve q)
      rw [ho] at h1 h2
      obtain ⟨hled, htrip, hout, hlogs⟩ := h.resolving.lead hslot o.2
      simp only [join, serve, settle, decide_eq_true hled, if_true, htrip, ho, h1, h2, hout,
        Option.map_some]
      exact ⟨trivial, hlogs⟩
    | some n =>
      obtain ⟨hled, o, hout, hlogs⟩ := h.resolving.share hslot
      simp only [join, settle, hled, Nat.lt_irrefl, decide_false, Bool.false_eq_true, if_false,
        hout, Option.map_some]
      exact ⟨trivial, hlogs⟩

theorem AtRest.load (h : b.AtRest) (host : Option Host) (id : String) :
    (b.load host id).1.AtRest ∧ (b.load host id).1.resolving = b.resolving ∧
      b.loading.Logs (b.load host id).1.loading id (b.load host id).2 := by
  suffices key : (b.load host id).1.resolving = b.resolving ∧
      b.loading.Logs (b.load host id).1.loading id (b.load host id).2 from
    ⟨⟨key.1 ▸ h.resolving, key.2.atRest⟩, key⟩
  cases host with
  | none => exact ⟨rfl, .of_answer h.loading id none⟩
  | some host =>
    unfold Bridge.load ask
    cases hslot : b.loading.slot? id with
    | none =>
      generalize ho : outcome { b with loading := b.loading.join 0 id } (host.load id) = o
      obtain ⟨h1, h2⟩ := outcome_sides { b with loading := b.loading.join 0 id } (host.load id)
      rw [ho] at h1 h2
      obtain ⟨hled, htrip, hout, hlogs⟩ := h.loading.lead hslot o.2
      simp only [join, serve, settle, decide_eq_true hled, if_true, htrip, ho, h1, h2, hout,
        Option.map_some]
      exact ⟨trivial, hlogs⟩
    | some n =>
      obtain ⟨hled, o, hout, hlogs⟩ := h.loading.share hslot
      simp only [join, settle, hled, Nat.lt_irrefl, decide_false, Bool.false_eq_true, if_false,
        hout, Option.map_some]
      exact ⟨trivial, hlogs⟩

/-- A question whose outcome was taken since an earlier time, and which failed. Its trip was started
since, or held its slot then. -/
def Failed (since b : Bridge) (f : HookFailure) : HostCall → Prop
  | .resolve q => ∃ n, (since.resolving.issued ≤ n ∨ (q, n) ∈ since.resolving.slots) ∧
      b.resolving.Failed n q f
  | .load id => ∃ n, (since.loading.issued ≤ n ∨ (id, n) ∈ since.loading.slots) ∧
      b.loading.Failed n id f

/-- A question that broke down. -/
def Broken (b : Bridge) : HostCall → Prop
  | .resolve q => b.resolving.Broken q
  | .load id => b.loading.Broken id

theorem not_failed_self (b : Bridge) (f : HookFailure) (call : HostCall) : ¬ b.Failed b f call := by
  intro h
  cases call with
  | resolve q =>
    obtain ⟨n, hn | hn, ht, hs⟩ := h
    · exact Nat.not_lt.mpr hn (List.getElem?_eq_some_iff.mp ht).1
    · exact hs hn
  | load id =>
    obtain ⟨n, hn | hn, ht, hs⟩ := h
    · exact Nat.not_lt.mpr hn (List.getElem?_eq_some_iff.mp ht).1
    · exact hs hn

/-- Questions were asked one after the other: those that failed are among some, and what broke down
stays so. -/
structure Adds (b c : Bridge) (fails : HookFailure → HostCall → Prop) : Prop where
  atRest : c.AtRest
  failed : ∀ (since : Bridge) (f : HookFailure) (call : HostCall), since.Failed c f call →
    since.Failed b f call ∨ fails f call
  broken : ∀ call, b.Broken call → c.Broken call

theorem Adds.refl (h : b.AtRest) (fails : HookFailure → HostCall → Prop) : b.Adds b fails :=
  ⟨h, fun _ _ _ => .inl, fun _ => id⟩

theorem Adds.mono {c : Bridge} {fails fails' : HookFailure → HostCall → Prop}
    (h : b.Adds c fails) (hf : ∀ f call, fails f call → fails' f call) : b.Adds c fails' :=
  ⟨h.atRest, fun since f call hc => (h.failed since f call hc).imp_right (hf f call), h.broken⟩

theorem Adds.trans {c d : Bridge} {fails : HookFailure → HostCall → Prop} (h : b.Adds c fails)
    (h' : c.Adds d fails) : b.Adds d fails := by
  refine ⟨h'.atRest, ?_, fun call hb => h'.broken call (h.broken call hb)⟩
  intro since f call hd
  rcases h'.failed since f call hd with hc | hc
  · exact h.failed since f call hc
  · exact .inr hc

/-- What one question adds on its side of the bridge. -/
theorem AtRest.adds_of_logs {c : Bridge} (h : b.AtRest) {q : ResolveRequest}
    {o : Outcome ResolveAnswer} (hlogs : b.resolving.Logs c.resolving q o)
    (hsame : c.loading = b.loading) :
    b.Adds c fun f call => call = .resolve q ∧ o = .failed f := by
  refine ⟨⟨hlogs.atRest, hsame ▸ h.loading⟩, ?_, ?_⟩
  · intro since f call hf
    cases call with
    | resolve q' =>
      obtain ⟨n, hn, ht⟩ := hf
      rcases hlogs.failed n q' f ht with ht | ⟨rfl, ho⟩
      · exact .inl ⟨n, hn, ht⟩
      · exact .inr ⟨rfl, ho⟩
    | load id =>
      simp only [Failed, hsame] at hf
      exact .inl hf
  · intro call hb
    cases call with
    | resolve q' => exact hlogs.kept q' hb
    | load id =>
      simp only [Broken, hsame]
      exact hb

theorem AtRest.adds_of_load_logs {c : Bridge} (h : b.AtRest) {id : String} {o : Outcome LoadAnswer}
    (hlogs : b.loading.Logs c.loading id o) (hsame : c.resolving = b.resolving) :
    b.Adds c fun f call => call = .load id ∧ o = .failed f := by
  refine ⟨⟨hsame ▸ h.resolving, hlogs.atRest⟩, ?_, ?_⟩
  · intro since f call hf
    cases call with
    | resolve q =>
      simp only [Failed, hsame] at hf
      exact .inl hf
    | load id' =>
      obtain ⟨n, hn, ht⟩ := hf
      rcases hlogs.failed n id' f ht with ht | ⟨rfl, ho⟩
      · exact .inl ⟨n, hn, ht⟩
      · exact .inr ⟨rfl, ho⟩
  · intro call hb
    cases call with
    | resolve q =>
      simp only [Broken, hsame]
      exact hb
    | load id' => exact hlogs.kept id' hb

theorem AtRest.adds_resolve (h : b.AtRest) (host : Option Host) (q : ResolveRequest) :
    (b.Adds (b.resolve host q).1 fun f call =>
      call = .resolve q ∧ (b.resolve host q).2 = .failed f) ∧
    ∀ reason, (b.resolve host q).2 = .panicked reason →
      (b.resolve host q).1.Broken (.resolve q) := by
  obtain ⟨-, hsame, hlogs⟩ := h.resolve host q
  exact ⟨h.adds_of_logs hlogs hsame, hlogs.broke⟩

theorem AtRest.adds_load (h : b.AtRest) (host : Option Host) (id : String) :
    (b.Adds (b.load host id).1 fun f call =>
      call = .load id ∧ (b.load host id).2 = .failed f) ∧
    ∀ reason, (b.load host id).2 = .panicked reason → (b.load host id).1.Broken (.load id) := by
  obtain ⟨-, hsame, hlogs⟩ := h.load host id
  exact ⟨h.adds_of_load_logs hlogs hsame, hlogs.broke⟩

/-- A question that is given up has not failed yet. -/
theorem AtRest.adds_abandon (h : b.AtRest) (host : Option Host) (q : ResolveRequest)
    (fails : HookFailure → HostCall → Prop) : b.Adds (b.abandon host q) fails := by
  cases host with
  | none => exact .refl h fails
  | some host =>
    -- The outcome is the one that the trip comes to, if one is started.
    generalize ho : outcome { b with resolving := b.resolving.join 0 q } (host.resolve q) = o
    obtain ⟨h1, h2⟩ := outcome_sides { b with resolving := b.resolving.join 0 q } (host.resolve q)
    rw [ho] at h1 h2
    rcases h.resolving.withdraw_cases q o.2 with ⟨hslot, he⟩ | ⟨⟨n, hslot⟩, he⟩
    · obtain ⟨hled, htrip, -⟩ := h.resolving.lead hslot o.2
      have hab : (b.abandon (some host) q).resolving = b.resolving.flown q o.2 ∧
          (b.abandon (some host) q).loading = b.loading := by
        unfold abandon
        simp only [join, serve, decide_eq_true hled, if_true, htrip, ho, h1, h2, he, and_self]
      refine ⟨⟨hab.1 ▸ h.resolving.flown q o.2, hab.2 ▸ h.loading⟩, ?_, ?_⟩
      · intro since f call hf
        cases call with
        | resolve q' =>
          obtain ⟨n, hn, ht⟩ := hf
          rw [hab.1] at ht
          exact .inl ⟨n, hn, Flights.failed_flown ht⟩
        | load id =>
          simp only [Failed, hab.2] at hf
          exact .inl hf
      · intro call hb
        cases call with
        | resolve q' =>
          simp only [Broken, hab.1]
          exact Flights.Broken.flown hb q o.2
        | load id =>
          simp only [Broken, hab.2]
          exact hb
    · obtain ⟨hled, -⟩ := h.resolving.share hslot
      have hab : b.abandon (some host) q = b := by
        unfold abandon
        simp only [join, hled, Nat.lt_irrefl, decide_false, Bool.false_eq_true, if_false, he]
      rw [hab]
      exact .refl h fails

end Bridge

namespace HostCall

/-- The module that a question is asked for; none for an entry. -/
def module? : HostCall → Option String
  | .resolve q => q.importer
  | .load id => some id

def failure (f : HookFailure) : HostCall → BuildError
  | .resolve q => Bridge.failure .resolve q.importee f
  | .load id => Bridge.failure .load id f

end HostCall

end Bundler

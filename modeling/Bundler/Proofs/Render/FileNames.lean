import Bundler.Manifest
import Mathlib.Data.List.Basic
import Mathlib.Data.List.GetD
import Mathlib.Data.List.TakeWhile

/-!
# Names of output files

A text in which something is substituted is cut at the places of the pattern, and the value is put
into each. Two names that a pattern gives rise to are compared by what stands between the places:
chunks with different names have scripts with different names, unless the pattern has no place for
the name or a name has a bracket of its own.
-/

namespace Bundler

namespace Text

/-! ## Cutting and filling -/

/-- A text with the places of a pattern cut out of it, each of which is `none`. The first `skip`
characters belong to a place. -/
def cut (pattern : List Char) : Nat → List Char → List (Option Char)
  | _, [] => []
  | skip + 1, _ :: cs => cut pattern skip cs
  | 0, c :: cs =>
    if pattern.isPrefixOf (c :: cs) then none :: cut pattern (pattern.length - 1) cs
    else some c :: cut pattern 0 cs

/-- A value put into all places. -/
def fill (value : List Char) : List (Option Char) → List Char
  | [] => []
  | none :: places => value ++ fill value places
  | some c :: places => c :: fill value places

section
variable {pattern value value' : List Char} {places places' : List (Option Char)}

theorem replaceFrom_eq (pattern value : List Char) (skip : Nat) (s : List Char) :
    replaceFrom pattern value skip s = fill value (cut pattern skip s) := by
  fun_induction cut pattern skip s with
  | case1 => rfl
  | case2 skip c cs ih => exact ih
  | case3 c cs h ih => rw [replaceFrom, if_pos h, fill, ih]
  | case4 c cs h ih => rw [replaceFrom, if_neg h, fill, ih]

/-- Filled with the pattern, a text is what it was. -/
theorem fill_cut (hne : pattern ≠ []) (skip : Nat) (s : List Char) :
    fill pattern (cut pattern skip s) = s.drop skip := by
  fun_induction cut pattern skip s with
  | case1 => simp [fill]
  | case2 skip c cs ih => exact ih
  | case3 c cs h ih =>
    obtain ⟨rest, hrest⟩ := List.isPrefixOf_iff_prefix.mp h
    rw [fill, ih, List.drop_zero, ← hrest]
    cases pattern with
    | nil => exact absurd rfl hne
    | cons a pattern =>
      obtain ⟨-, rfl⟩ := List.cons.inj hrest
      simp
  | case4 c cs h ih => rw [fill, ih]; rfl

theorem none_mem_cut (hne : pattern ≠ []) (s : List Char) :
    none ∈ cut pattern 0 s ↔ hasInfix pattern s = true := by
  unfold hasInfix
  induction s with
  | nil => simp [cut, splitAtFirst?, hne]
  | cons c cs ih =>
    rw [cut, splitAtFirst?]
    by_cases h : pattern.isPrefixOf (c :: cs)
    · have hsome : (pattern.isPrefixOf? (c :: cs)).isSome = true := by
        rwa [List.isSome_isPrefixOf?_eq_isPrefixOf]
      rw [if_pos h]
      obtain ⟨rest, hrest⟩ := Option.isSome_iff_exists.mp hsome
      simp [hrest]
    · have hnone : pattern.isPrefixOf? (c :: cs) = none := by
        rw [← Option.not_isSome_iff_eq_none, List.isSome_isPrefixOf?_eq_isPrefixOf]
        exact h
      rw [if_neg h, hnone]
      simpa using ih

/-- A value counts as often as there are places. -/
theorem countP_fill (p : Char → Bool) (value : List Char) (places : List (Option Char)) :
    (fill value places).countP p =
      places.countP (·.any p) + places.count none * value.countP p := by
  induction places with
  | nil => simp [fill]
  | cons x places ih =>
    cases x with
    | none =>
      rw [fill, List.countP_append, ih, List.count_cons_self, Nat.succ_mul]
      simp
      omega
    | some c =>
      rw [fill, List.countP_cons, ih, List.countP_cons, List.count_cons_of_ne (by simp)]
      simp
      omega

theorem count_fill (a : Char) (value : List Char) (places : List (Option Char)) :
    (fill value places).count a =
      places.countP (·.any (· == a)) + places.count none * value.count a :=
  countP_fill (· == a) value places

theorem length_fill (value : List Char) (places : List (Option Char)) :
    (fill value places).length =
      places.countP (·.isSome) + places.count none * value.length := by
  have h := countP_fill (fun _ => true) value places
  simpa [List.countP_true, Option.any_true] using h

/-- The text that a key stands in has a length of its own, if the key has one `a` and the text with
values without `a`, and the number of those, are given. -/
theorem length_fill_eq {a : Char} (key : List Char) (hkey : key.count a = 1) (hv : a ∉ value)
    (hv' : a ∉ value') (hlen : value.length = value'.length)
    (hcount : (fill key places).count a = (fill key places').count a)
    (he : fill value places = fill value' places') :
    (fill key places).length = (fill key places').length := by
  have hnone : places.count none = places'.count none := by
    have hout := congrArg (List.count a) he
    rw [count_fill, count_fill, List.count_eq_zero.mpr hv, List.count_eq_zero.mpr hv'] at hout
    rw [count_fill, count_fill, hkey] at hcount
    omega
  have hout := congrArg List.length he
  rw [length_fill, length_fill, hnone, hlen] at hout
  rw [length_fill, length_fill, hnone]
  omega

theorem fill_eq_of_not_mem (h : none ∉ places) (value value' : List Char) :
    fill value places = fill value' places := by
  induction places with
  | nil => rfl
  | cons x places ih =>
    cases x with
    | none => exact absurd List.mem_cons_self h
    | some c => rw [fill, fill, ih fun hm => h (List.mem_cons_of_mem _ hm)]

/-- With a place to be put into, values can be told apart. -/
theorem fill_inj (h : none ∈ places) (he : fill value places = fill value' places) :
    value = value' := by
  have hlen : value.length = value'.length := by
    have hl := congrArg List.length he
    rw [length_fill, length_fill] at hl
    exact Nat.eq_of_mul_eq_mul_left (List.count_pos_iff.mpr h) (by omega)
  induction places with
  | nil => cases h
  | cons x places ih =>
    cases x with
    | none => exact List.append_inj_left he hlen
    | some c => exact ih (by simpa using h) (List.cons.inj he).2

/-- Values of one shape give texts of one shape. -/
theorem map_fill (p : Char → Bool) (h : value.map p = value'.map p) (places : List (Option Char)) :
    (fill value places).map p = (fill value' places).map p := by
  induction places with
  | nil => rfl
  | cons x places ih => cases x <;> simp [fill, h, ih]

/-- Where texts agree that are filled with values without `a`, and with a key that begins with `a`
they have `a` at the same positions, the places are the same. -/
theorem places_eq {a : Char} (key : List Char) (hv : a ∉ value) (hv' : a ∉ value')
    (hlen : value.length = value'.length) (hpos : 0 < value.length)
    (hshape : (fill (a :: key) places).map (· == a) = (fill (a :: key) places').map (· == a))
    (he : fill value places = fill value' places') : places = places' := by
  -- A place of the one at a character of the other would put a character of the value upon an `a`.
  have hmixed {value : List Char} {b : Char} {rest rest' : List Char} (hv : a ∉ value)
      (hpos : 0 < value.length) (he : value ++ rest = b :: rest') (hb : b = a) : False := by
    obtain ⟨x, value, rfl⟩ := List.exists_cons_of_length_pos hpos
    obtain ⟨rfl, -⟩ := List.cons.inj he
    exact hv (hb ▸ List.mem_cons_self)
  induction places generalizing places' with
  | nil =>
    cases places' with
    | nil => rfl
    | cons x places' => cases x <;> simp [fill] at hshape
  | cons x places ih =>
    cases places' with
    | nil => cases x <;> simp [fill] at hshape
    | cons y places' =>
      cases x with
      | none =>
        cases y with
        | none =>
          simp only [fill, List.map_append] at hshape he
          rw [ih (List.append_cancel_left hshape) (List.append_inj_right he hlen)]
        | some b =>
          simp only [fill, List.cons_append, List.map_cons, List.cons.injEq] at hshape he
          exact (hmixed hv hpos he (by simpa using hshape.1.symm)).elim
      | some b =>
        cases y with
        | none =>
          simp only [fill, List.cons_append, List.map_cons, List.cons.injEq] at hshape he
          exact (hmixed hv' (hlen ▸ hpos) he.symm (by simpa using hshape.1)).elim
        | some c =>
          simp only [fill, List.map_cons, List.cons.injEq] at hshape he
          rw [he.1, ih hshape.2 he.2]

/-! ## What follows the places -/

/-- What cannot be reached by a place is not substituted. -/
theorem cut_append {a : Char} (hlast : pattern.getLast? = some a) {tail : List Char}
    (ht : a ∉ tail) (s : List Char) {skip : Nat} (hskip : skip ≤ s.length) :
    cut pattern skip (s ++ tail) = cut pattern skip s ++ tail.map some := by
  have hmem : a ∈ pattern := List.mem_of_getLast? hlast
  induction s generalizing skip with
  | nil =>
    obtain rfl : skip = 0 := Nat.le_zero.mp hskip
    rw [List.nil_append, cut, List.nil_append]
    induction tail with
    | nil => rfl
    | cons c tail ih =>
      have hno : ¬ pattern.isPrefixOf (c :: tail) := fun h =>
        ht ((List.isPrefixOf_iff_prefix.mp h).subset hmem)
      rw [cut, if_neg hno, ih fun h => ht (List.mem_cons_of_mem _ h)]
      rfl
  | cons c s ih =>
    cases skip with
    | succ skip => exact ih (Nat.le_of_succ_le_succ hskip)
    | zero =>
      -- An occurrence ends with `a`, and so within `s`.
      have hiff : pattern.isPrefixOf (c :: (s ++ tail)) = true ↔
          pattern.isPrefixOf (c :: s) = true := by
        rw [List.isPrefixOf_iff_prefix, List.isPrefixOf_iff_prefix, ← List.cons_append]
        refine ⟨fun h => ?_, fun h => h.trans (List.prefix_append _ _)⟩
        obtain ⟨rest, he⟩ := h
        rcases List.append_eq_append_iff.mp he with ⟨m, hm, -⟩ | ⟨m, hm, htail⟩
        · exact ⟨m, hm.symm⟩
        · rcases m.eq_nil_or_concat with rfl | ⟨init, b, rfl⟩
          · have heq : pattern = c :: s := by rw [hm, List.append_nil]
            exact heq ▸ List.prefix_rfl
          · rw [hm, List.concat_eq_append, ← List.append_assoc, List.getLast?_concat] at hlast
            cases hlast
            exact absurd (by simp [htail]) ht
      rw [List.cons_append, cut, cut]
      by_cases h : pattern.isPrefixOf (c :: s)
      · have hle : pattern.length - 1 ≤ s.length := by
          have := (List.isPrefixOf_iff_prefix.mp h).length_le
          simp only [List.length_cons] at this
          omega
        rw [if_pos (hiff.mpr h), if_pos h, ih hle]
        rfl
      · rw [if_neg (fun hn => h (hiff.mp hn)), if_neg h, ih (Nat.zero_le _)]
        rfl

theorem fill_append (value : List Char) (xs ys : List (Option Char)) :
    fill value (xs ++ ys) = fill value xs ++ fill value ys := by
  induction xs with
  | nil => rfl
  | cons x xs ih => cases x <;> simp [fill, ih]

theorem fill_map_some (value s : List Char) : fill value (s.map some) = s := by
  induction s with
  | nil => rfl
  | cons c s ih => rw [List.map_cons, fill, ih]

end

/-- The end of a text, without the last character of the pattern in it, is kept. -/
theorem suffix_replaceAll {pattern : List Char} {a : Char} (hlast : pattern.getLast? = some a)
    {tail : List Char} (ht : a ∉ tail) {s : List Char} (h : tail <:+ s) (value : List Char) :
    tail <:+ replaceAll pattern value s := by
  obtain ⟨front, rfl⟩ := h
  rw [replaceAll, replaceFrom_eq, cut_append hlast ht front (Nat.zero_le _), fill_append,
    fill_map_some]
  exact List.suffix_append _ _

end Text

/-! ## Digits of fingerprints -/

namespace Digest

theorem size_compress (chain block : Words) (counter : Nat) (length flags : UInt32) :
    (compress chain block counter length flags).size = 8 := by
  simp [compress]

theorem size_chainBlocks {chain : Words} (hchain : chain.size = 8) (counter : Nat)
    (flags start : UInt32) (blocks : List Bytes) :
    (chainBlocks counter flags chain start blocks).size = 8 := by
  fun_induction chainBlocks counter flags chain start blocks with
  | case1 => exact hchain
  | case2 => exact size_compress ..
  | case3 _ _ _ _ _ ih => exact ih (size_compress ..)

theorem size_level {nodes : List Words} (h : ∀ x ∈ nodes, x.size = 8) :
    ∀ x ∈ level nodes, x.size = 8 := by
  fun_induction level nodes with
  | case1 a b rest ih =>
    intro x hx
    rcases List.mem_cons.mp hx with rfl | hx
    · exact size_compress ..
    · exact ih (fun x hx => h x (by simp [hx])) x hx
  | case2 => exact h

theorem size_rootOf {nodes : List Words} (h : ∀ x ∈ nodes, x.size = 8) :
    (rootOf nodes).size = 8 := by
  fun_induction rootOf nodes with
  | case1 a b c rest ih => exact ih (size_level h)
  | case2 a b => exact size_compress ..
  | case3 a => exact h a List.mem_cons_self
  | case4 => rfl

end Digest

namespace Fingerprint

theorem size_ofBytes (bytes : Bytes) : (ofBytes bytes).words.size = 8 := by
  unfold ofBytes
  split
  · exact Digest.size_chainBlocks rfl ..
  · refine Digest.size_rootOf fun x hx => ?_
    obtain ⟨i, hi, rfl⟩ := List.mem_mapIdx.mp hx
    exact Digest.size_chainBlocks rfl ..

theorem length_toHex (f : Fingerprint) : f.toHex.toList.length = 8 * f.words.size := by
  rw [toHex, String.toList_ofList, ← Array.length_toList]
  induction f.words.toList with
  | nil => rfl
  | cons w ws ih =>
    rw [List.flatMap_cons, List.length_append, ih]
    simp [hexByte]
    omega

theorem length_short (bytes : Bytes) :
    ((ofBytes bytes).short Render.hashLength).toList.length = Render.hashLength := by
  rw [short, String.toList_ofList, List.length_take, length_toHex, size_ofBytes]
  rfl

theorem hexDigit_ne (n : Nat) : hexDigit n ≠ '[' := by
  have hmem : hexDigit n ∈ "0123456789abcdef".toList := by
    unfold hexDigit
    rcases Nat.lt_or_ge n "0123456789abcdef".toList.length with h | h
    · rw [List.getD_eq_getElem _ _ h]
      exact List.getElem_mem h
    · rw [List.getD_eq_default _ _ h]
      decide
  intro h
  rw [h] at hmem
  exact absurd hmem (by decide)

theorem bracket_not_mem_short (f : Fingerprint) (n : Nat) : '[' ∉ (f.short n).toList := by
  intro h
  rw [short, String.toList_ofList] at h
  have h := List.mem_of_mem_take h
  rw [toHex, String.toList_ofList] at h
  obtain ⟨w, -, hw⟩ := List.mem_flatMap.mp h
  simp only [hexByte, List.mem_append, List.mem_cons, List.not_mem_nil, or_false] at hw
  rcases hw with ((hw | hw) | hw) | hw <;> rcases hw with hw | hw <;> exact hexDigit_ne _ hw.symm

end Fingerprint

/-! ## Names by a pattern -/

namespace Render

open Text

/-- A hash as it stands in a file name. -/
structure IsHash (hash : String) : Prop where
  length : hash.toList.length = hashLength
  bracket : '[' ∉ hash.toList

theorem isHash_short (bytes : Bytes) : IsHash ((Fingerprint.ofBytes bytes).short hashLength) :=
  ⟨Fingerprint.length_short bytes, Fingerprint.bracket_not_mem_short _ _⟩

section
variable {pattern name name' hash hash' : String}

theorem toList_substitute (key value s : String) : (Text.substitute key value s).toList =
    fill value.toList (cut key.toList 0 s.toList) := by
  rw [Text.substitute, String.toList_ofList, replaceAll, replaceFrom_eq]

theorem substitute_eq_self {key s : String} (hne : key.toList ≠ [])
    (h : Text.includes s key = false) (value : String) : Text.substitute key value s = s := by
  rw [← String.toList_inj, toList_substitute, fill_eq_of_not_mem _ value.toList key.toList,
    fill_cut hne, List.drop_zero]
  rw [none_mem_cut hne]
  exact ne_true_of_eq_false h

theorem substitute_inj {key s value value' : String} (hne : key.toList ≠ [])
    (h : Text.includes s key = true)
    (he : Text.substitute key value s = Text.substitute key value' s) : value = value' := by
  rw [← String.toList_inj, toList_substitute, toList_substitute] at he
  exact String.toList_inj.mp (fill_inj ((none_mem_cut hne _).mpr h) he)

/-- A text by its places for the hash. -/
theorem fill_places (s : String) :
    fill "[contenthash]".toList (cut "[contenthash]".toList 0 s.toList) = s.toList :=
  fill_cut (by decide) 0 s.toList

section
variable (hn : '[' ∉ name.toList) (hn' : '[' ∉ name'.toList)
include hn hn'

/-- Names without a bracket add none. -/
theorem count_substitute (key s : String) : (Text.substitute key name s).toList.count '[' =
    (Text.substitute key name' s).toList.count '[' := by
  rw [toList_substitute, toList_substitute, count_fill, count_fill, List.count_eq_zero.mpr hn,
    List.count_eq_zero.mpr hn']

/-- With names of one length, all brackets stay where they are. -/
theorem map_substitute (hlen : name.toList.length = name'.toList.length) (key s : String) :
    (Text.substitute key name s).toList.map (· == '[') =
      (Text.substitute key name' s).toList.map (· == '[') := by
  have hfalse {s : String} (hs : '[' ∉ s.toList) :
      s.toList.map (· == '[') = List.replicate s.toList.length false :=
    List.eq_replicate_iff.mpr ⟨List.length_map _, fun b hb => by
      obtain ⟨c, hc, rfl⟩ := List.mem_map.mp hb
      exact beq_false_of_ne fun h => hs (h ▸ hc)⟩
  rw [toList_substitute, toList_substitute]
  exact map_fill _ (by rw [hfalse hn, hfalse hn', hlen]) _

variable (hp : Text.includes pattern "[name]" = true) (hh : IsHash hash) (hh' : IsHash hash')
  (he : outputName pattern name hash = outputName pattern name' hash')
include hp hh hh' he

theorem length_eq_of_outputName : name.toList.length = name'.toList.length := by
  have hout := congrArg String.toList he
  rw [outputName, outputName, toList_substitute, toList_substitute "[contenthash]"] at hout
  have hlength := length_fill_eq "[contenthash]".toList (by decide) hh.bracket hh'.bracket
    (hh.length.trans hh'.length.symm)
    (by rw [fill_places, fill_places, count_substitute hn hn']) hout
  rw [fill_places, fill_places, toList_substitute, toList_substitute, length_fill,
    length_fill] at hlength
  have hmem := (none_mem_cut (show "[name]".toList ≠ [] by decide) pattern.toList).mpr hp
  exact Nat.eq_of_mul_eq_mul_left (List.count_pos_iff.mpr hmem) (Nat.add_left_cancel hlength)

/-- A name without a bracket is told by the name of the file. -/
theorem outputName_inj : name = name' := by
  have hlen := length_eq_of_outputName hn hn' hp hh hh' he
  have hout := congrArg String.toList he
  rw [outputName, outputName, toList_substitute, toList_substitute "[contenthash]"] at hout
  have hplaces := places_eq "contenthash]".toList hh.bracket hh'.bracket
    (hh.length.trans hh'.length.symm) (by rw [hh.length]; decide) (by
      show (fill "[contenthash]".toList _).map _ = (fill "[contenthash]".toList _).map _
      rw [fill_places, fill_places, map_substitute hn hn' hlen]) hout
  refine substitute_inj (show "[name]".toList ≠ [] by decide) hp (String.toList_inj.mp ?_)
  rw [← fill_places, hplaces, fill_places]

end

/-- Why two chunks have scripts of one name. -/
theorem outputName_cases (hh : IsHash hash) (hh' : IsHash hash')
    (he : outputName pattern name hash = outputName pattern name' hash') :
    name = name' ∨
      Text.includes pattern "[name]" = false ∧
        (Text.includes pattern "[contenthash]" = true → hash = hash') ∨
      ('[' ∈ name.toList ∨ '[' ∈ name'.toList) ∧
        (Text.includes (Text.substitute "[name]" name pattern) "[contenthash]" = true ∨
          Text.includes (Text.substitute "[name]" name' pattern) "[contenthash]" = true) := by
  cases hp : Text.includes pattern "[name]" with
  | false =>
    refine .inr (.inl ⟨rfl, fun hc => ?_⟩)
    rw [outputName, outputName, substitute_eq_self (by decide) hp,
      substitute_eq_self (by decide) hp] at he
    exact substitute_inj (by decide) hc he
  | true =>
    by_cases hbracket : '[' ∈ name.toList ∨ '[' ∈ name'.toList
    · cases hc : Text.includes (Text.substitute "[name]" name pattern) "[contenthash]" with
      | true => exact .inr (.inr ⟨hbracket, .inl rfl⟩)
      | false =>
        cases hc' : Text.includes (Text.substitute "[name]" name' pattern) "[contenthash]" with
        | true => exact .inr (.inr ⟨hbracket, .inr rfl⟩)
        | false =>
          -- Nothing is substituted for the hash.
          rw [outputName, outputName, substitute_eq_self (by decide) hc,
            substitute_eq_self (by decide) hc'] at he
          exact .inl (substitute_inj (by decide) hp he)
    · obtain ⟨hn, hn'⟩ := not_or.mp hbracket
      exact .inl (outputName_inj hn hn' hp hh hh' he)

/-- A chunk can be called like the place for the hash, and another like the hash that is put in. -/
example : outputName "[name].js" "[contenthash]" "0a1b2c3d" =
    outputName "[name].js" "0a1b2c3d" "4e5f6a7b" := by decide +kernel

/-- What follows the last `]` of a pattern. -/
def patternEnd (pattern : String) : List Char :=
  (pattern.toList.reverse.takeWhile (· ≠ ']')).reverse

/-- The end of a pattern is the end of every name by it. -/
theorem patternEnd_suffix (pattern name hash : String) :
    patternEnd pattern <:+ (outputName pattern name hash).toList := by
  have hend : ']' ∉ patternEnd pattern := by
    intro h
    have h := List.mem_takeWhile_imp (List.mem_reverse.mp h)
    simp at h
  have hsuffix : patternEnd pattern <:+ pattern.toList := by
    rw [patternEnd, ← List.reverse_prefix, List.reverse_reverse]
    exact List.takeWhile_prefix _
  rw [outputName, Text.substitute, String.toList_ofList]
  refine suffix_replaceAll (a := ']') (by decide) hend ?_ _
  rw [Text.substitute, String.toList_ofList]
  exact suffix_replaceAll (a := ']') (by decide) hend hsuffix _

end

end Render

/-! ## The files of a chunk -/

/-- What a file of a chunk is. -/
inductive FileRole
  | script
  | sourceMap
  | styles

namespace FileRole

/-- The name of the file. -/
def fileName (x : RenderedChunk) : FileRole → String
  | .script => x.fileName
  | .sourceMap => x.fileName ++ ".map"
  | .styles => x.name ++ ".css"

/-- Whether there can be such a file by the options. -/
def Made (o : Options) : FileRole → Prop
  | .script => True
  | .sourceMap => o.sourceMap = true
  | .styles => o.inlineStyle = false

end FileRole

/-- The script of a chunk is called by the pattern, and there is one file at most of each kind. -/
structure RenderedChunk.Formed (o : Options) (x : RenderedChunk) : Prop where
  hash : Render.IsHash x.hash
  fileName : x.fileName = outputName o.entryFilename x.name x.hash
  files : ∃ content : FileRole → String, ∀ f ∈ x.files, ∃ role : FileRole,
    role.Made o ∧ f = ⟨role.fileName x, content role⟩

theorem Renderer.formed_renderChunk {r : Renderer} {o : Options} {root : Path}
    (hr : r.options = o.renderOptions root) (g : ModuleGraph) (chunks : ChunkGraph) (c : Chunk) :
    (r.renderChunk g chunks c).Formed o where
  hash := Render.isHash_short _
  fileName := by
    have hpattern : r.options.entryFilename = o.entryFilename := by rw [hr]; rfl
    rw [← hpattern]
    rfl
  files := by
    have hmade : r.options.sourceMap = o.sourceMap := by rw [hr]; rfl
    have hinlined : r.options.inlineStyle = o.inlineStyle := by rw [hr]; rfl
    let script := Render.code (Render.segments r g chunks c)
    let name := (r.renderChunk g chunks c).fileName
    refine ⟨fun
      | .script =>
        if r.options.sourceMap then
          script ++ "//# sourceMappingURL=" ++ Render.lastName (name ++ ".map") ++ "\n"
        else script
      | .sourceMap =>
        ((Render.sourceMap r g c (Render.segments r g chunks c)).toJson name).compact
      | .styles => Render.styles r g c, fun f hf => ?_⟩
    rcases List.mem_append.mp hf with hf | hf
    · cases hmap : r.options.sourceMap with
      | false =>
        rw [hmap, if_neg (by decide)] at hf
        exact ⟨.script, trivial, List.mem_singleton.mp hf⟩
      | true =>
        rw [hmap, if_pos rfl] at hf
        rcases List.mem_cons.mp hf with rfl | hf
        · exact ⟨.script, trivial, rfl⟩
        · exact ⟨.sourceMap, hmade.symm.trans hmap, List.mem_singleton.mp hf⟩
    · split at hf
      next => cases hf
      next hcss =>
        refine ⟨.styles, ?_, List.mem_singleton.mp hf⟩
        -- Styles that are inlined are not written.
        cases hinline : r.options.inlineStyle with
        | false => exact hinlined.symm.trans hinline
        | true =>
          rw [Render.styles, hinline, if_pos rfl] at hcss
          exact absurd rfl hcss

end Bundler

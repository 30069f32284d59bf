import Bundler.Proofs.Render.Rows
import Bundler.Proofs.Table
import Bundler.Render.SourceMap

/-!
# Reading mappings back

The mappings of a map are read as consumers of version 3 read them: lines end at semicolons,
segments at commas, and a segment is one, four or five differences in base 64. The first is taken
from the column of the segment before on the same line, the others from the last one of their kind
anywhere. What was written is read back, though nothing separates the numbers of a segment.
-/

namespace Bundler

theorem Json.field?_cons (name k : String) (v : Json) (fields : List (String × Json)) :
    (object ((k, v) :: fields)).field? name =
      if name = k then some v else (object fields).field? name := by
  show Table.find name ((k, v) :: fields) = _
  rw [Table.find]
  exact if_congr Table.compare_eq_iff rfl rfl

namespace SourceMap

/-! ## A reader of mappings -/

def digitValue? (c : Char) : Option Nat := Text.Base64.alphabet.idxOf? c

def ofSigned (n : Nat) : Int := if n % 2 = 1 then -↑(n / 2) else ↑(n / 2)

/-- The numbers of a segment. Of the one under way, the digits so far make `value`, and the next
digit counts `weight` times; a segment that ends within a number is none. -/
def numbers? : Nat → Nat → List Char → Option (List Int)
  | _, weight, [] => if weight = 1 then some [] else none
  | value, weight, c :: cs =>
    (digitValue? c).bind fun d =>
      if d < 32 then (numbers? 0 1 cs).map (ofSigned (value + weight * d) :: ·)
      else numbers? (value + weight * (d - 32)) (32 * weight) cs

/-- A place in a source. -/
structure Origin where
  source : Nat
  line : Nat
  column : Nat
  name : Option Nat := none
deriving DecidableEq

/-- A place of the output, and where it comes from. -/
structure Link where
  line : Nat
  column : Nat
  origin : Option Origin
deriving DecidableEq

/-- What differences are taken from. -/
structure Base where
  column : Int := 0
  source : Int := 0
  line : Int := 0
  sourceColumn : Int := 0
  name : Int := 0

/-- The base for the segments behind one. -/
def Base.shift? (b : Base) : List Int → Option Base
  | [c] => some { b with column := b.column + c }
  | [c, s, l, k] => some ⟨b.column + c, b.source + s, b.line + l, b.sourceColumn + k, b.name⟩
  | [c, s, l, k, n] => some ⟨b.column + c, b.source + s, b.line + l, b.sourceColumn + k, b.name + n⟩
  | _ => none

/-- The link of a segment of `fields` numbers; places are not negative. -/
def Base.link? (b : Base) (fields line : Nat) : Option Link := do
  let column ← b.column.toNat?
  if fields = 1 then return ⟨line, column, none⟩
  let source ← b.source.toNat?
  let sourceLine ← b.line.toNat?
  let sourceColumn ← b.sourceColumn.toNat?
  if fields = 4 then return ⟨line, column, some ⟨source, sourceLine, sourceColumn, none⟩⟩
  let name ← b.name.toNat?
  return ⟨line, column, some ⟨source, sourceLine, sourceColumn, some name⟩⟩

/-- The links of the segments of a line, and the base behind them. -/
def lineLinks? (line : Nat) : Base → List (List Char) → Option (List Link × Base)
  | b, [] => some ([], b)
  | b, [] :: segments => lineLinks? line b segments
  | b, segment :: segments =>
    (numbers? 0 1 segment).bind fun ns =>
      (b.shift? ns).bind fun b =>
        (b.link? ns.length line).bind fun link =>
          (lineLinks? line b segments).map fun r => (link :: r.1, r.2)

/-- The links of lines from a number on. Columns start again on each line. -/
def linksFrom? : Nat → Base → List (List Char) → Option (List Link)
  | _, _, [] => some []
  | line, b, text :: texts =>
    (lineLinks? line { b with column := 0 } (text.splitOn ',')).bind fun r =>
      (linksFrom? (line + 1) r.2 texts).map (r.1 ++ ·)

def links? (mappings : String) : Option (List Link) :=
  linksFrom? 0 {} (mappings.toList.splitOn ';')

example : links? "AACgB;;C,DA2HAC" = some
    [⟨0, 0, some ⟨0, 1, 16, none⟩⟩, ⟨2, 1, none⟩, ⟨2, 0, some ⟨0, 124, 16, some 1⟩⟩] := by
  decide +kernel

/-! ## Numbers -/

theorem digitValue?_digit {n : Nat} (h : n < 64) : digitValue? (Text.Base64.digit n) = some n := by
  have hall : ∀ n : Fin 64, digitValue? (Text.Base64.digit n) = some n.val := by decide +kernel
  exact hall ⟨n, h⟩

theorem ofSigned_signed (i : Int) : ofSigned (signed i) = i := by
  unfold ofSigned signed
  split <;> split <;> omega

/-- The digits of a number end with it, whatever follows: only its last digit is below 32. -/
theorem numbers?_digits (n value weight : Nat) (cs : List Char) :
    numbers? value weight ((digits n).map Text.Base64.digit ++ cs) =
      (numbers? 0 1 cs).map (ofSigned (value + weight * n) :: ·) := by
  induction n using Nat.strongRecOn generalizing value weight with
  | ind n ih =>
    rw [digits]
    split
    next h =>
      rw [List.map_singleton, List.singleton_append, numbers?, digitValue?_digit (by omega),
        Option.bind_some, if_pos h]
    next h =>
      have hvalue : value + weight * (n % 32 + 32 - 32) + 32 * weight * (n / 32) =
          value + weight * n := by
        rw [Nat.add_sub_cancel, Nat.mul_comm 32 weight, Nat.mul_assoc, Nat.add_assoc,
          ← Nat.mul_add, Nat.mod_add_div]
      rw [List.map_cons, List.cons_append, numbers?, digitValue?_digit (by omega),
        Option.bind_some, if_neg (by omega), ih (n / 32) (by omega), hvalue]

theorem numbers?_encode (i : Int) (cs : List Char) :
    numbers? 0 1 (encode i ++ cs) = (numbers? 0 1 cs).map (i :: ·) := by
  unfold encode
  rw [numbers?_digits, Nat.zero_add, Nat.one_mul, ofSigned_signed]

/-! ## Segments and lines -/

/-- What is written for a mapping, with the differences of source and line. -/
def segmentChars (source line : Int) : List Char :=
  encode 0 ++ encode source ++ encode line ++ encode 0

theorem numbers?_segmentChars (source line : Int) :
    numbers? 0 1 (segmentChars source line) = some [0, source, line, 0] := by
  unfold segmentChars
  rw [List.append_assoc, List.append_assoc, numbers?_encode, numbers?_encode, numbers?_encode,
    ← List.append_nil (encode 0), numbers?_encode]
  rfl

theorem mem_digit {c : Char} {n : Nat} (h : c ∈ (digits n).map Text.Base64.digit) :
    c ∈ Text.Base64.alphabet := by
  obtain ⟨d, -, rfl⟩ := List.mem_map.mp h
  unfold Text.Base64.digit
  rw [List.getD_eq_getElem?_getD]
  cases hd : Text.Base64.alphabet[d]? with
  | none => decide
  | some c => exact List.mem_of_getElem? hd

theorem mem_segmentChars {c : Char} {source line : Int} (h : c ∈ segmentChars source line) :
    c ∈ Text.Base64.alphabet := by
  unfold segmentChars encode at h
  simp only [List.mem_append] at h
  rcases h with ((h | h) | h) | h <;> exact mem_digit h

/-- The link that a mapping stands for. -/
def Mapping.link (m : Mapping) : Link := ⟨m.line, 0, some ⟨m.source, m.sourceLine, 0, none⟩⟩

theorem lineLinks?_mapping (m : Mapping) (source line : Int) :
    lineLinks? m.line { source, line }
      ((segmentChars (m.source - source) (m.sourceLine - line)).splitOn ',') =
      some ([m.link], { source := m.source, line := m.sourceLine }) := by
  have hcomma : ',' ∉ segmentChars (m.source - source) (m.sourceLine - line) :=
    fun h => absurd (mem_segmentChars h) (by decide)
  have hnumbers := numbers?_segmentChars (m.source - source) (m.sourceLine - line)
  rw [Text.splitOn_of_not_mem hcomma]
  cases hs : segmentChars (m.source - source) (m.sourceLine - line) with
  | nil =>
    rw [hs] at hnumbers
    cases hnumbers
  | cons c cs =>
    rw [hs] at hnumbers
    have hsource : source + (m.source - source) = m.source := by omega
    have hline : line + (m.sourceLine - line) = m.sourceLine := by omega
    rw [lineLinks?, hnumbers, Option.bind_some, Base.shift?, Option.bind_some]
    · dsimp only
      rw [hsource, hline]
      rfl
    · exact List.cons_ne_nil c cs

theorem linksFrom?_blank (line n : Nat) (source sourceLine : Int) (texts : List (List Char)) :
    linksFrom? line { source, line := sourceLine } (List.replicate n [] ++ texts) =
      linksFrom? (line + n) { source, line := sourceLine } texts := by
  induction n generalizing line with
  | zero => rfl
  | succ n ih =>
    have hblank : lineLinks? line { source, line := sourceLine } (([] : List Char).splitOn ',') =
        some ([], { source, line := sourceLine }) := rfl
    rw [List.replicate_succ, List.cons_append, linksFrom?, hblank, Option.bind_some,
      funext fun l => List.nil_append l, Option.map_id', ih, Nat.add_assoc, Nat.add_comm 1]

theorem linksFrom?_mapping (m : Mapping) (source line : Int) (texts : List (List Char)) :
    linksFrom? m.line { source, line }
      (segmentChars (m.source - source) (m.sourceLine - line) :: texts) =
      (linksFrom? (m.line + 1) { source := m.source, line := m.sourceLine } texts).map
        (m.link :: ·) := by
  rw [linksFrom?, lineLinks?_mapping, Option.bind_some]
  rfl

/-! ## All mappings -/

theorem splitOn_replicate (n : Nat) (cs : List Char) :
    (List.replicate n ';' ++ cs).splitOn ';' = List.replicate n [] ++ cs.splitOn ';' := by
  induction n with
  | zero => rfl
  | succ n ih =>
    have hhead := List.splitOn_append_cons_self_of_not_mem (List.not_mem_nil (a := ';'))
      (List.replicate n ';' ++ cs)
    rw [List.replicate_succ, List.cons_append, ← List.nil_append (';' :: _), hhead, ih]
    rfl

theorem mappingChars_cons (line : Nat) (source sourceLine : Int) (m : Mapping)
    (ms : List Mapping) (h : line ≤ m.line) : mappingChars line source sourceLine (m :: ms) =
      List.replicate (m.line - line) ';' ++ (segmentChars (m.source - source)
        (m.sourceLine - sourceLine) ++ mappingChars m.line m.source m.sourceLine ms) := by
  rw [mappingChars, Nat.max_eq_right h]
  simp only [segmentChars, List.append_assoc]

/-- Behind a line that has its segment, the next one is on a new line. -/
theorem mappingChars_behind {line : Nat} {source sourceLine : Int} {ms : List Mapping}
    (h : ∀ m ∈ ms, line < m.line) (hne : ms ≠ []) :
    mappingChars line source sourceLine ms =
      ';' :: mappingChars (line + 1) source sourceLine ms := by
  obtain ⟨m, ms, rfl⟩ := List.exists_cons_of_ne_nil hne
  have hm := h m List.mem_cons_self
  rw [mappingChars_cons _ _ _ _ _ (by omega), mappingChars_cons _ _ _ _ _ (by omega),
    show m.line - line = m.line - (line + 1) + 1 by omega, List.replicate_succ, List.cons_append]

/-- Reading from a line on, with the source and the line that were written last. -/
theorem linksFrom?_mappingChars {line : Nat} {source sourceLine : Int} {ms : List Mapping}
    (h : ∀ m ∈ ms, line ≤ m.line) (hs : ms.Pairwise (·.line < ·.line)) :
    linksFrom? line { source, line := sourceLine }
      ((mappingChars line source sourceLine ms).splitOn ';') = some (ms.map Mapping.link) := by
  induction ms generalizing line source sourceLine with
  | nil => rfl
  | cons m ms ih =>
    obtain ⟨hm, hs⟩ := List.pairwise_cons.mp hs
    have hline := h m List.mem_cons_self
    have hsemi : ';' ∉ segmentChars (m.source - source) (m.sourceLine - sourceLine) :=
      fun h => absurd (mem_segmentChars h) (by decide)
    rw [mappingChars_cons _ _ _ _ _ hline, splitOn_replicate, linksFrom?_blank,
      Nat.add_sub_cancel' hline, List.map_cons]
    by_cases hne : ms = []
    · subst hne
      rw [mappingChars, List.append_nil, Text.splitOn_of_not_mem hsemi, linksFrom?_mapping]
      rfl
    · rw [mappingChars_behind hm hne, List.splitOn_append_cons_self_of_not_mem hsemi,
        linksFrom?_mapping, ih hm hs]
      rfl

theorem links?_mappingChars {ms : List Mapping} (hs : ms.Pairwise (·.line < ·.line)) :
    links? (String.ofList (mappingChars 0 0 0 ms)) = some (ms.map Mapping.link) := by
  unfold links?
  rw [String.toList_ofList]
  exact linksFrom?_mappingChars (fun m _ => Nat.zero_le m.line) hs

theorem field?_mappings (m : SourceMap) (file : String) : (m.toJson file).field? "mappings" =
    some (.text (String.ofList (mappingChars 0 0 0 m.mappings))) := by
  rw [toJson, Json.field?_cons, if_neg (by decide), Json.field?_cons, if_pos rfl]

theorem field?_sources (m : SourceMap) (file : String) :
    (m.toJson file).field? "sources" = some (.texts (m.sources.map (·.1))) := by
  rw [toJson, Json.field?_cons, if_neg (by decide), Json.field?_cons, if_neg (by decide),
    Json.field?_cons, if_pos rfl]

theorem field?_sourcesContent (m : SourceMap) (file : String) :
    (m.toJson file).field? "sourcesContent" = some (.texts (m.sources.map (·.2))) := by
  rw [toJson, Json.field?_cons, if_neg (by decide), Json.field?_cons, if_neg (by decide),
    Json.field?_cons, if_neg (by decide), Json.field?_cons, if_pos rfl]

/-- The mappings of a map whose output lines increase are read back from its field: a link for each,
in their order, with its line, source and source line, and column 0 on both sides. -/
theorem toJson_read_back (m : SourceMap) (file : String)
    (hs : m.mappings.Pairwise (·.line < ·.line)) :
    ∃ text, (m.toJson file).field? "mappings" = some (.text text) ∧
      links? text = some (m.mappings.map fun p =>
        ⟨p.line, 0, some ⟨p.source, p.sourceLine, 0, none⟩⟩) :=
  ⟨_, m.field?_mappings file, links?_mappingChars hs⟩

/-- Lines are left out, and sources and lines go back. -/
theorem toJson_read_back_of_three :
    let m : SourceMap := ⟨[("a", ""), ("b", "")], [⟨0, 1, 4294967295⟩, ⟨1, 0, 16⟩, ⟨4, 1, 0⟩]⟩
    m.mappings.Pairwise (·.line < ·.line) ∧
    ∃ text, (m.toJson "main.js").field? "mappings" = some (.text text) ∧
      links? text = some [⟨0, 0, some ⟨1, 4294967295, 0, none⟩⟩, ⟨1, 0, some ⟨0, 16, 0, none⟩⟩,
        ⟨4, 0, some ⟨1, 0, 0, none⟩⟩] := by
  have hs : [Mapping.mk 0 1 4294967295, ⟨1, 0, 16⟩, ⟨4, 1, 0⟩].Pairwise (·.line < ·.line) := by
    decide
  exact ⟨hs, toJson_read_back ⟨[("a", ""), ("b", "")], _⟩ "main.js" hs⟩

end SourceMap

end Bundler

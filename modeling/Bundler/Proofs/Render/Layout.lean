import Mathlib.Data.List.Basic
import Bundler.Proofs.Render.Mappings
import Bundler.Proofs.Render.Rows
import Bundler.Render.Chunk

/-!
# The rows of a script

A script is laid out in rows, of which those of a body know their member and their number. The map
of the script has one segment for each of these, and none for another row. Without the minifier it
names the row of the source that stands there; with it the number is that of the row in the minified
body, which is too small by the rows that were dropped before it.
-/

namespace Bundler

namespace Render

/-- A row of a script, and of which member's body it is which row. -/
structure Row where
  text : List Char
  body : Option (Nat × Nat) := none

def plainRows (s : String) : List Row := (Text.rows s.toList).map fun l => ⟨l, none⟩

def bodyRows (i : Nat) (body : String) : List Row :=
  (Text.rows body.toList).zipIdx.map fun l => ⟨l.1, some (i, l.2)⟩

/-- The mappings of rows that begin on a line. -/
def marks (line : Nat) (rows : List Row) : List SourceMap.Mapping :=
  (rows.zipIdx line).filterMap fun r => r.1.body.map fun b => ⟨r.2, b.1, b.2⟩

theorem marks_append (line : Nat) (a b : List Row) :
    marks line (a ++ b) = marks line a ++ marks (line + a.length) b := by
  unfold marks
  rw [List.zipIdx_append, List.filterMap_append]

theorem marks_plainRows (line : Nat) (s : String) : marks line (plainRows s) = [] := by
  unfold marks plainRows
  rw [List.zipIdx_map, List.filterMap_map]
  exact List.filterMap_eq_nil_iff.mpr fun _ _ => rfl

theorem marks_bodyRows (line i : Nat) (body : String) : marks line (bodyRows i body) =
    (List.range (Text.rows body.toList).length).map fun k => ⟨line + k, i, k⟩ := by
  unfold marks bodyRows
  rw [List.zipIdx_map, List.filterMap_map]
  show List.filterMap
    (some ∘ fun x : (List Char × Nat) × Nat => (⟨x.2, i, x.1.2⟩ : SourceMap.Mapping)) _ = _
  rw [List.filterMap_eq_map]
  refine List.ext_getElem? fun k => ?_
  rw [List.getElem?_map, List.getElem?_map, List.getElem?_zipIdx, List.getElem?_zipIdx]
  by_cases hk : k < (Text.rows body.toList).length
  · rw [List.getElem?_eq_getElem hk, List.getElem?_range hk]
    simp
  · rw [List.getElem?_eq_none (by omega), List.getElem?_eq_none (by simpa using hk)]
    rfl

/-- Lines of mappings increase. -/
theorem pairwise_marks (line : Nat) (rows : List Row) :
    (marks line rows).Pairwise (·.line < ·.line) := by
  have hlines : (rows.zipIdx line).Pairwise (·.2 < ·.2) := by
    refine List.pairwise_map.mp ?_
    rw [List.zipIdx_map_snd]
    exact List.pairwise_lt_range'
  refine List.pairwise_filterMap.mpr (hlines.imp fun h b hb b' hb' => ?_)
  obtain ⟨_, -, rfl⟩ := Option.map_eq_some_iff.mp hb
  obtain ⟨_, -, rfl⟩ := Option.map_eq_some_iff.mp hb'
  exact h

/-! ## Segments that make rows -/

theorem toList_code_append (a b : List Segment) :
    (code (a ++ b)).toList = (code a).toList ++ (code b).toList := by
  unfold code
  rw [List.map_append, String.toList_join, String.toList_join, String.toList_join,
    List.flatMap_append]

theorem mappings_append (line : Nat) (a b : List Segment) : mappings line (a ++ b) =
    mappings line a ++ mappings (line + Text.countBreaks (code a).toList) b := by
  induction a generalizing line with
  | nil => rfl
  | cons s a ih =>
    have hbreaks : Text.countBreaks (code (s :: a)).toList =
        Text.countBreaks s.text.toList + Text.countBreaks (code a).toList := by
      rw [← List.singleton_append, toList_code_append]
      exact List.count_append.trans (by simp [code, Text.countBreaks])
    rw [List.cons_append, mappings, mappings, ih, ← List.append_assoc, hbreaks, Nat.add_assoc]

theorem mappings_eq_nil {a : List Segment} (h : ∀ s ∈ a, s.source = none) (line : Nat) :
    mappings line a = [] := by
  induction a generalizing line with
  | nil => rfl
  | cons s a ih =>
    rw [mappings, h s List.mem_cons_self, ih fun x hx => h x (List.mem_cons_of_mem _ hx)]
    rfl

theorem code_singleton (s : Segment) : code [s] = s.text := by
  rw [← String.toList_inj]
  simp [code]

/-- Whole rows without a source. -/
def Segment.Plain (s : Segment) : Prop := s.source = none ∧ Text.Whole s.text.toList

theorem whole_code {a : List Segment} (h : ∀ s ∈ a, s.Plain) : Text.Whole (code a).toList := by
  induction a with
  | nil => exact Text.whole_nil
  | cons s a ih =>
    rw [← List.singleton_append, toList_code_append, code_singleton]
    exact (h s List.mem_cons_self).2.append (ih fun x hx => h x (List.mem_cons_of_mem _ hx))

/-- A text that ends with a line feed. -/
theorem Segment.plain_of_suffix {ending : String} (h : ['\n'] <:+ ending.toList) (s : String) :
    Plain ⟨s ++ ending, none⟩ := by
  refine ⟨rfl, Text.whole_of_suffix ?_⟩
  rw [String.toList_append]
  exact h.trans (List.suffix_append ..)

/-- Segments that are these rows, with these mappings. -/
structure Lays (segments : List Segment) (rows : List Row) : Prop where
  text : (code segments).toList = Text.unrows (rows.map (·.text))
  clean : ∀ r ∈ rows, '\n' ∉ r.text
  marked : ∀ line, mappings line segments = marks line rows

namespace Lays

variable {a b : List Segment} {rows rows' : List Row}

theorem rows_text (h : Lays a rows) : Text.rows (code a).toList = rows.map (·.text) := by
  rw [h.text]
  refine Text.rows_unrows fun l hl => ?_
  obtain ⟨r, hr, rfl⟩ := List.mem_map.mp hl
  exact h.clean r hr

theorem countBreaks (h : Lays a rows) : Text.countBreaks (code a).toList = rows.length := by
  have hwhole : Text.Whole (code a).toList := by
    unfold Text.Whole
    rw [h.rows_text, ← h.text]
  rw [Text.countBreaks, hwhole.count, h.rows_text, List.length_map]

theorem nil : Lays [] [] := ⟨rfl, fun _ h => (List.not_mem_nil h).elim, fun _ => rfl⟩

theorem append (ha : Lays a rows) (hb : Lays b rows') : Lays (a ++ b) (rows ++ rows') where
  text := by
    rw [toList_code_append, ha.text, hb.text, List.map_append, Text.unrows_append]
  clean r hr := (List.mem_append.mp hr).elim (ha.clean r) (hb.clean r)
  marked line := by
    rw [mappings_append, ha.marked, hb.marked, ha.countBreaks, marks_append]

theorem flatMap {α : Type} {l : List α} {f : α → List Segment} {rows : α → List Row}
    (h : ∀ x ∈ l, Lays (f x) (rows x)) : Lays (l.flatMap f) (l.flatMap rows) := by
  induction l with
  | nil => exact nil
  | cons x l ih =>
    exact (h x List.mem_cons_self).append (ih fun y hy => h y (List.mem_cons_of_mem _ hy))

theorem plain (h : ∀ s ∈ a, s.Plain) : Lays a (plainRows (code a)) where
  text := by
    rw [plainRows, List.map_map]
    exact (whole_code h).symm.trans (congrArg Text.unrows (List.map_id _).symm)
  clean r hr := by
    obtain ⟨l, hl, rfl⟩ := List.mem_map.mp hr
    exact Text.not_mem_of_mem_rows hl
  marked line := by
    rw [marks_plainRows, mappings_eq_nil fun s hs => (h s hs).1]

/-- A body is made of its rows, as the last one gets its line feed. -/
theorem body (i : Nat) (body : String) :
    Lays ([⟨body, some i⟩] ++
      if !body.isEmpty && !Text.endsWith body "\n" then [⟨"\n", none⟩] else [])
      (bodyRows i body) := by
  have hrows : (bodyRows i body).map (·.text) = Text.rows body.toList := by
    unfold bodyRows
    rw [List.map_map]
    exact List.zipIdx_map_fst 0 _
  refine ⟨?_, fun r hr => ?_, fun line => ?_⟩
  · rw [hrows, toList_code_append, code_singleton]
    split
    next h =>
      rw [Bool.and_eq_true, Bool.not_eq_true', Bool.not_eq_true', String.isEmpty_eq_false_iff] at h
      have hne : body.toList ≠ [] := by simpa using h.1
      have hend : ¬ ['\n'] <:+ body.toList := by
        rw [← List.isSuffixOf_iff_suffix]
        exact ne_true_of_eq_false h.2
      rw [← Text.rows_concat hne hend]
      exact (Text.whole_concat _).symm
    next h =>
      have hwhole : Text.Whole body.toList := by
        rw [Bool.and_eq_true, not_and_or, Bool.not_eq_true', Bool.not_eq_true',
          Bool.not_eq_false, Bool.not_eq_false, String.isEmpty_iff] at h
        rcases h with rfl | h
        · exact Text.whole_nil
        · exact Text.whole_of_suffix (List.isSuffixOf_iff_suffix.mp h)
      exact (List.append_nil _).trans hwhole.symm
  · obtain ⟨l, hl, rfl⟩ := List.mem_map.mp hr
    exact Text.not_mem_of_mem_rows (List.fst_mem_of_mem_zipIdx hl)
  · have hplain : ∀ l : List Segment, (∀ s ∈ l, s.source = none) →
        mappings line ([⟨body, some i⟩] ++ l) = marks line (bodyRows i body) := by
      intro l hl
      rw [mappings_append, mappings_eq_nil hl, marks_bodyRows, ← Text.length_lines]
      simp [mappings]
    split
    next => exact hplain _ fun s hs => List.mem_singleton.mp hs ▸ rfl
    next => exact hplain [] fun s hs => (List.not_mem_nil hs).elim

end Lays

/-! ## The rows of a chunk -/

variable (r : Renderer)

/-- What stands before a body. -/
def opening (id : ModuleId) (m : Module) : List Segment :=
  ⟨"__kestrel__.define(" ++ Json.quote (key r id) ++ ", " ++ (dependencyTable r m).compact ++
    ", function (module, exports, require) \x7b\n", none⟩ :: refreshLines r (key r id)

def memberRows (id : ModuleId) (m : Module) (i : Nat) : List Row :=
  plainRows (code (opening r id m)) ++ bodyRows i (minified r m.code) ++ plainRows "\x7d);\n"

def chunkRows (g : ModuleGraph) (chunks : ChunkGraph) (c : Chunk) : List Row :=
  plainRows (minified r runtime) ++ plainRows (code (asyncTable r chunks c)) ++
  ((members g c).zipIdx.flatMap fun m => memberRows r m.1.1 m.1.2 m.2) ++
  plainRows (code (startLine r c))

theorem plain_refreshLines (k : String) : ∀ s ∈ refreshLines r k, s.Plain := by
  intro s hs
  unfold refreshLines at hs
  split at hs
  · rw [List.mem_singleton.mp hs]
    exact Segment.plain_of_suffix (by decide) _
  · exact (List.not_mem_nil hs).elim

theorem plain_opening (id : ModuleId) (m : Module) : ∀ s ∈ opening r id m, s.Plain := by
  intro s hs
  rcases List.mem_cons.mp hs with rfl | hs
  · exact Segment.plain_of_suffix (by decide) _
  · exact plain_refreshLines r _ s hs

theorem plain_asyncTable (chunks : ChunkGraph) (c : Chunk) :
    ∀ s ∈ asyncTable r chunks c, s.Plain := by
  intro s hs
  unfold asyncTable at hs
  split at hs
  · exact (List.not_mem_nil hs).elim
  · rw [List.mem_singleton.mp hs]
    exact Segment.plain_of_suffix (by decide) _

theorem plain_startLine (c : Chunk) : ∀ s ∈ startLine r c, s.Plain := by
  intro s hs
  unfold startLine at hs
  split at hs
  · rw [List.mem_singleton.mp hs]
    exact Segment.plain_of_suffix (by decide) _
  · exact (List.not_mem_nil hs).elim

theorem whole_runtime : Text.Whole runtime.toList := by
  have h := whole_code (a := runtimeLines.map fun l => ⟨l ++ "\n", none⟩) fun s hs => by
    obtain ⟨l, -, rfl⟩ := List.mem_map.mp hs
    exact Segment.plain_of_suffix (by decide) l
  unfold code at h
  rwa [List.map_map] at h

theorem whole_minified_runtime (hr : r.minifier = minifyBlanks) :
    Text.Whole (minified r runtime).toList := by
  unfold minified
  split
  · rw [hr]
    exact whole_minifyBlanks _
  · exact whole_runtime

theorem lays_definition (id : ModuleId) (m : Module) (i : Nat) :
    Lays (definition r m id i) (memberRows r id m i) := by
  have hclosing : Lays [⟨"\x7d);\n", none⟩] (plainRows "\x7d);\n") := by
    have h := Lays.plain (a := [⟨"\x7d);\n", none⟩]) fun s hs => by
      rw [List.mem_singleton.mp hs]
      exact @Segment.plain_of_suffix "\n" (by decide) "\x7d);"
    rwa [code_singleton] at h
  have hdef : definition r m id i = opening r id m ++
      ([⟨minified r m.code, some i⟩] ++
        if !(minified r m.code).isEmpty && !Text.endsWith (minified r m.code) "\n"
        then [⟨"\n", none⟩] else []) ++ [⟨"\x7d);\n", none⟩] := by
    unfold definition opening
    simp only [List.append_assoc, List.cons_append, List.nil_append]
  rw [hdef]
  exact ((Lays.plain (plain_opening r id m)).append (.body i _)).append hclosing

theorem lays_segments (hr : r.minifier = minifyBlanks) (g : ModuleGraph)
    (chunks : ChunkGraph) (c : Chunk) : Lays (segments r g chunks c) (chunkRows r g chunks c) := by
  have hruntime : Lays [⟨minified r runtime, none⟩] (plainRows (minified r runtime)) := by
    have h := Lays.plain (a := [⟨minified r runtime, none⟩]) fun s hs => by
      rw [List.mem_singleton.mp hs]
      exact ⟨rfl, whole_minified_runtime r hr⟩
    rwa [code_singleton] at h
  exact ((hruntime.append (.plain (plain_asyncTable r chunks c))).append
    (.flatMap fun m _ => lays_definition r m.1.1 m.1.2 m.2)).append (.plain (plain_startLine r c))

/-- The last row of a script with a map. -/
def mapComment (fileName : String) : Segment :=
  ⟨"//# sourceMappingURL=" ++ lastName (fileName ++ ".map") ++ "\n", none⟩

def scriptRows (g : ModuleGraph) (chunks : ChunkGraph) (c : Chunk) : List Row :=
  chunkRows r g chunks c ++ plainRows (mapComment (r.renderChunk g chunks c).fileName).text

theorem files_renderChunk (h : r.options.sourceMap = true) (g : ModuleGraph) (chunks : ChunkGraph)
    (c : Chunk) : ∃ styles, (r.renderChunk g chunks c).files =
      ⟨(r.renderChunk g chunks c).fileName,
        code (segments r g chunks c ++ [mapComment (r.renderChunk g chunks c).fileName])⟩ ::
      ⟨(r.renderChunk g chunks c).fileName ++ ".map",
        ((sourceMap r g c (segments r g chunks c)).toJson
          (r.renderChunk g chunks c).fileName).compact⟩ :: styles := by
  have hcode : ∀ (a : List Segment) (s : String),
      code a ++ "//# sourceMappingURL=" ++ s ++ "\n" =
        code (a ++ [⟨"//# sourceMappingURL=" ++ s ++ "\n", none⟩]) := by
    intro a s
    rw [← String.toList_inj, toList_code_append, code_singleton]
    simp
  unfold Renderer.renderChunk mapComment
  dsimp only
  rw [if_pos h, hcode]
  exact ⟨_, rfl⟩

theorem lays_scriptRows (hr : r.minifier = minifyBlanks) (g : ModuleGraph) (chunks : ChunkGraph)
    (c : Chunk) : Lays (segments r g chunks c ++ [mapComment (r.renderChunk g chunks c).fileName])
      (scriptRows r g chunks c) := by
  have hcomment : ∀ name, Lays [mapComment name] (plainRows (mapComment name).text) := by
    intro name
    have h := Lays.plain (a := [mapComment name]) fun s hs => by
      rw [List.mem_singleton.mp hs]
      exact Segment.plain_of_suffix (by decide) _
    rwa [code_singleton] at h
  exact (lays_segments r hr g chunks c).append (hcomment _)

theorem mappings_segments (hr : r.minifier = minifyBlanks) (g : ModuleGraph) (chunks : ChunkGraph)
    (c : Chunk) : mappings 0 (segments r g chunks c) = marks 0 (scriptRows r g chunks c) := by
  have hcomment : ∀ line name, mappings line [mapComment name] = [] := fun _ _ => rfl
  rw [← (lays_scriptRows r hr g chunks c).marked, mappings_append, hcomment, List.append_nil]

theorem links_marks (line : Nat) (rows : List Row) :
    (marks line rows).map SourceMap.Mapping.link = (rows.zipIdx line).filterMap fun x =>
      x.1.body.map fun b => ⟨x.2, 0, some ⟨b.1, b.2, 0, none⟩⟩ := by
  unfold marks
  rw [List.map_filterMap]
  exact List.filterMap_congr fun x _ => Option.map_map ..

/-- A row that is not of a body is no more than its text. -/
theorem body_of_mem_plainRows {s : String} {row : Row} (h : row ∈ plainRows s) :
    row.body = none := by
  obtain ⟨l, -, rfl⟩ := List.mem_map.mp h
  rfl

theorem mem_bodyRows {i : Nat} {body : String} {row : Row} (h : row ∈ bodyRows i body) :
    ∃ k, row.body = some (i, k) ∧ (Text.rows body.toList)[k]? = some row.text := by
  obtain ⟨⟨l, k⟩, hl, rfl⟩ := List.mem_map.mp h
  exact ⟨k, rfl, List.mem_zipIdx_iff_getElem?.mp hl⟩

/-- A row of a body is that of a member, and its text stands there in the body. -/
theorem body_of_mem_scriptRows {g : ModuleGraph} {chunks : ChunkGraph} {c : Chunk} {row : Row}
    (h : row ∈ scriptRows r g chunks c) {i k : Nat} (hb : row.body = some (i, k)) :
    ∃ id m, (members g c)[i]? = some (id, m) ∧
      (Text.rows (minified r m.code).toList)[k]? = some row.text := by
  have hplain : ∀ {s}, row ∉ plainRows s := fun hr => by
    rw [body_of_mem_plainRows hr] at hb
    cases hb
  unfold scriptRows chunkRows at h
  simp only [List.mem_append, hplain, or_false, false_or, List.mem_flatMap] at h
  obtain ⟨⟨⟨id, m⟩, j⟩, hm, hrow⟩ := h
  unfold memberRows at hrow
  simp only [List.mem_append, hplain, or_false, false_or] at hrow
  obtain ⟨k', hk', ht⟩ := mem_bodyRows hrow
  rw [hb] at hk'
  cases hk'
  exact ⟨id, m, List.mem_zipIdx_iff_getElem?.mp hm, ht⟩

end Render

open Render in
/-- The map of a script has a segment for each row of a body, in their order, and for no other row.
It names the member by its key, and a row of the member's text by its number. Without the minifier
the text of this row stands in the script. With it, what stands there is the trimmed text of a row
whose number is greater by the rows that were dropped before it, and so the named one only if there
were none. -/
theorem Renderer.map_names_rows (o : RenderOptions) (g : ModuleGraph) (chunks : ChunkGraph)
    (c : Chunk) :
    let r : Renderer := { options := { o with sourceMap := true } }
    let rows := scriptRows r g chunks c
    ∃ (script map : OutputFile) (styles : List OutputFile) (json : Json) (mappings : String),
      (r.renderChunk g chunks c).files = script :: map :: styles ∧
      Text.rows script.content.toList = rows.map (·.text) ∧
      map.fileName = script.fileName ++ ".map" ∧ map.content = json.compact ∧
      json.field? "sources" = some (.texts ((members g c).map fun m => key r m.1)) ∧
      json.field? "sourcesContent" = some (.texts ((members g c).map (·.2.code))) ∧
      json.field? "mappings" = some (.text mappings) ∧
      SourceMap.links? mappings = some (rows.zipIdx.filterMap fun x =>
        x.1.body.map fun b => ⟨x.2, 0, some ⟨b.1, b.2, 0, none⟩⟩) ∧
      ∀ row ∈ rows, ∀ i k, row.body = some (i, k) →
        ∃ id m n source, (members g c)[i]? = some (id, m) ∧
          (Text.rows m.code.toList)[n]? = some source ∧
          if o.minify = true then
            row.text = Text.trim source ∧
              n = k + ((Text.rows m.code.toList).take n).countP isIdleRow
          else row.text = source ∧ n = k := by
  intro r rows
  have hlays := lays_scriptRows r rfl g chunks c
  obtain ⟨styles, hfiles⟩ := files_renderChunk r rfl g chunks c
  have hlinks := SourceMap.links?_mappingChars (pairwise_marks 0 rows)
  rw [links_marks, ← mappings_segments r rfl g chunks c] at hlinks
  refine ⟨_, _, styles, _, _, hfiles, hlays.rows_text, rfl, rfl, ?_, ?_,
    SourceMap.field?_mappings _ _, hlinks, fun row hrow i k hb => ?_⟩
  · rw [SourceMap.field?_sources, sourceMap, List.map_map]
    rfl
  · rw [SourceMap.field?_sourcesContent, sourceMap, List.map_map]
    rfl
  · obtain ⟨id, m, hm, hrow⟩ := body_of_mem_scriptRows r hrow hb
    unfold minified at hrow
    split
    next h =>
      rw [if_pos h] at hrow
      obtain ⟨n, source, hn, ht, he⟩ := getElem?_rows_minifyBlanks hrow
      exact ⟨id, m, n, source, hm, hn, ht, he⟩
    next h =>
      rw [if_neg h] at hrow
      exact ⟨id, m, k, row.text, hm, hrow, rfl, rfl⟩

end Bundler

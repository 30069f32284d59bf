import Mathlib
import Bundler.Proofs.Source.Inert
import Bundler.Transform

/-!
# What built-in transforms mention

Texts, data and JSON values are written into code as literals. Whatever they hold, the scan of the
code passes them: a quote, a backslash and the end of a line are escaped wherever a string would
otherwise end, and what is written outside strings are marks, numbers and words that are no
keywords. A component mentions the one module that it needs.
-/

namespace Bundler

open Source Json

/-! ## Strings -/

theorem Source.Spells.append {q : Char} {r s v w : List Char} (h : Spells q r v)
    (h' : Spells q s w) : Spells q (r ++ s) (v ++ w) := by
  induction h with
  | nil => exact h'
  | plain h₁ h₂ h₃ _ ih => exact .plain h₁ h₂ h₃ ih
  | escaped _ ih => exact .escaped ih

/-- Characters that stand in double quotes as they are. -/
def standsPlain (a : Char) : Bool := a ≠ '\\' && a ≠ '\n' && a ≠ '"'

theorem spells_self {t : List Char} (h : ∀ a ∈ t, standsPlain a) : Spells '"' t t := by
  induction t with
  | nil => exact .nil
  | cons a t ih =>
    have ha := h a (by simp)
    simp only [standsPlain, ne_eq, decide_not, Bool.and_eq_true, Bool.not_eq_true',
      decide_eq_false_iff_not] at ha
    exact .plain ha.1.1 ha.1.2 ha.2 (ih fun b hb => h b (by simp [hb]))

namespace Json

theorem hexDigit_mem (n : Nat) : hexDigit n ∈ "0123456789abcdef".toList := by
  unfold hexDigit
  rw [List.getD_eq_getElem?_getD]
  cases h : "0123456789abcdef".toList[n]? with
  | none => decide
  | some c => exact List.mem_of_getElem? h

theorem standsPlain_hexDigit (n : Nat) : standsPlain (hexDigit n) := by
  have hall : "0123456789abcdef".toList.all standsPlain := by decide
  exact List.all_eq_true.mp hall _ (hexDigit_mem n)

/-- An escaped character is read as one character, or as what is left of its number. -/
theorem spells_escapeChar (c : Char) : ∃ value, Spells '"' (escapeChar c) value := by
  have hdigits : ∀ a ∈ ['0', '0', hexDigit (c.toNat / 16), hexDigit (c.toNat % 16)],
      standsPlain a := by
    simp [standsPlain_hexDigit, show standsPlain '0' by decide]
  unfold escapeChar
  split_ifs with hquote hslash hline
  iterate 7 exact ⟨_, .escaped .nil⟩
  · exact ⟨_, .escaped (spells_self hdigits)⟩
  · exact ⟨_, .plain hslash hline hquote .nil⟩

theorem spells_escaped (s : List Char) : ∃ value, Spells '"' (s.flatMap escapeChar) value := by
  induction s with
  | nil => exact ⟨[], .nil⟩
  | cons c s ih =>
    obtain ⟨v, hv⟩ := spells_escapeChar c
    obtain ⟨w, hw⟩ := ih
    exact ⟨v ++ w, hv.append hw⟩

theorem toList_quote (s : String) : (quote s).toList = quoteChars s := String.toList_ofList

theorem inert_quoteChars (s : String) : Inert (quoteChars s) := by
  obtain ⟨value, hvalue⟩ := spells_escaped s.toList
  exact .string (by decide) hvalue

theorem newline_not_mem_escapeChar (c : Char) : '\n' ∉ escapeChar c := by
  have hhex (n : Nat) : '\n' ≠ hexDigit n := fun h => by
    have hplain := standsPlain_hexDigit n
    rw [← h] at hplain
    exact absurd hplain (by decide)
  unfold escapeChar
  split_ifs with _ _ hline
  case neg => simpa using Ne.symm hline
  all_goals simp [hhex]

theorem newline_not_mem_quoteChars (s : String) : '\n' ∉ quoteChars s := by
  simp [quoteChars, newline_not_mem_escapeChar]

/-! ## Numbers -/

/-- What numbers are written with. -/
def isNumeric (a : Char) : Bool := a.isDigit || ['+', '-', '.', 'e'].contains a

theorem isNumeric_digitChars (n : Nat) : (digitChars n).all isNumeric := by
  refine List.all_eq_true.mpr fun a ha => ?_
  have hdigit : a.isDigit := Nat.isDigit_of_mem_toDigits (by decide) (by decide) ha
  simp [isNumeric, hdigit]

theorem isNumeric_scaledChars (s : Decimal.Scaled) : (scaledChars s).all isNumeric := by
  have hzeros (n : Nat) : (List.replicate n '0').all isNumeric := by
    simp [show isNumeric '0' by decide]
  have hdigits := isNumeric_digitChars s.digits
  have hpart {t : List Char} (h : t ⊆ digitChars s.digits) : t.all isNumeric :=
    List.all_eq_true.mpr fun a ha => List.all_eq_true.mp hdigits a (h ha)
  have htake (n : Nat) := hpart (List.take_subset n (digitChars s.digits))
  have hdrop (n : Nat) := hpart (List.drop_subset n (digitChars s.digits))
  have hsign (e : Int) : (exponentChars e).all isNumeric := by
    unfold exponentChars
    split <;> simp [isNumeric_digitChars, show isNumeric '-' by decide,
      show isNumeric '+' by decide]
  have hpoint : isNumeric '.' := by decide
  have hzero : isNumeric '0' := by decide
  have hexp : isNumeric 'e' := by decide
  unfold scaledChars
  dsimp only
  split_ifs
  · simp [hdigits, hzeros, hpoint, hzero]
  · simp [htake, hdrop, hpoint]
  · simp [hdigits, hzeros, hpoint, hzero]
  · have hrest := hdrop 1
    cases hdigits : (digitChars s.digits).drop 1 with
    | nil => simp [htake, hsign, hexp]
    | cons d ds =>
      rw [hdigits] at hrest
      simpa [htake, hsign, hexp, hpoint] using hrest

theorem Number.isNumeric_chars (n : Number) : n.chars.all isNumeric := by
  have hminus : isNumeric '-' := by decide
  cases n with
  | natural n => exact isNumeric_digitChars n
  | negative n => simp [Number.chars, hminus, isNumeric_digitChars]
  | binary bits =>
    simp only [Number.chars]
    split <;> simp [hminus, isNumeric_scaledChars]

theorem isWordChar_or_isMark_of_isNumeric {a : Char} (h : isNumeric a) :
    (isWordChar a ∨ isMark a) ∧ a ≠ 'r' := by
  simp only [isNumeric, Bool.or_eq_true] at h
  obtain hdigit | hmark := h
  · have hle : a.toNat ≤ 57 := UInt32.le_iff_toNat_le.mp
      (of_decide_eq_true ((Bool.and_eq_true _ _).mp hdigit).2)
    constructor
    · have hlow : a.toNat < 128 := by omega
      simp [isWordChar, Text.isLetterOrNumeral, hlow, Char.isAlphanum, hdigit]
    · rintro rfl
      exact absurd hdigit (by decide)
  · have hmark : a = '+' ∨ a = '-' ∨ a = '.' ∨ a = 'e' := by simpa using hmark
    rcases hmark with rfl | rfl | rfl | rfl <;> decide

theorem Number.inert_chars (n : Number) : Inert n.chars := by
  have hall (a : Char) (ha : a ∈ n.chars) :=
    isWordChar_or_isMark_of_isNumeric (List.all_eq_true.mp n.isNumeric_chars a ha)
  exact (bare_of_not_mem (fun a ha => (hall a ha).1) fun hr => (hall _ hr).2 rfl).inert

/-! ## Values -/

theorem toList_compact (j : Json) : j.compact.toList = compactChars j := String.toList_ofList

mutual

theorem inert_compactChars : ∀ j : Json, Inert (compactChars j)
  | .null => Bare.inert (by decide)
  | .bool true => Bare.inert (by decide)
  | .bool false => Bare.inert (by decide)
  | .number n => n.inert_chars
  | .text s => inert_quoteChars s
  | .list items => by
    have hclose : Inert [']'] := .mark (by decide) .nil
    exact .mark (by decide) ((inert_compactItems items).append_cons hclose (by decide))
  | .object fields => by
    have hclose : Inert ['}'] := .mark (by decide) .nil
    exact .mark (by decide) ((inert_compactFields fields).append_cons hclose (by decide))

theorem inert_compactItems : ∀ items : List Json, Inert (compactItems items)
  | [] => .nil
  | [x] => inert_compactChars x
  | x :: y :: ys => by
    have hrest : Inert (',' :: compactItems (y :: ys)) :=
      .mark (by decide) (inert_compactItems (y :: ys))
    exact (inert_compactChars x).append_cons hrest (by decide)

theorem inert_compactFields : ∀ fields : List (String × Json), Inert (compactFields fields)
  | [] => .nil
  | [(k, v)] => by
    have hvalue : Inert (':' :: compactChars v) := .mark (by decide) (inert_compactChars v)
    exact (inert_quoteChars k).append_cons hvalue (by decide)
  | (k, v) :: f :: fs => by
    have hvalue : Inert (':' :: compactChars v) := .mark (by decide) (inert_compactChars v)
    have hrest : Inert (',' :: compactFields (f :: fs)) :=
      .mark (by decide) (inert_compactFields (f :: fs))
    exact ((inert_quoteChars k).append_cons hvalue (by decide)).append_cons hrest (by decide)

end

end Json

/-! ## Data -/

theorem Text.Base64.toList_encode (bytes : Bytes) :
    (encode bytes).toList = encodeChars bytes := String.toList_ofList

theorem Text.Base64.standsPlain_encodeChars (bytes : Bytes) :
    ∀ a ∈ encodeChars bytes, standsPlain a := by
  have hdigit (n : Nat) : standsPlain (digit n) := by
    have hall : ('/' :: alphabet).all standsPlain := by decide
    apply List.all_eq_true.mp hall
    unfold digit
    rw [List.getD_eq_getElem?_getD]
    cases h : alphabet[n]? with
    | none => exact .head _
    | some c => exact .tail _ (List.mem_of_getElem? h)
  have hfill : standsPlain '=' := by decide
  fun_induction encodeChars bytes with
  | case1 a b c rest n ih => simpa [hdigit] using ih
  | case2 a b n => simp [hdigit, hfill]
  | case3 a n => simp [hdigit, hfill]
  | case4 => simp

namespace Transform

theorem standsPlain_mediaType (extension : Option String) :
    ∀ a ∈ (mediaType extension).toList, standsPlain a := by
  rw [← List.all_eq_true]
  unfold mediaType
  split <;> decide

/-! ## Codes -/

theorem inert_export {t : List Char} (h : Inert t) :
    Inert ("module.exports =".toList ++ ' ' :: (t ++ [';'])) := by
  have hend : Inert (' ' :: (t ++ [';'])) :=
    .mark (by decide) (h.append_cons (.mark (by decide) .nil) (by decide))
  exact (Bare.inert (by decide)).append_cons hend (by decide)

theorem toList_exported (s : String) :
    ("module.exports = " ++ s ++ ";").toList =
      "module.exports =".toList ++ ' ' :: (s.toList ++ [';']) := by
  have hopen : "module.exports = ".toList = "module.exports =".toList ++ [' '] := by
    decide +kernel
  have hclose : ";".toList = [';'] := by decide +kernel
  rw [String.toList_append, String.toList_append, hopen, hclose]
  simp only [List.append_assoc, List.cons_append, List.nil_append]

/-- Code in which nothing is found mentions nothing. -/
theorem dependencies_of_inert {code : String} (h : Inert code.toList) (id : ModuleId)
    (loader : Loader) : ({ code } : Transformed).dependencies id loader = .ok [] := by
  have hsteps := h [] [] rfl
  rw [List.append_nil] at hsteps
  have hscan : scanScript code = .ok [] := hsteps.scanScript_eq rfl
  simp only [Transformed.dependencies, hscan]

theorem toList_ofData (id : ModuleId) (source : Bytes) :
    (ofData id source).code.toList =
      "module.exports =".toList ++ ' ' :: ('"' :: (("data:".toList ++
        ((mediaType id.extension).toList ++ (";base64,".toList ++
          Text.Base64.encodeChars source))) ++ ['"']) ++ [';']) := by
  have hopen : "module.exports = \"data:".toList =
      "module.exports =".toList ++ ' ' :: '"' :: "data:".toList := by decide +kernel
  have hclose : "\";".toList = ['"', ';'] := by decide +kernel
  change (_ ++ _ ++ _ ++ _ ++ _ : String).toList = _
  simp only [String.toList_append, Text.Base64.toList_encode, hopen, hclose, List.append_assoc,
    List.cons_append, List.nil_append]

theorem inert_ofData (id : ModuleId) (source : Bytes) : Inert (ofData id source).code.toList := by
  have hplain : ∀ a ∈ "data:".toList ++ ((mediaType id.extension).toList ++ (";base64,".toList ++
      Text.Base64.encodeChars source)), standsPlain a := by
    intro a ha
    simp only [List.mem_append] at ha
    obtain ha | ha | ha | ha := ha
    · exact List.all_eq_true.mp (by decide : "data:".toList.all standsPlain) a ha
    · exact standsPlain_mediaType _ a ha
    · exact List.all_eq_true.mp (by decide : ";base64,".toList.all standsPlain) a ha
    · exact Text.Base64.standsPlain_encodeChars source a ha
  rw [toList_ofData]
  exact inert_export (Inert.string (by decide) (spells_self hplain))

/-! ## Components -/

/-- What stands before the call in a component. -/
def beforeRequire (markup : String) : List Char :=
  "var markup = ".toList ++ (quoteChars markup ++ (";\n".toList ++
    ("function SvgComponent(props) \x7b\n".toList ++ "  var React =".toList)))

/-- What stands behind the call in a component. -/
def behindRequire : List Char :=
  ";\n".toList ++ ("  return React.createElement(".toList ++ ('"' :: ("span".toList ++ ['"']) ++
    (", Object.assign(\x7b dangerouslySetInnerHTML: ".toList ++
      ("\x7b __html: markup \x7d \x7d, props));\n".toList ++ ("\x7d\n".toList ++
        ("module.exports = SvgComponent;\n".toList ++
          "module.exports.default = SvgComponent;".toList))))))

theorem toList_svgComponent (markup : String) :
    (svgComponent markup).toList =
      beforeRequire markup ++ ' ' :: ("require".toList ++
        '(' :: ('"' :: ("react".toList ++ ['"']) ++ ')' :: behindRequire)) := by
  have hrequire : "  var React = require(\"react\");\n".toList =
      "  var React =".toList ++ ' ' :: ("require".toList ++ '(' :: '"' :: ("react".toList ++ '"' ::
        ')' :: ";\n".toList)) := by decide +kernel
  have hspan :
      "  return React.createElement(\"span\", Object.assign(\x7b dangerouslySetInnerHTML: ".toList =
        "  return React.createElement(".toList ++ '"' :: ("span".toList ++ '"' ::
          ", Object.assign(\x7b dangerouslySetInnerHTML: ".toList) := by decide +kernel
  delta beforeRequire behindRequire
  change (_ ++ _ ++ _ ++ _ ++ _ ++ _ ++ _ ++ _ ++ _ ++ _ : String).toList = _
  simp only [String.toList_append, toList_quote, hrequire, hspan, List.append_assoc,
    List.cons_append, List.nil_append]

theorem inert_beforeRequire (markup : String) : Inert (beforeRequire markup) := by
  have hvar : Inert "var markup = ".toList := Bare.inert (by decide +kernel)
  have hfunction : Inert (";\n".toList ++
      ("function SvgComponent(props) \x7b\n".toList ++ "  var React =".toList)) :=
    Bare.inert (by decide +kernel)
  exact hvar.append ((inert_quoteChars markup).append hfunction rfl) rfl

theorem inert_behindRequire : Inert behindRequire := by
  have hcall : Inert (";\n".toList ++ "  return React.createElement(".toList) :=
    Bare.inert (by decide +kernel)
  have hspan : Inert ('"' :: ("span".toList ++ ['"'])) :=
    .string (by decide) (spells_self (List.all_eq_true.mp (by decide)))
  have hrest : Inert (", Object.assign(\x7b dangerouslySetInnerHTML: ".toList ++
      ("\x7b __html: markup \x7d \x7d, props));\n".toList ++ ("\x7d\n".toList ++
        ("module.exports = SvgComponent;\n".toList ++
          "module.exports.default = SvgComponent;".toList)))) :=
    Bare.inert (by decide +kernel)
  have hall := hcall.append (hspan.append hrest rfl) rfl
  rwa [List.append_assoc] at hall

theorem count_newline_beforeRequire (markup : String) :
    (beforeRequire markup).count '\n' = 2 := by
  have hvar : "var markup = ".toList.count '\n' = 0 := by decide +kernel
  have hquote : (quoteChars markup).count '\n' = 0 :=
    List.count_eq_zero.mpr (newline_not_mem_quoteChars markup)
  have hfunction : (";\n".toList ++ ("function SvgComponent(props) \x7b\n".toList ++
      "  var React =".toList)).count '\n' = 2 := by decide +kernel
  delta beforeRequire
  rw [List.count_append, List.count_append, hvar, hquote, hfunction]

/-- The call in a component is read as a mention of its argument. -/
theorem scanScript_svgComponent (markup : String) :
    scanScript (svgComponent markup) = .ok [⟨"react", .require, 3⟩] := by
  let react : StringText .double := ⟨"react".toList, by decide, by decide, by decide⟩
  let behind := ' ' :: (beforeRequire markup).reverse
  let call := '(' :: (react.literal ++ ')' :: behindRequire)
  have hbefore : Steps false ⟨[], beforeRequire markup ++ ' ' :: ("require".toList ++ call)⟩ []
      ⟨behind, "require".toList ++ call⟩ := by
    have hinert := inert_beforeRequire markup [] (' ' :: ("require".toList ++ call)) rfl
    rw [List.append_nil] at hinert
    exact hinert.trans (.step (step_isMark (by decide) _ _) (.here _))
  have hclause : keywordClause "require" ⟨"require".toList.reverse ++ behind, call⟩ =
      .ok (⟨react.literal.reverse ++ '(' :: ("require".toList.reverse ++ behind),
        ')' :: behindRequire⟩, some ⟨"react", .require, 3⟩) := by
    have hline : ("require".toList.reverse ++ behind).count '\n' = 2 := by
      simp [behind, count_newline_beforeRequire]
    have hcall := callClause_string .require ("require".toList.reverse ++ behind) behindRequire react
    rw [hline] at hcall
    exact hcall
  have hword : Cursor.Word ⟨behind, "require".toList ++ call⟩ "require".toList
      ⟨"require".toList.reverse ++ behind, call⟩ :=
    ⟨by decide, ⟨rfl, rfl⟩, Cursor.seam_of_stop rfl⟩
  have hbehind : Inert (')' :: behindRequire) := .mark (by decide) inert_behindRequire
  have hrest := hbehind (react.literal.reverse ++ '(' :: ("require".toList.reverse ++ behind)) [] rfl
  rw [List.append_nil] at hrest
  have hsteps := hbefore.trans (.step (hword.step rfl hclause) hrest)
  have hstart : Source.Cursor.start (svgComponent markup) =
      ⟨[], beforeRequire markup ++ ' ' :: ("require".toList ++ call)⟩ := by
    rw [Source.Cursor.start, toList_svgComponent]
    rfl
  rw [← hstart] at hsteps
  exact hsteps.scanScript_eq rfl

/-- What is embedded in code brings no dependency with it: neither a text nor data nor a JSON
value, whatever is in them. A component brings one, whatever its markup. -/
theorem dependencies_of_embedded (id : ModuleId) (source : Bytes) (options : TransformOptions) :
    (∃ t, builtin ⟨id, .text, source, options⟩ = .ok t ∧ t.dependencies id .text = .ok []) ∧
    (¬ (options.svgr ∧ id.extension = some "svg") →
      ∃ t, builtin ⟨id, .dataUri, source, options⟩ = .ok t ∧ t.dependencies id .dataUri = .ok []) ∧
    (∀ value, Json.parse source = .ok value →
      ∃ t, builtin ⟨id, .json, source, options⟩ = .ok t ∧ t.dependencies id .json = .ok []) ∧
    (options.svgr → id.extension = some "svg" →
      builtin ⟨id, .dataUri, source, options⟩ =
        .ok { code := svgComponent (Text.Utf8.lossy source) }) ∧
    ∀ markup : String, ({ code := svgComponent markup } : Transformed).dependencies id .dataUri =
      .ok [⟨"react", .require, 3⟩] := by
  refine ⟨?text, ?data, ?json, ?component, ?markup⟩
  case text =>
    refine ⟨_, rfl, dependencies_of_inert ?_ id .text⟩
    rw [toList_exported, toList_quote]
    exact inert_export (inert_quoteChars _)
  case data =>
    intro hplain
    have hbuiltin : builtin ⟨id, .dataUri, source, options⟩ = .ok (ofData id source) :=
      if_neg (by simpa using hplain)
    exact ⟨_, hbuiltin, dependencies_of_inert (inert_ofData id source) id .dataUri⟩
  case json =>
    intro value hvalue
    have hbuiltin : builtin ⟨id, .json, source, options⟩ =
        .ok { code := "module.exports = " ++ value.compact ++ ";" } := by
      simp only [builtin, ofJson, hvalue]
    refine ⟨_, hbuiltin, dependencies_of_inert ?_ id .json⟩
    rw [toList_exported, toList_compact]
    exact inert_export (inert_compactChars value)
  case component =>
    intro hsvgr hsvg
    exact if_pos (by simp [hsvgr, hsvg])
  case markup =>
    intro markup
    simp only [Transformed.dependencies, scanScript_svgComponent]

/-- The document `["import\"",null]`, as JSON and as a picture that is a component or is none. -/
theorem dependencies_of_embedded_import :
    let id : ModuleId := ⟨"/a/b.svg"⟩
    let source : Bytes :=
      [91, 34, 105, 109, 112, 111, 114, 116, 92, 34, 34, 44, 110, 117, 108, 108, 93]
    (∃ t, builtin ⟨id, .json, source, {}⟩ = .ok t ∧ t.dependencies id .json = .ok []) ∧
    (∃ t, builtin ⟨id, .dataUri, source, {}⟩ = .ok t ∧ t.dependencies id .dataUri = .ok []) ∧
    builtin ⟨id, .dataUri, source, { svgr := true }⟩ =
      .ok { code := svgComponent (Text.Utf8.lossy source) } := by
  intro id source
  have hparse : Json.parse source = .ok (.list [.text "import\"", .null]) := by
    subst source
    cbv
  have hextension : id.extension = some "svg" := by
    subst id
    rfl
  obtain ⟨-, hdata, hjson, -⟩ := dependencies_of_embedded id source {}
  obtain ⟨-, -, -, hcomponent, -⟩ := dependencies_of_embedded id source { svgr := true }
  exact ⟨hjson _ hparse, hdata (by simp), hcomponent rfl hextension⟩

end Transform
end Bundler

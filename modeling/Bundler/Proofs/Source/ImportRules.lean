import Bundler.Proofs.Source.Blanked
import Bundler.Proofs.Source.Mentions
import Mathlib.Data.List.TakeWhile

/-!
# Import rules of a stylesheet

What an import rule is, and which specifiers are reported for those of a stylesheet. A specifier is
told with the line on which the text of its first rule begins in the stylesheet as it was written,
with its comments.
-/

namespace Bundler.Source

/-! ## Rules -/

/-- A specifier behind `n` characters: in quotes, or bare up to a character that cannot stand in
one. -/
inductive Written : List Char → Nat → List Char → List Char → Prop
  | quoted {q : Char} {text rest : List Char} : q = '"' ∨ q = '\'' → q ∉ text →
      Written (q :: (text ++ q :: rest)) 1 text rest
  | bare {text rest : List Char} : text ≠ [] → (∀ a ∈ text, isBare a) →
      rest.head?.any isBare = false → Written (text ++ rest) 0 text rest

/-- An import rule at the front of a text, with its specifier behind `n` characters. What looks like
the start of `url(` is bare text if no specifier follows it. -/
inductive Rule : List Char → Nat → List Char → List Char → Prop
  | url {gap gap' s text rest : List Char} {n : Nat} : gap ≠ [] → (∀ a ∈ gap, Text.isAsciiBlank a) →
      (∀ a ∈ gap', Text.isAsciiBlank a) → Written s n text rest →
      Rule ("@import".toList ++ (gap ++ ("url(".toList ++ (gap' ++ s))))
        (7 + gap.length + 4 + gap'.length + n) text rest
  | plain {gap s text rest : List Char} {n : Nat} : gap ≠ [] → (∀ a ∈ gap, Text.isAsciiBlank a) →
      Written s n text rest →
      (∀ gap' s', s = "url(".toList ++ (gap' ++ s') → (∀ a ∈ gap', Text.isAsciiBlank a) →
        ∀ n' text' rest', ¬ Written s' n' text' rest') →
      Rule ("@import".toList ++ (gap ++ s)) (7 + gap.length + n) text rest

/-- The import rules of a text that begins behind `n` characters, from left to right: where each
specifier begins, and its text. No rule begins within another one. -/
inductive Rules : Nat → List Char → List (Nat × List Char) → Prop
  | done (n : Nat) : Rules n [] []
  | skip {n : Nat} {a : Char} {s : List Char} {os : List (Nat × List Char)} :
      (∀ k text rest, ¬ Rule (a :: s) k text rest) → Rules (n + 1) s os → Rules n (a :: s) os
  | rule {n k : Nat} {s text rest : List Char} {os : List (Nat × List Char)} :
      Rule s k text rest → Rules (n + (s.length - rest.length)) rest os →
      Rules n s ((n + k, text) :: os)

section
variable {s text rest : List Char} {n : Nat}

/-! ## Specifiers -/

theorem quoted?_append {q : Char} (h : q ∉ text) :
    quoted? q (text ++ q :: rest) = some (text, rest) := by
  induction text with
  | nil => simp [quoted?]
  | cons a text ih =>
    rw [List.mem_cons, not_or] at h
    simp [quoted?, Ne.symm h.1, ih h.2]

theorem of_quoted? {q : Char} {r : List Char × List Char} (h : quoted? q s = some r) :
    q ∉ r.1 ∧ s = r.1 ++ q :: r.2 := by
  fun_induction quoted? q s generalizing r with
  | case1 => cases h
  | case2 => cases h; simp
  | case3 a s ha ih =>
    obtain ⟨r, hr, rfl⟩ := Option.map_eq_some_iff.mp h
    obtain ⟨hown, rfl⟩ := ih hr
    exact ⟨by simp [Ne.symm ha, hown], rfl⟩

theorem head?_dropWhile_any (p : Char → Bool) (s : List Char) :
    (s.dropWhile p).head?.any p = false := by
  have hnot := List.head?_dropWhile_not p s
  cases hd : s.dropWhile p with
  | nil => rfl
  | cons a r =>
    rw [hd] at hnot
    simpa using hnot

theorem isBare_of_isAsciiBlank {a : Char} (h : Text.isAsciiBlank a) : isBare a = false := by
  simp [isBare, h]

/-- A specifier does not begin with a blank. -/
theorem Written.head (h : Written s n text rest) : s.head?.any Text.isAsciiBlank = false := by
  cases h with
  | quoted hq =>
    rw [List.head?_cons, Option.any_some]
    rcases hq with rfl | rfl <;> decide
  | bare hne hbare =>
    obtain ⟨a, text, rfl⟩ := List.exists_cons_of_ne_nil hne
    have ha : isBare a := hbare a (.head _)
    rw [List.cons_append, List.head?_cons, Option.any_some, Bool.eq_false_iff]
    intro hblank
    rw [isBare_of_isAsciiBlank hblank] at ha
    cases ha

theorem Written.target?_eq (h : Written s n text rest) (before : Nat) :
    target? before s = some ⟨before + n, text, rest⟩ := by
  cases h with
  | quoted hq hown => simp [target?, hq, quoted?_append hown]
  | bare hne hbare hstop =>
    obtain ⟨a, text, rfl⟩ := List.exists_cons_of_ne_nil hne
    have ha : isBare a := hbare a (.head _)
    have hq : ¬ (a = '"' ∨ a = '\'') := by
      rintro (rfl | rfl) <;> exact absurd ha (by decide)
    have hrest : rest.takeWhile isBare = [] ∧ rest.dropWhile isBare = rest := by
      cases rest with
      | nil => exact ⟨rfl, rfl⟩
      | cons b rest =>
        have hb : isBare b = false := hstop
        simp [hb]
    rw [List.cons_append, target?, if_neg hq, if_pos ha, ← List.cons_append,
      List.takeWhile_append_of_pos hbare, List.dropWhile_append_of_pos hbare, hrest.1, hrest.2]
    simp

theorem written_of_target? {before : Nat} {t : Target} (h : target? before s = some t) :
    ∃ n, t.before = before + n ∧ Written s n t.specifier t.rest := by
  unfold target? at h
  split at h
  case h_1 => cases h
  case h_2 a s =>
    split at h
    case isTrue hq =>
      obtain ⟨r, hr, rfl⟩ := Option.map_eq_some_iff.mp h
      obtain ⟨hown, rfl⟩ := of_quoted? hr
      exact ⟨1, rfl, .quoted hq hown⟩
    case isFalse =>
      split at h
      case isTrue ha =>
        cases h
        refine ⟨0, rfl, ?_⟩
        have hsplit := List.takeWhile_append_dropWhile (p := isBare) (l := a :: s)
        have hbare : Written ((a :: s).takeWhile isBare ++ (a :: s).dropWhile isBare) 0
            ((a :: s).takeWhile isBare) ((a :: s).dropWhile isBare) :=
          .bare (by simp [ha]) (fun b hb => List.mem_takeWhile_imp hb)
            (head?_dropWhile_any isBare (a :: s))
        rwa [hsplit] at hbare
      case isFalse => cases h

/-! ## One rule -/

theorem dropWhile_blanks {gap : List Char} (hgap : ∀ a ∈ gap, Text.isAsciiBlank a)
    (hs : s.head?.any Text.isAsciiBlank = false) :
    (gap ++ s).dropWhile Text.isAsciiBlank = s := by
  rw [List.dropWhile_append_of_pos hgap]
  cases s with
  | nil => rfl
  | cons a s =>
    have ha : Text.isAsciiBlank a = false := hs
    simp [ha]

/-- A text is some blanks and what does not begin with one. -/
theorem exists_blanks (s : List Char) : ∃ gap r, s = gap ++ r ∧
    (∀ a ∈ gap, Text.isAsciiBlank a) ∧ r.head?.any Text.isAsciiBlank = false :=
  ⟨s.takeWhile Text.isAsciiBlank, s.dropWhile Text.isAsciiBlank,
    List.takeWhile_append_dropWhile.symm, fun _ ha => List.mem_takeWhile_imp ha,
    head?_dropWhile_any Text.isAsciiBlank s⟩

section
variable {gap : List Char} (hne : gap ≠ []) (hgap : ∀ a ∈ gap, Text.isAsciiBlank a)
  (hs : s.head?.any Text.isAsciiBlank = false)
include hne hgap hs

theorem importTarget?_plain (h : "url(".toList.isPrefixOf? s = none) :
    importTarget? ("@import".toList ++ (gap ++ s)) = target? (7 + gap.length) s := by
  have hlen : 7 + gap.length ≠ 7 := by
    have := List.length_pos_iff.mpr hne
    omega
  rw [importTarget?, List.isPrefixOf?_eq_some_iff_append_eq.mpr rfl]
  dsimp only
  rw [dropWhile_blanks hgap hs, List.length_append, Nat.add_sub_cancel, if_neg hlen, h]
  rfl

theorem importTarget?_url {inside : List Char} (h : "url(".toList ++ inside = s) :
    importTarget? ("@import".toList ++ (gap ++ s)) =
      (target? (7 + gap.length + 4 +
          (inside.length - (inside.dropWhile Text.isAsciiBlank).length))
        (inside.dropWhile Text.isAsciiBlank)).or (target? (7 + gap.length) s) := by
  have hlen : 7 + gap.length ≠ 7 := by
    have := List.length_pos_iff.mpr hne
    omega
  rw [importTarget?, List.isPrefixOf?_eq_some_iff_append_eq.mpr rfl]
  dsimp only
  rw [dropWhile_blanks hgap hs, List.length_append, Nat.add_sub_cancel, if_neg hlen,
    List.isPrefixOf?_eq_some_iff_append_eq.mpr h]

end

theorem Rule.importTarget?_eq (h : Rule s n text rest) :
    importTarget? s = some ⟨n, text, rest⟩ := by
  cases h with
  | @url gap gap' s text rest n hne hgap hgap' hw =>
    rw [importTarget?_url hne hgap (by rfl) rfl, dropWhile_blanks hgap' hw.head,
      List.length_append, Nat.add_sub_cancel, hw.target?_eq, Option.some_or]
  | @plain gap s text rest n hne hgap hw hno =>
    cases hurl : "url(".toList.isPrefixOf? s with
    | none => rw [importTarget?_plain hne hgap hw.head hurl, hw.target?_eq]
    | some inside =>
      have hinside := List.isPrefixOf?_eq_some_iff_append_eq.mp hurl
      obtain ⟨gap', r, rfl, hgap', hr⟩ := exists_blanks inside
      have hnone (before : Nat) :
          target? before ((gap' ++ r).dropWhile Text.isAsciiBlank) = none := by
        rw [dropWhile_blanks hgap' hr, Option.eq_none_iff_forall_ne_some]
        intro t ht
        obtain ⟨k, -, hk⟩ := written_of_target? ht
        exact hno gap' r hinside.symm hgap' k _ _ hk
      rw [importTarget?_url hne hgap hw.head hinside, hnone, Option.none_or, hw.target?_eq]

theorem rule_of_importTarget? {t : Target} (h : importTarget? s = some t) :
    Rule s t.before t.specifier t.rest := by
  cases hs : "@import".toList.isPrefixOf? s with
  | none =>
    rw [importTarget?, hs] at h
    cases h
  | some body =>
    obtain rfl := List.isPrefixOf?_eq_some_iff_append_eq.mp hs
    obtain ⟨gap, r, rfl, hgap, hr⟩ := exists_blanks body
    by_cases hne : gap = []
    · subst hne
      rw [importTarget?, hs] at h
      dsimp only at h
      rw [dropWhile_blanks hgap hr] at h
      simp at h
    · cases hurl : "url(".toList.isPrefixOf? r with
      | none =>
        rw [importTarget?_plain hne hgap hr hurl] at h
        obtain ⟨n, hbefore, hw⟩ := written_of_target? h
        rw [hbefore]
        refine .plain hne hgap hw fun gap' s' hs' => ?_
        rw [List.isPrefixOf?_eq_some_iff_append_eq.mpr hs'.symm] at hurl
        cases hurl
      | some inside =>
        obtain rfl := List.isPrefixOf?_eq_some_iff_append_eq.mp hurl
        obtain ⟨gap', r', rfl, hgap', hr'⟩ := exists_blanks inside
        rw [importTarget?_url hne hgap hr rfl, dropWhile_blanks hgap' hr', List.length_append,
          Nat.add_sub_cancel] at h
        cases ht : target? (7 + gap.length + 4 + gap'.length) r' with
        | some t' =>
          rw [ht, Option.some_or] at h
          obtain rfl := Option.some.inj h
          obtain ⟨n, hbefore, hw⟩ := written_of_target? ht
          rw [hbefore]
          exact .url hne hgap hgap' hw
        | none =>
          rw [ht, Option.none_or] at h
          obtain ⟨n, hbefore, hw⟩ := written_of_target? h
          rw [hbefore]
          refine .plain hne hgap hw fun gap'' s' hs' hgap'' n' text' rest' hw' => ?_
          have hsame : r' = s' := by
            rw [← dropWhile_blanks hgap' hr', List.append_cancel_left hs',
              dropWhile_blanks hgap'' hw'.head]
          rw [hsame, hw'.target?_eq] at ht
          cases ht

theorem Written.stands (h : Written s n text rest) :
    text <+: s.drop n ∧ ∃ passed, s = passed ++ rest := by
  cases h with
  | @quoted q text rest => exact ⟨⟨q :: rest, rfl⟩, q :: (text ++ [q]), by simp⟩
  | @bare text rest => exact ⟨⟨rest, rfl⟩, text, rfl⟩

/-- The text of a specifier stands where its rule says, and what follows the rule is the rest. -/
theorem Rule.stands (h : Rule s n text rest) :
    text <+: s.drop n ∧ ∃ a passed, s = a :: (passed ++ rest) := by
  have hdrop (pre s : List Char) (n : Nat) : (pre ++ s).drop (pre.length + n) = s.drop n := by
    rw [← List.drop_drop, List.drop_left]
  cases h with
  | @url gap gap' s text rest n _ _ _ hwritten =>
    obtain ⟨htext, passed, rfl⟩ := hwritten.stands
    refine ⟨?_, '@', "import".toList ++ (gap ++ ("url(".toList ++ (gap' ++ passed))), by simp⟩
    have hpre : "@import".toList ++ (gap ++ ("url(".toList ++ (gap' ++ (passed ++ rest)))) =
        ("@import".toList ++ gap ++ "url(".toList ++ gap') ++ (passed ++ rest) := by simp
    rw [hpre, show 7 + gap.length + 4 + gap'.length + n =
      ("@import".toList ++ gap ++ "url(".toList ++ gap').length + n by simp; omega, hdrop]
    exact htext
  | @plain gap s text rest n _ _ hwritten =>
    obtain ⟨htext, passed, rfl⟩ := hwritten.stands
    refine ⟨?_, '@', "import".toList ++ (gap ++ passed), by simp⟩
    rw [← List.append_assoc, show 7 + gap.length + n = ("@import".toList ++ gap).length + n by
      simp; omega, hdrop]
    exact htext

end

/-! ## The rules of a text -/

/-- The specifier that a text stands for, unless it leads out of the project. -/
structure Requests (text : List Char) (specifier : String) : Prop where
  trimmed : specifier = String.ofList (Text.trim text)
  nonempty : specifier ≠ ""
  inside : isRemote specifier = false

theorem targetMention_eq_some {text : List Char} {line : Nat} {m : Mention}
    (h : targetMention text line = some m) :
    Requests text m.specifier ∧ m.kind = .cssImport ∧ m.line = line := by
  unfold targetMention at h
  dsimp only at h
  split at h
  case isTrue => cases h
  case isFalse hno =>
    rw [Bool.or_eq_true, not_or] at hno
    cases h
    refine ⟨⟨rfl, fun he => hno.1 ?_, by simpa using hno.2⟩, rfl, rfl⟩
    simpa using he

theorem Requests.targetMention_eq {text : List Char} {specifier : String}
    (h : Requests text specifier) (line : Nat) :
    targetMention text line = some ⟨specifier, .cssImport, line⟩ := by
  obtain ⟨rfl, hne, hin⟩ := h
  have hempty : (String.ofList (Text.trim text)).isEmpty = false := by
    simpa using hne
  simp [targetMention, hempty, hin]

/-- What a rule takes is not empty, and the rest follows it. -/
theorem Rule.exists_passed {s text rest : List Char} {n : Nat} (h : Rule s n text rest) :
    ∃ passed, s = passed ++ rest ∧ 0 < passed.length ∧
      s.length - rest.length = passed.length := by
  obtain ⟨-, a, passed, rfl⟩ := h.stands
  refine ⟨a :: passed, rfl, Nat.succ_pos _, ?_⟩
  rw [← List.cons_append, List.length_append, Nat.add_sub_cancel]

/-- The mentions of rules, each with the line on which its text begins. -/
def mentions (s : List Char) (os : List (Nat × List Char)) : List Mention :=
  os.filterMap fun o => targetMention o.2 (1 + Text.countBreaks (s.take o.1))

theorem mentions_cons (s : List Char) (o : Nat × List Char) (os : List (Nat × List Char)) :
    mentions s (o :: os) =
      (targetMention o.2 (1 + Text.countBreaks (s.take o.1))).toList ++ mentions s os := by
  rw [mentions, mentions, List.filterMap_cons]
  cases targetMention o.2 (1 + Text.countBreaks (s.take o.1)) <;> rfl

theorem line_append (s t : List Char) :
    1 + Text.countBreaks (s ++ t) = 1 + Text.countBreaks s + Text.countBreaks t := by
  simp [Text.countBreaks, Nat.add_assoc]

/-- The scan goes from rule to rule. The lines are those of the whole text, of which `pre` has been
passed. -/
theorem exists_rules (fuel : Nat) (pre s : List Char) (hfuel : s.length ≤ fuel) :
    ∃ os, Rules pre.length s os ∧
      importsFrom fuel (1 + Text.countBreaks pre) s = mentions (pre ++ s) os := by
  induction fuel generalizing pre s with
  | zero =>
    obtain rfl := List.length_eq_zero_iff.mp (Nat.le_zero.mp hfuel)
    exact ⟨[], .done _, rfl⟩
  | succ fuel ih =>
    cases s with
    | nil => exact ⟨[], .done _, rfl⟩
    | cons a s =>
      rw [importsFrom]
      cases ht : importTarget? (a :: s) with
      | none =>
        obtain ⟨os, hrules, hos⟩ := ih (pre ++ [a]) s (Nat.le_of_succ_le_succ hfuel)
        refine ⟨os, .skip (fun k text rest hr => ?_) (by simpa using hrules), ?_⟩
        · rw [hr.importTarget?_eq] at ht
          cases ht
        · have hline : 1 + Text.countBreaks (pre ++ [a]) =
              if a = '\n' then 1 + Text.countBreaks pre + 1 else 1 + Text.countBreaks pre := by
            rw [line_append]
            by_cases ha : a = '\n' <;> simp [Text.countBreaks, ha]
          dsimp only
          rw [← hline, hos, List.append_assoc, List.singleton_append]
      | some t =>
        have hrule := rule_of_importTarget? ht
        obtain ⟨passed, hsplit, hpos, hlen⟩ := hrule.exists_passed
        have hlt : t.rest.length ≤ fuel := by
          have := congrArg List.length hsplit
          rw [List.length_append] at this
          omega
        obtain ⟨os, hrules, hos⟩ := ih (pre ++ passed) t.rest hlt
        refine ⟨(pre.length + t.before, t.specifier) :: os, .rule hrule ?_, ?_⟩
        · rwa [hlen, ← List.length_append]
        · have hpassed : (a :: s).take ((a :: s).length - t.rest.length) = passed := by
            rw [hlen, hsplit, List.take_left]
          dsimp only
          rw [hpassed, ← line_append, ← line_append, hos, mentions_cons,
            List.take_length_add_append, List.append_assoc, ← hsplit]

/-- Each specifier stands where it is said to stand. -/
theorem Rules.stands {n : Nat} {s : List Char} {os : List (Nat × List Char)} (h : Rules n s os)
    {o : Nat × List Char} (ho : o ∈ os) : n ≤ o.1 ∧ o.2 <+: s.drop (o.1 - n) := by
  induction h with
  | done => cases ho
  | @skip n a s os _ _ ih =>
    obtain ⟨hle, hpre⟩ := ih ho
    refine ⟨Nat.le_of_succ_le hle, ?_⟩
    rw [show o.1 - n = (o.1 - (n + 1)) + 1 by omega, List.drop_succ_cons]
    exact hpre
  | @rule n k s text rest os hr _ ih =>
    rcases List.mem_cons.mp ho with rfl | ho
    · exact ⟨Nat.le_add_right _ _, by rw [Nat.add_sub_cancel_left]; exact hr.stands.1⟩
    · obtain ⟨hle, hpre⟩ := ih ho
      obtain ⟨passed, rfl, -, hlen⟩ := hr.exists_passed
      rw [hlen] at hle hpre
      refine ⟨Nat.le_of_add_right_le hle, ?_⟩
      rw [show o.1 - n = passed.length + (o.1 - (n + passed.length)) by omega,
        ← List.drop_drop, List.drop_left]
      exact hpre

/-! ## Lines -/

/-- Of the rules `os` of `out`, the text of the first one with the specifier begins at `n`. -/
def FirstAt (out : List Char) (os : List (Nat × List Char)) (specifier : String) (n : Nat) : Prop :=
  ∃ before text after, os = before ++ (n, text) :: after ∧ Requests text specifier ∧
    text <+: out.drop n ∧ ∀ o ∈ before, ¬ Requests o.2 specifier

theorem firstAt_of_mem {out s : List Char} {os : List (Nat × List Char)} (h : Rules 0 out os)
    {m : Mention} (hm : m ∈ Mention.dedupe (mentions s os)) :
    ∃ n, FirstAt out os m.specifier n ∧ m.line = 1 + Text.countBreaks (s.take n) := by
  obtain ⟨before, k, after, hsplit, hspecifier, hline, hbefore⟩ := Mention.first_of_mem_dedupe _ hm
  obtain ⟨osBefore, rest, rfl, rfl, hrest⟩ := List.filterMap_eq_append_iff.mp hsplit
  obtain ⟨idle, o, osAfter, rfl, hidle, ho, -⟩ := List.filterMap_eq_cons_iff.mp hrest
  obtain ⟨hnames, -, hk⟩ := targetMention_eq_some ho
  rw [hspecifier] at hnames
  have hstands := (h.stands (o := o) (by simp)).2
  refine ⟨o.1, ⟨osBefore ++ idle, o.2, osAfter, by simp, hnames, hstands, fun o' ho' hn => ?_⟩, ?_⟩
  · have hmention := hn.targetMention_eq (1 + Text.countBreaks (s.take o'.1))
    rcases List.mem_append.mp ho' with ho' | ho'
    · exact hbefore _ (List.mem_filterMap.mpr ⟨o', ho', hmention⟩) rfl
    · rw [hidle o' ho'] at hmention
      cases hmention
  · rw [← hline, hk]

/-- What is named by a rule is reported. -/
theorem mem_of_names {s : List Char} {os : List (Nat × List Char)} {o : Nat × List Char}
    (ho : o ∈ os) {specifier : String} (hn : Requests o.2 specifier) :
    specifier ∈ (Mention.dedupe (mentions s os)).map (·.specifier) := by
  rw [Mention.map_specifier_dedupe, List.mem_eraseDups]
  exact List.mem_map.mpr ⟨_, List.mem_filterMap.mpr ⟨o, ho, hn.targetMention_eq _⟩, rfl⟩

theorem scanStylesheet_of_comments {s : String} {marks : List Bool} (h : Comments s.toList marks) :
    ∃ os, Rules 0 (List.zipWith blankAt s.toList marks) os ∧
      scanStylesheet s = .ok (Mention.dedupe (mentions s.toList os)) := by
  obtain ⟨os, hrules, hos⟩ :=
    exists_rules _ [] (List.zipWith blankAt s.toList marks) (Nat.le_refl _)
  refine ⟨os, hrules, ?_⟩
  have hlines : importsFrom (List.zipWith blankAt s.toList marks).length 1
      (List.zipWith blankAt s.toList marks) = mentions s.toList os := by
    refine hos.trans (List.filterMap_congr fun o _ => ?_)
    rw [List.nil_append, h.countBreaks_take]
  rw [scanStylesheet, stripComments, h.blankComments_eq]
  exact congrArg (fun ms => Except.ok (Mention.dedupe ms)) hlines

/-- If each comment of a stylesheet is closed, blanking comments out moves nothing and leaves none,
and each specifier that a rule names is reported with the line on which the text of its first rule
begins in the stylesheet. Otherwise the line of the first comment that is not closed is told. -/
theorem scanStylesheet_places (s : String) :
    (∀ marks, Comments s.toList marks → ∃ out os ms, stripComments s.toList = .ok out ∧
      Blanks s.toList marks out ∧ stripComments out = .ok out ∧ Rules 0 out os ∧
      scanStylesheet s = .ok ms ∧
      (∀ o ∈ os, ∀ k, Requests o.2 k → k ∈ ms.map (·.specifier)) ∧
      ∀ m ∈ ms, ∃ n, FirstAt out os m.specifier n ∧ m.line = 1 + (s.toList.take n).count '\n') ∧
    (¬ Closed s.toList → ∃ before, OpenBehind before s.toList ∧
      stripComments s.toList = .error ⟨.unclosedComment, 1 + before.count '\n', 1⟩ ∧
      scanStylesheet s = .error ⟨.unclosedComment, 1 + before.count '\n', 1⟩) := by
  constructor
  · intro marks h
    obtain ⟨os, hrules, hscan⟩ := scanStylesheet_of_comments h
    exact ⟨_, os, _, h.blankComments_eq 1, h.blanks, stripComments_of_clear h.clear, hrules, hscan,
      fun o ho k hk => mem_of_names ho hk, fun m hm => firstAt_of_mem hrules hm⟩
  · intro hnot
    obtain ⟨before, hopen⟩ := (closed_or_open s.toList).resolve_left hnot
    have hstrip : stripComments s.toList =
      .error ⟨.unclosedComment, 1 + before.count '\n', 1⟩ := hopen.blankComments_eq 1
    refine ⟨before, hopen, hstrip, ?_⟩
    rw [scanStylesheet, hstrip]
    rfl

example : scanStylesheet "a /* é\n*/ \x7b\x7d\n/**/@import/*\n*/'\nb.css';" =
    .ok [⟨"b.css", .cssImport, 4⟩] := by decide +kernel

end Bundler.Source

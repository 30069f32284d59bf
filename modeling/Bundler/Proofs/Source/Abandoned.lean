import Mathlib.Logic.Relation
import Bundler.Proofs.Source.Findings

/-!
# Abandoned templates

A template that does not come to its end is read again as code, but what its substitutions had
mentioned until then stays found. The scanner that takes such mentions back finds what stands in
the code that it finally reads, in the order of the source. The scanner that keeps them fails at
the same place or finds the same with the litter of the abandoned templates in between.
-/

namespace Bundler.Source

open Cursor

/-- The mentions stand one behind the other between two places. -/
inductive Ordered : Cursor → List Mention → Cursor → Prop
  | nil {c d : Cursor} : c.Onward d → Ordered c [] d
  | cons {c p q d : Cursor} {m : Mention} {ms : List Mention} : c.Onward p → StandsAt m p q →
      Ordered q ms d → Ordered c (m :: ms) d

/-- `found` is `kept` with more in between, all of which is `P`. -/
inductive Littered (P : Mention → Prop) : List Mention → List Mention → Prop
  | nil : Littered P [] []
  | keep {kept found : List Mention} (m : Mention) : Littered P kept found →
      Littered P (m :: kept) (m :: found)
  | litter {kept found : List Mention} {m : Mention} : P m → Littered P kept found →
      Littered P kept (m :: found)

/-- The stages that a scan comes to from a stage: the next one, and the first one of a template that
comes to its end or of a substitution. -/
inductive Next : Stage → Stage → Prop
  | passes {depth depth' : Option Nat} {behind rest : List Char} {a : Char} {c : Cursor} :
      Passes depth (lexeme behind a rest) depth' c →
      Next (.code depth ⟨behind, a :: rest⟩) (.code depth' c)
  | clause {depth : Option Nat} {behind rest : List Char} {a : Char} {w : String} {c d : Cursor}
      {m : Option Mention} :
      lexeme behind a rest = .word w true c → keywordClause w c = .ok (d, m) →
      Next (.code depth ⟨behind, a :: rest⟩) (.code depth d)
  | opens {depth : Option Nat} {behind rest : List Char} {a : Char} {inside c : Cursor}
      {ns : List Mention} :
      lexeme behind a rest = .template inside →
      Run true (.template ⟨behind, a :: rest⟩ inside) ns (.ok c) →
      Next (.code depth ⟨behind, a :: rest⟩) (.template ⟨behind, a :: rest⟩ inside)
  | template {depth : Option Nat} {behind rest : List Char} {a : Char} {inside c : Cursor}
      {ns : List Mention} :
      lexeme behind a rest = .template inside →
      Run true (.template ⟨behind, a :: rest⟩ inside) ns (.ok c) →
      Next (.code depth ⟨behind, a :: rest⟩) (.code depth c)
  | abandons {depth : Option Nat} {behind rest : List Char} {a : Char} {inside : Cursor}
      {ns : List Mention} {e : ScanError} :
      lexeme behind a rest = .template inside →
      Run true (.template ⟨behind, a :: rest⟩ inside) ns (.error e) →
      Next (.code depth ⟨behind, a :: rest⟩) (.code depth inside)
  | inside {opened c d : Cursor} : Inside c d → Next (.template opened c) (.template opened d)
  | enters (opened : Cursor) (behind rest : List Char) :
      Next (.template opened ⟨behind, '$' :: '\x7b' :: rest⟩)
        (.code (some 0) ⟨'\x7b' :: '$' :: behind, rest⟩)
  | substitution {opened : Cursor} {behind rest : List Char} {c : Cursor} {ns : List Mention} :
      Run true (.code (some 0) ⟨'\x7b' :: '$' :: behind, rest⟩) ns (.ok c) →
      Next (.template opened ⟨behind, '$' :: '\x7b' :: rest⟩) (.template opened c)

/-- From a stage the scan comes to a template that it abandons after it has mentioned `m`. -/
def Litter (st : Stage) (m : Mention) : Prop :=
  ∃ (depth : Option Nat) (opened inside : Cursor) (ns : List Mention) (e : ScanError),
    Relation.ReflTransGen Next st (.code depth opened) ∧ opened.Over ['`'] inside ∧
      Run false (.template opened inside) ns (.error e) ∧ m ∈ ns

theorem Litter.mono {st st' : Stage} {m : Mention} (hn : Next st st') (h : Litter st' m) :
    Litter st m := by
  obtain ⟨depth, opened, inside, ns, e, hcomes, hrest⟩ := h
  exact ⟨depth, opened, inside, ns, e, .head hn hcomes, hrest⟩

section
variable {c d e : Cursor} {ms ns : List Mention}

theorem Ordered.before (h : Ordered d ms e) (hc : c.Onward d) : Ordered c ms e := by
  cases h with
  | nil hd => exact .nil (hc.trans hd)
  | cons hp hstands hms => exact .cons (hc.trans hp) hstands hms

theorem Ordered.append (h₁ : Ordered c ms d) (h₂ : Ordered d ns e) : Ordered c (ms ++ ns) e := by
  induction h₁ with
  | nil hd => exact h₂.before hd
  | cons hp hstands _ ih => exact .cons hp hstands (ih h₂)

end

namespace Littered

variable {P Q : Mention → Prop} {kept found kept' found' : List Mention}

theorem refl (ms : List Mention) : Littered P ms ms := by
  induction ms with
  | nil => exact .nil
  | cons m ms ih => exact .keep m ih

theorem mono (hP : ∀ m, P m → Q m) (h : Littered P kept found) : Littered Q kept found := by
  induction h with
  | nil => exact .nil
  | keep m _ ih => exact .keep m ih
  | litter hm _ ih => exact .litter (hP _ hm) ih

theorem append (h : Littered P kept found) (h' : Littered P kept' found') :
    Littered P (kept ++ kept') (found ++ found') := by
  induction h with
  | nil => exact h'
  | keep m _ ih => exact .keep m ih
  | litter hm _ ih => exact .litter hm ih

theorem of_forall (h : ∀ m ∈ found, P m) : Littered P [] found := by
  induction found with
  | nil => exact .nil
  | cons m found ih => exact .litter (h m (.head _)) (ih fun m hm => h m (.tail _ hm))

/-- Without litter all is kept. -/
theorem eq_or_exists (h : Littered P kept found) : found = kept ∨ ∃ m, P m := by
  induction h with
  | nil => exact .inl rfl
  | keep m _ ih => exact ih.imp_left (congrArg (m :: ·))
  | litter hm _ _ => exact .inr ⟨_, hm⟩

end Littered

theorem over_of_lexeme {behind rest : List Char} {a : Char} {inside : Cursor}
    (h : lexeme behind a rest = .template inside) : Over ⟨behind, a :: rest⟩ ['`'] inside := by
  unfold lexeme at h
  repeat' split at h
  all_goals cases h
  subst_vars
  exact ⟨rfl, rfl⟩

/-- What a clause mentions stands between its begin and its end. -/
theorem ordered_clause {behind rest : List Char} {a : Char} {w : String} {c d : Cursor}
    {m : Option Mention} (hl : lexeme behind a rest = .word w true c)
    (hk : keywordClause w c = .ok (d, m)) : Ordered ⟨behind, a :: rest⟩ m.toList d := by
  cases m with
  | none => exact .nil (onward_of_clause hl hk)
  | some m =>
    have hsound := Clause.sound_keywordClause (behind_of_lexeme hl)
    obtain ⟨p, q, hp, hstands, hq⟩ := hsound.mention _ _ hk
    exact .cons ((onward_of_lexeme hl rfl).trans hp) hstands (.nil hq)

namespace Run

variable {st : Stage} {ms : List Mention} {r : Except ScanError Cursor}

/-- A scanner that takes back mentions what stands in the code in the order of the source. -/
theorem ordered (h : Run true st ms r) :
    ∃ d, Ordered st.cursor ms d ∧ ∀ e, r = .ok e → d = e := by
  induction h with
  | ended depth behind =>
    refine ⟨_, .nil (.refl _), ?_⟩
    rintro _ ⟨⟩
    rfl
  | fails | badClause | unclosed =>
    refine ⟨_, .nil (.refl _), ?_⟩
    rintro _ ⟨⟩
  | passes hp _ ih =>
    obtain ⟨d, hd, hend⟩ := ih
    exact ⟨d, hd.before hp.onward.step, hend⟩
  | closes hl =>
    refine ⟨_, .nil (onward_of_lexeme hl rfl), ?_⟩
    rintro _ ⟨⟩
    rfl
  | clause hl hk _ ih =>
    obtain ⟨d, hd, hend⟩ := ih
    exact ⟨d, (ordered_clause hl hk).append hd, hend⟩
  | template hl _ _ ihn ih =>
    obtain ⟨c, hc, hcend⟩ := ihn
    obtain rfl := hcend _ rfl
    obtain ⟨d, hd, hend⟩ := ih
    exact ⟨d, (hc.before (onward_of_lexeme hl rfl)).append hd, hend⟩
  | abandons hl _ _ _ ih =>
    obtain ⟨d, hd, hend⟩ := ih
    exact ⟨d, hd.before (onward_of_lexeme hl rfl), hend⟩
  | closed =>
    refine ⟨_, .nil (.step (.refl _)), ?_⟩
    rintro _ ⟨⟩
    rfl
  | inside hi _ ih =>
    obtain ⟨d, hd, hend⟩ := ih
    exact ⟨d, hd.before hi.onward, hend⟩
  | substitution _ _ ihn ih =>
    obtain ⟨c, hc, hcend⟩ := ihn
    obtain rfl := hcend _ rfl
    obtain ⟨d, hd, hend⟩ := ih
    exact ⟨d, (hc.before (.step (.step (.refl _)))).append hd, hend⟩
  | badSubstitution _ ihn =>
    obtain ⟨c, hc, -⟩ := ihn
    refine ⟨c, hc.before (.step (.step (.refl _))), ?_⟩
    rintro _ ⟨⟩

/-- A scanner that keeps comes to the same end, with the litter of the abandoned templates. -/
theorem littered (h : Run true st ms r) :
    ∃ found, Run false st found r ∧ Littered (Litter st) ms found := by
  have hmono {st st' : Stage} {kept found : List Mention} (hn : Next st st')
      (hd : Littered (Litter st') kept found) : Littered (Litter st) kept found :=
    hd.mono fun _ => .mono hn
  induction h with
  | ended depth behind => exact ⟨[], .ended depth behind, .nil⟩
  | fails hl => exact ⟨[], .fails hl, .nil⟩
  | closes hl => exact ⟨[], .closes hl, .nil⟩
  | badClause hl hk => exact ⟨[], .badClause hl hk, .nil⟩
  | unclosed opened behind => exact ⟨[], .unclosed opened behind, .nil⟩
  | closed opened behind rest => exact ⟨[], .closed opened behind rest, .nil⟩
  | passes hp _ ih =>
    obtain ⟨found, hrun, hlitter⟩ := ih
    exact ⟨found, .passes hp hrun, hmono (.passes hp) hlitter⟩
  | clause hl hk _ ih =>
    obtain ⟨found, hrun, hlitter⟩ := ih
    exact ⟨_, .clause hl hk hrun, (Littered.refl _).append (hmono (.clause hl hk) hlitter)⟩
  | template hl hn _ ihn ih =>
    obtain ⟨found, hrun, hlitter⟩ := ihn
    obtain ⟨found', hrun', hlitter'⟩ := ih
    exact ⟨_, .template hl hrun hrun',
      (hmono (.opens hl hn) hlitter).append (hmono (.template hl hn) hlitter')⟩
  | abandons hl hn _ ihn ih =>
    obtain ⟨ns, hrun, -⟩ := ihn
    obtain ⟨found, hrun', hlitter'⟩ := ih
    refine ⟨_, .abandons hl hrun hrun', .append (.of_forall ?_) (hmono (.abandons hl hn) hlitter')⟩
    intro m hm
    exact ⟨_, _, _, ns, _, .refl, over_of_lexeme hl, hrun, hm⟩
  | inside hi _ ih =>
    obtain ⟨found, hrun, hlitter⟩ := ih
    exact ⟨found, .inside hi hrun, hmono (.inside hi) hlitter⟩
  | substitution hn _ ihn ih =>
    obtain ⟨found, hrun, hlitter⟩ := ihn
    obtain ⟨found', hrun', hlitter'⟩ := ih
    exact ⟨_, .substitution hrun hrun',
      (hmono (.enters ..) hlitter).append (hmono (.substitution hn) hlitter')⟩
  | badSubstitution _ ihn =>
    obtain ⟨found, hrun, hlitter⟩ := ihn
    exact ⟨found, .badSubstitution hrun, hmono (.enters ..) hlitter⟩

end Run

/-- How the answers of the two scanners differ: both fail at the same place, and what they report
is the same up to the litter of abandoned templates. -/
theorem scanScript_littered (s : String) :
    (∃ (kept found : List Mention) (r : Except ScanError Cursor),
      (∃ d, Ordered (start s) kept d) ∧ Littered (Litter (.code none (start s))) kept found ∧
        scanScriptWith true s = r.map (fun _ => Mention.report kept) ∧
        scanScript s = r.map fun _ => Mention.report found) ∧
      (scanScript s = scanScriptWith true s ∨ ∃ m, Litter (.code none (start s)) m) := by
  obtain ⟨kept, r, hkept⟩ := Run.exists_run true (.code none (.start s))
  obtain ⟨found, hfound, hlitter⟩ := hkept.littered
  obtain ⟨d, hordered, -⟩ := hkept.ordered
  have htrue := hkept.scanScriptWith_eq
  have hfalse := hfound.scanScriptWith_eq
  rw [scanScriptWith_false] at hfalse
  constructor
  · rw [Mention.dedupe_eq_report] at htrue hfalse
    exact ⟨kept, found, r, ⟨d, hordered⟩, hlitter, htrue, hfalse⟩
  · obtain rfl | hlitter := hlitter.eq_or_exists
    · exact .inl (hfalse.trans htrue.symm)
    · exact .inr hlitter

example : scanScript "` ' $\x7brequire('b')\x7d '" = .ok [⟨"b", .require, 1⟩] ∧
    scanScriptWith true "` ' $\x7brequire('b')\x7d '" = .ok [] := by decide +kernel

end Bundler.Source

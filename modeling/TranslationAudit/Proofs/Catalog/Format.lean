import TranslationAudit.Catalog.Store
import TranslationAudit.Proofs.Catalog.Sorted
import TranslationAudit.Proofs.FileTree

/-! # Formatting twice

* `Metadata.TargetSettled`: metadata that are resolved to the same attributes again.
* `format_eq_clean_iff`: a catalog is clean if it is its own canonical text.
* `format_format_iff`: which catalogs are clean once they have been formatted.
-/

namespace TranslationAudit

namespace Catalog

open Markup (Node)

/-! ## Metadata resolved again -/

/-- Metadata without a target language that is there but empty, unless no target language takes its
place. A header leaves an empty target language out of the text, where the locale counts instead of
it unless it is the source language. -/
def Metadata.TargetSettled (m : Metadata) (locale : String) : Prop :=
  m.targetLanguage = some "" →
    locale = "" ∨ Text.equalIgnoringCase (Header.resolve m "" locale).sourceLanguage locale = true

namespace Header

variable (m : Metadata) (package locale : String)

theorem getD_filter_getD (s : Option String) (other : String) :
    ((some ((s.filter fun v => !v.isEmpty).getD other)).filter fun v => !v.isEmpty).getD other =
      (s.filter fun v => !v.isEmpty).getD other := by
  cases hs : s.filter fun v => !v.isEmpty with
  | none =>
    rw [Option.getD_none]
    cases hother : other.isEmpty with
    | true => simp [Option.filter, hother]
    | false => simp [Option.filter, hother]
  | some v =>
    have hv := (Option.filter_eq_some_iff.1 hs).2
    rw [Option.getD_some, Option.filter_some, if_pos hv, Option.getD_some]

/-- All but the target language is resolved to the same again. -/
theorem resolve_resolve :
    resolve (resolve m package locale).metadata package locale =
      { resolve m package locale with
        targetLanguage := (resolve m package locale).target?.or
          (if Text.equalIgnoringCase (resolve m package locale).sourceLanguage locale then none
            else some locale) } := by
  simp only [resolve, metadata, getD_filter_getD, Option.getD_some]
  rfl

theorem attributes_with_target (h : Header) (t : Option String) :
    { h with targetLanguage := t }.attributes = h.attributes ↔
      { h with targetLanguage := t }.target? = h.target? := by
  rw [attributes, attributes, List.append_right_inj]
  cases { h with targetLanguage := t }.target? <;> cases h.target? <;> simp

/-- The attributes for metadata that were resolved are resolved to the same again if the target
language is settled. -/
theorem attributes_resolve_resolve_iff :
    (resolve (resolve m package locale).metadata package locale).attributes =
      (resolve m package locale).attributes ↔ m.TargetSettled locale := by
  have hsource : (resolve m "" locale).sourceLanguage =
      (resolve m package locale).sourceLanguage := rfl
  have htarget : (resolve m package locale).targetLanguage = m.targetLanguage.or
      (if Text.equalIgnoringCase (resolve m package locale).sourceLanguage locale then none
        else some locale) := rfl
  rw [resolve_resolve, attributes_with_target, Metadata.TargetSettled, hsource, target?, target?,
    htarget]
  generalize (resolve m package locale).sourceLanguage = source
  cases Text.equalIgnoringCase source locale with
  | true =>
    cases m.targetLanguage with
    | none => simp
    | some t => by_cases ht : t = "" <;> simp [Option.filter, ht]
  | false =>
    cases m.targetLanguage with
    | none => by_cases hlocale : locale = "" <;> simp [Option.filter, hlocale]
    | some t => by_cases ht : t = "" <;> simp [Option.filter, ht]

end Header

/-! ## Formatting -/

section Format

variable {t t₁ : FileTree} {path text : String} {d : Document} {layout : Layout}
variable {package locale : String}

theorem save_of_store {t' : FileTree} (h : store t path text = .ok t') :
    t.save path text = .ok t' := by
  unfold store at h
  split at h
  · next t₂ hsave =>
    cases h
    exact hsave
  · cases h

theorem format_eq_error (hread : t.read path = .ok text) {e : Error}
    (hparse : Document.parse path text = .error e) (apply : Bool) :
    format t layout path package locale apply = .error e := by
  rw [format, Document.load, hread]
  simp only [hparse]
  rfl

theorem format_eq (hread : t.read path = .ok text) (hparse : Document.parse path text = .ok d)
    (apply : Bool) :
    format t layout path package locale apply =
      if text = render layout d (.resolve d.metadata package locale) then .ok (t, true)
      else if apply then
        (store t path (render layout d (.resolve d.metadata package locale))).map (·, false)
      else .ok (t, false) := by
  rw [format, Document.load, hread]
  simp only [hparse, Except.bind, Except.toOption, Option.some.injEq]

/-- A catalog is clean if it is its own canonical text. -/
theorem format_eq_clean_iff (hread : t.read path = .ok text) (apply : Bool) :
    format t layout path package locale apply = .ok (t, true) ↔
      ∃ d, Document.parse path text = .ok d ∧
        render layout d (.resolve d.metadata package locale) = text := by
  cases hparse : Document.parse path text with
  | error e =>
    rw [format_eq_error hread hparse]
    simp
  | ok d =>
    rw [format_eq hread hparse]
    simp only [Except.ok.injEq, exists_eq_left']
    by_cases hclean : text = render layout d (.resolve d.metadata package locale)
    · rw [if_pos hclean]
      exact ⟨fun _ => hclean.symm, fun _ => rfl⟩
    · rw [if_neg hclean]
      refine ⟨?_, fun heq => absurd heq.symm hclean⟩
      intro h
      split at h
      · cases hstore : store t path (render layout d (.resolve d.metadata package locale)) with
        | error e =>
          rw [hstore] at h
          cases h
        | ok t' =>
          rw [hstore] at h
          cases h
      · cases h

theorem read_of_format (hread : t.read path = .ok text)
    (hparse : Document.parse path text = .ok d)
    (h : format t layout path package locale true = .ok (t₁, false)) :
    t₁.read path = .ok (render layout d (.resolve d.metadata package locale)) := by
  rw [format_eq hread hparse] at h
  split at h
  · cases h
  · rw [if_pos rfl] at h
    cases hstore : store t path (render layout d (.resolve d.metadata package locale)) with
    | error e =>
      rw [hstore] at h
      cases h
    | ok t' =>
      rw [hstore] at h
      cases h
      exact FileTree.read_save hread (save_of_store hstore)

/-- A catalog that has been formatted is clean if its target language and the identifiers that it
repeats are settled. -/
theorem format_format_iff (hread : t.read path = .ok text)
    (hparse : Document.parse path text = .ok d) (hnamed : Document.NamesIn text)
    (hfirst : format t layout path package locale true = .ok (t₁, false)) :
    format t₁ layout path package locale true = .ok (t₁, true) ↔
      d.metadata.TargetSettled locale ∧
        (layout.orderById = true → d.RepeatsSettled layout.tabWidth) := by
  obtain ⟨h, hasRead⟩ := Document.parse_sound hparse hnamed
  have hread₁ := read_of_format hread hparse hfirst
  have hnamed₁ := Document.namesIn_render h layout (.resolve d.metadata package locale)
  rw [format_eq_clean_iff hread₁]
  cases hlayout : layout.orderById with
  | false =>
    have hparse₁ := Document.parse_render h hasRead hlayout path (.resolve d.metadata package locale)
    have h₁ := (Document.parse_sound hparse₁ hnamed₁).1
    simp only [hparse₁, Except.ok.injEq, exists_eq_left', Bool.false_eq_true, false_implies,
      and_true]
    rw [← Header.attributes_resolve_resolve_iff d.metadata package locale]
    constructor
    · intro heq
      exact Document.attributes_eq_of_render h h₁ heq rfl
    · intro hheader
      rw [← Document.render_reread h hasRead hlayout]
      exact Document.render_congr hheader rfl rfl rfl
  | true =>
    have hparse₁ := Document.parse_render_sorted h hasRead hlayout path
      (.resolve d.metadata package locale)
    simp only [forall_const]
    -- sorting moves the foreign nodes to the front, where a repeated unit is read as the first
    cases hps : readParts bodyVerdict [] (d.foreignNodes.map (Node.reread layout.tabWidth 3)) with
    | none =>
      rw [hps] at hparse₁
      simp [hparse₁, Document.RepeatsSettled, hps]
    | some ps =>
      rw [hps] at hparse₁
      obtain ⟨h₁, hasRead₁⟩ := Document.parse_sound hparse₁ hnamed₁
      simp only [hparse₁, Except.ok.injEq, exists_eq_left', Document.RepeatsSettled, hps,
        Option.some.injEq]
      rw [Document.render_resorted_iff h hasRead hlayout hps h₁ hasRead₁,
        Document.foreignNodes_resorted, ← Header.attributes_resolve_resolve_iff d.metadata package]
      exact Iff.rfl

end Format

/-- A target language that is there but empty is filled in by the second run only. -/
theorem format_format_iff_empty_target :
    ∃ t₁, format (.put .empty ["app.xlf"] (.text "<x><file target-language=''/></x>")) ⟨2, false⟩
        "/app.xlf" "app" "de" true = .ok (t₁, false) ∧
      format t₁ ⟨2, false⟩ "/app.xlf" "app" "de" true ≠ .ok (t₁, true) := by
  have hread : (FileTree.put .empty ["app.xlf"] (.text "<x><file target-language=''/></x>")).read
      "/app.xlf" = .ok "<x><file target-language=''/></x>" := by decide +kernel
  have hreadable : Document.isReadable "<x><file target-language=''/></x>" = true := by
    decide +kernel
  obtain ⟨d, hd, hnamed⟩ := Document.exists_parse "/app.xlf" hreadable
  have hmetadata : d.metadata = { targetLanguage := some "" } := by
    have hsome : (Document.parse "/app.xlf" "<x><file target-language=''/></x>").toOption.map
        Document.metadata = some { targetLanguage := some "" } := by decide +kernel
    rw [hd] at hsome
    exact Option.some.inj hsome
  have hdirty : (format (.put .empty ["app.xlf"] (.text "<x><file target-language=''/></x>"))
      ⟨2, false⟩ "/app.xlf" "app" "de" true).toOption.map Prod.snd = some false := by
    decide +kernel
  obtain ⟨⟨t₁, clean⟩, hfirst, rfl⟩ := Option.map_eq_some_iff.1 hdirty
  have hfirst := eq_ok_of_toOption hfirst
  refine ⟨t₁, hfirst, ?_⟩
  intro hclean
  obtain ⟨hsettled, -⟩ := (format_format_iff hread hd hnamed hfirst).1 hclean
  rw [hmetadata] at hsettled
  exact absurd (hsettled rfl) (by decide +kernel)

end Catalog

end TranslationAudit

import Mathlib.Data.List.Basic
import TranslationAudit.Catalog.Merge
import TranslationAudit.Proofs.Collection.Dict
import TranslationAudit.Proofs.Text.Cut

/-! # Texts that were merged

* `catalogName_inj`: the names of catalogs tell them apart if packages have no colon.
* `Pool.merge_filter`: texts are merged from the catalogs of one name only.
* `Pool.head?_merge`: the most specific text of a unit is the catalog's own.
-/

namespace TranslationAudit

theorem Locale.chain?_eq_some {fallbacks locales : List String} {locale : String}
    (h : chain? fallbacks locale = some locales) : ∃ rest, locales = locale :: rest := by
  unfold chain? at h
  split at h
  · cases h
    refine List.foldlRecOn (motive := fun ls => ∃ rest, ls = locale :: rest) fallbacks _
      ⟨_, rfl⟩ ?_
    rintro _ ⟨rest, rfl⟩ fallback -
    unfold addFallback
    split
    · exact ⟨rest, rfl⟩
    · exact ⟨rest ++ [fallback], rfl⟩
  · cases h

theorem Locale.chain?_eq_none_iff {fallbacks : List String} {locale : String} :
    chain? fallbacks locale = none ↔ isLocale locale = false := by
  unfold chain?
  cases isLocale locale <;> simp

namespace Catalog

theorem catalogName_inj {p q s t : String} (hp : ':' ∉ p.toList) (hq : ':' ∉ q.toList)
    (h : catalogName p s = catalogName q t) : p = q ∧ s = t := by
  have hchars : p.toList ++ ':' :: s.toList = q.toList ++ ':' :: t.toList := by
    simpa [catalogName] using congrArg String.toList h
  have hcut := congrArg (Text.cutAt? ':') hchars
  rw [Text.cutAt?_append hp, Text.cutAt?_append hq, Option.some.injEq, Prod.mk.injEq] at hcut
  exact ⟨String.toList_inj.1 hcut.1, String.toList_inj.1 hcut.2⟩

namespace Pool

variable {catalogs : List LoadedCatalog} {fallbacks : List String} {name locale : String}

theorem get?_ofCatalogs (catalogs : List LoadedCatalog) (fallbacks : List String)
    (locale name : String) :
    (ofCatalogs catalogs fallbacks).catalogs.get? (locale, name) =
      ((catalogs.filter fun c => c.location.locale = locale ∧ c.name = name).filterMap
        textsOf?).getLast?.map Prod.snd := by
  rw [ofCatalogs, Dict.get?_ofList, List.filter_filterMap, List.filterMap_filter]
  congr 2
  apply List.filterMap_congr
  intro c _
  unfold textsOf?
  cases c.document with
  | error e => simp
  | ok d => simp [Option.filter, Prod.ext_iff]

theorem merge_congr {pool pool' : Pool} (hfallbacks : pool.fallbacks = pool'.fallbacks)
    (h : ∀ l, pool.catalogs.get? (l, name) = pool'.catalogs.get? (l, name)) :
    pool.merge name locale = pool'.merge name locale := by
  unfold merge chain
  simp only [hfallbacks, h]

/-- Texts are merged from the catalogs of one name only. -/
theorem merge_filter {q : LoadedCatalog → Bool}
    (hq : ∀ c ∈ catalogs, c.name = name → q c = true) :
    (ofCatalogs (catalogs.filter q) fallbacks).merge name locale =
      (ofCatalogs catalogs fallbacks).merge name locale := by
  refine merge_congr rfl fun l => ?_
  rw [get?_ofCatalogs, get?_ofCatalogs, List.filter_filter]
  congr 3
  apply List.filter_congr
  intro c hc
  by_cases hname : c.name = name
  · simp [hq c hc hname]
  · simp [hname]

/-! ## A catalog's own texts -/

theorem head?_addTexts (units : List (String × Texts)) (merged : Dict String (List Texts))
    (id : String) :
    ((units.foldl addTexts merged).get? id).bind List.head? =
      ((merged.get? id).bind List.head?).or (units.lookup id) := by
  induction units generalizing merged with
  | nil => simp
  | cons unit units ih =>
    rw [List.foldl_cons, ih, addTexts, Dict.get?_insert, Dict.lookup_cons_eq_ite]
    by_cases hid : id = unit.1
    · subst hid
      cases merged.get? unit.1 with
      | none => simp
      | some known => cases known <;> simp
    · simp [hid]

theorem lookup_texts (units : List (String × TransUnit)) (id : String) :
    (units.map fun (id, u) => (id, u.texts)).lookup id = (units.lookup id).map TransUnit.texts := by
  induction units with
  | nil => rfl
  | cons unit units ih =>
    rw [List.map_cons, Dict.lookup_cons_eq_ite, Dict.lookup_cons_eq_ite, ih]
    by_cases hid : id = unit.1 <;> simp [hid]

/-- What is found of the only catalog of its name in its locale are its units. -/
theorem get?_own {c : LoadedCatalog} {d : Document} (hc : c ∈ catalogs) (hd : c.document = .ok d)
    (honly : ∀ c' ∈ catalogs, c'.location.locale = c.location.locale → c'.name = c.name → c' = c) :
    (ofCatalogs catalogs fallbacks).catalogs.get? (c.location.locale, c.name) =
      some (d.concreteUnits.map fun (id, u) => (id, u.texts)) := by
  rw [get?_ofCatalogs]
  have htexts : textsOf? c = some ((c.location.locale, c.name),
      d.concreteUnits.map fun (id, u) => (id, u.texts)) := by
    rw [textsOf?, hd]
  have hmem : c ∈ catalogs.filter fun c' =>
      c'.location.locale = c.location.locale ∧ c'.name = c.name :=
    List.mem_filter.2 ⟨hc, by simp⟩
  have hne := List.ne_nil_of_mem (List.mem_filterMap.2 ⟨c, hmem, htexts⟩)
  obtain ⟨last, hlast⟩ := Option.ne_none_iff_exists'.1 (mt List.getLast?_eq_none_iff.1 hne)
  obtain ⟨c', hc', heq⟩ := List.mem_filterMap.1 (List.mem_of_getLast? hlast)
  obtain ⟨hc', hsame⟩ := List.mem_filter.1 hc'
  obtain ⟨hlocale, hname⟩ := of_decide_eq_true hsame
  rw [honly c' hc' hlocale hname, htexts] at heq
  cases heq
  rw [hlast]
  rfl

/-- The most specific text of a unit is the catalog's own. -/
theorem head?_merge {c : LoadedCatalog} {d : Document} (hc : c ∈ catalogs)
    (hd : c.document = .ok d)
    (honly : ∀ c' ∈ catalogs, c'.location.locale = c.location.locale → c'.name = c.name → c' = c)
    {merged : Dict String (List Texts)}
    (h : (ofCatalogs catalogs fallbacks).merge c.name c.location.locale = .ok merged)
    {id : String} {u : TransUnit} (hu : d.concreteUnits.lookup id = some u) :
    (merged.get? id).bind List.head? = some u.texts := by
  unfold merge chain at h
  cases hchain : Locale.chain? (ofCatalogs catalogs fallbacks).fallbacks c.location.locale with
  | none =>
    rw [hchain] at h
    cases h
  | some locales =>
    rw [hchain] at h
    cases h
    obtain ⟨rest, rfl⟩ := Locale.chain?_eq_some hchain
    rw [head?_addTexts, List.flatMap_cons, get?_own hc hd honly, Option.getD_some,
      List.lookup_append, lookup_texts, hu]
    rfl

end Pool

end Catalog

end TranslationAudit

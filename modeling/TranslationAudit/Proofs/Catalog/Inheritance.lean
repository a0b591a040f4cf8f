import TranslationAudit.Proofs.Catalog.Pool
import TranslationAudit.Proofs.Locale

/-! # Texts along a locale chain

* `textsIn`: the texts that the catalogs of a name hold in a locale.
* `Pool.get?_foldl_addTexts`: texts that are added one after the other are kept in their order.
* `Pool.merge_inherits`: what a locale sees of a catalog are the texts of its chain.
-/

namespace TranslationAudit.Catalog

/-- The texts of the units of a catalog that could be read, with their identifiers. -/
def LoadedCatalog.unitTexts (c : LoadedCatalog) : List (String × Texts) :=
  match c.document with
  | .error _ => []
  | .ok d => d.concreteUnits.map fun (id, u) => (id, u.texts)

/-- The texts that the catalogs of a name hold in a locale. -/
def textsIn (catalogs : List LoadedCatalog) (name locale : String) : List (String × Texts) :=
  (catalogs.filter fun c => c.location.locale = locale ∧ c.name = name).flatMap
    LoadedCatalog.unitTexts

/-- Catalogs that differ in their locale or their name. -/
def Apart (catalogs : List LoadedCatalog) : Prop :=
  (catalogs.map fun c => (c.location.locale, c.name)).Nodup

variable {catalogs : List LoadedCatalog} {fallbacks chain : List String} {name locale : String}

theorem mem_map_fst_unitTexts {c : LoadedCatalog} {id : String} :
    id ∈ c.unitTexts.map Prod.fst ↔
      ∃ d, c.document = .ok d ∧ id ∈ d.concreteUnits.map Prod.fst := by
  rw [LoadedCatalog.unitTexts]
  cases c.document with
  | error e => simp
  | ok d => simp

/-- At most one catalog has a given locale and name. -/
theorem Apart.filter_eq (h : Apart catalogs) (name locale : String) :
    (catalogs.filter fun c => c.location.locale = locale ∧ c.name = name) = [] ∨
      ∃ c, (catalogs.filter fun c => c.location.locale = locale ∧ c.name = name) = [c] := by
  induction catalogs with
  | nil => exact .inl rfl
  | cons c catalogs ih =>
    rw [Apart, List.map_cons, List.nodup_cons] at h
    by_cases hc : c.location.locale = locale ∧ c.name = name
    · refine .inr ⟨c, ?_⟩
      have hothers : (catalogs.filter fun c => c.location.locale = locale ∧ c.name = name) = [] := by
        refine List.filter_eq_nil_iff.2 fun other hother hsame => h.1 ?_
        obtain ⟨hlocale, hname⟩ := of_decide_eq_true hsame
        refine List.mem_map.2 ⟨other, hother, ?_⟩
        rw [hlocale, hname, hc.1, hc.2]
      rw [List.filter_cons, if_pos (decide_eq_true hc), hothers]
    · rw [List.filter_cons, if_neg (mt of_decide_eq_true hc)]
      exact ih h.2

namespace Pool

theorem get?_eq_textsIn (h : Apart catalogs) (fallbacks : List String) (name locale : String) :
    ((ofCatalogs catalogs fallbacks).catalogs.get? (locale, name)).getD [] =
      textsIn catalogs name locale := by
  rw [get?_ofCatalogs, textsIn]
  obtain hnone | ⟨c, hone⟩ := h.filter_eq name locale
  · rw [hnone]
    rfl
  · rw [hone, List.flatMap_singleton, LoadedCatalog.unitTexts, List.filterMap_cons, textsOf?]
    cases c.document <;> rfl

/-! ## Adding texts -/

/-- Texts that are added one after the other are kept in their order. -/
theorem get?_foldl_addTexts (units : List (String × Texts)) (merged : Dict String (List Texts))
    (id : String) :
    (units.foldl addTexts merged).get? id =
      if units.filter (·.1 = id) = [] then merged.get? id
      else some ((merged.get? id).getD [] ++ (units.filter (·.1 = id)).map Prod.snd) := by
  induction units generalizing merged with
  | nil => rfl
  | cons unit units ih =>
    rw [List.foldl_cons, ih, addTexts, Dict.get?_insert]
    by_cases hid : unit.1 = id
    · subst hid
      by_cases hrest : units.filter (·.1 = unit.1) = [] <;> simp [hrest]
    · rw [List.filter_cons, if_neg (mt of_decide_eq_true hid), if_neg (Ne.symm hid)]

theorem mem_map_fst_iff {units : List (String × Texts)} {id : String} :
    id ∈ units.map Prod.fst ↔ units.filter (·.1 = id) ≠ [] := by
  simp [List.filter_eq_nil_iff]

theorem mem_keys_foldl_addTexts {units : List (String × Texts)} {id : String} :
    id ∈ (units.foldl addTexts .empty).keys ↔ id ∈ units.map Prod.fst := by
  rw [← Dict.contains_iff, Dict.contains, get?_foldl_addTexts, mem_map_fst_iff]
  split <;> simp [*]

theorem get?_of_mem {units : List (String × Texts)} {id : String} (h : id ∈ units.map Prod.fst) :
    (units.foldl addTexts .empty).get? id = some ((units.filter (·.1 = id)).map Prod.snd) := by
  rw [get?_foldl_addTexts, if_neg (mem_map_fst_iff.1 h)]
  rfl

end Pool

/-! ## What a locale sees -/

/-- What is seen of the catalogs of a name along a chain: the identifiers of the catalogs that could
be read, each with the texts of its units in the order of the chain. -/
structure Inherits (catalogs : List LoadedCatalog) (name : String) (chain : List String)
    (merged : Dict String (List Texts)) : Prop where
  keys : ∀ id, id ∈ merged.keys ↔ ∃ c ∈ catalogs, c.location.locale ∈ chain ∧ c.name = name ∧
    ∃ d, c.document = .ok d ∧ id ∈ d.concreteUnits.map Prod.fst
  texts : ∀ id ∈ merged.keys, merged.get? id =
    some (((chain.flatMap (textsIn catalogs name)).filter (·.1 = id)).map Prod.snd)

theorem mem_map_fst_flatMap_textsIn {id : String} :
    id ∈ (chain.flatMap (textsIn catalogs name)).map Prod.fst ↔
      ∃ c ∈ catalogs, c.location.locale ∈ chain ∧ c.name = name ∧
        ∃ d, c.document = .ok d ∧ id ∈ d.concreteUnits.map Prod.fst := by
  simp only [← mem_map_fst_unitTexts]
  rw [List.map_flatMap, List.mem_flatMap]
  simp only [textsIn, List.map_flatMap, List.mem_flatMap, List.mem_filter, decide_eq_true_eq]
  constructor
  · rintro ⟨l, hl, c, ⟨hc, rfl, hname⟩, hid⟩
    exact ⟨c, hc, hl, hname, hid⟩
  · rintro ⟨c, hc, hl, hname, hid⟩
    exact ⟨_, hl, c, ⟨hc, rfl, hname⟩, hid⟩

/-- The catalogs of a name in the locales of a chain. -/
def alongChain (chain : List String) (name : String) (catalogs : List LoadedCatalog) :
    List LoadedCatalog :=
  catalogs.filter fun c => c.location.locale ∈ chain ∧ c.name = name

theorem filter_alongChain (hlocale : locale ∈ chain) (catalogs : List LoadedCatalog) :
    ((alongChain chain name catalogs).filter fun c =>
        c.location.locale = locale ∧ c.name = name) =
      catalogs.filter fun c => c.location.locale = locale ∧ c.name = name := by
  rw [alongChain, List.filter_filter]
  refine List.filter_congr fun c _ => ?_
  by_cases hc : c.location.locale = locale ∧ c.name = name
  · simp [hc, hlocale]
  · simp only [hc, decide_false, Bool.false_and]

namespace Pool

theorem chain_ofCatalogs (catalogs : List LoadedCatalog) (fallbacks : List String)
    (locale : String) :
    (ofCatalogs catalogs fallbacks).chain locale =
      (Locale.chain? fallbacks locale).elim (.error ⟨locale⟩) .ok := by
  have hfallbacks : (ofCatalogs catalogs fallbacks).fallbacks = fallbacks := rfl
  rw [Pool.chain, hfallbacks]
  cases Locale.chain? fallbacks locale <;> rfl

theorem merge_of_chain {pool : Pool} (h : pool.chain locale = .ok chain) :
    pool.merge name locale =
      .ok ((chain.flatMap fun l => (pool.catalogs.get? (l, name)).getD []).foldl addTexts .empty) := by
  rw [merge, h]
  rfl

/-- Only the catalogs of a name in the locales of the chain are looked up. -/
theorem merge_congr_alongChain {others : List LoadedCatalog}
    (h : ∀ catalogs, (ofCatalogs catalogs fallbacks).chain locale = .ok chain)
    (hothers : alongChain chain name others = alongChain chain name catalogs) :
    (ofCatalogs others fallbacks).merge name locale =
      (ofCatalogs catalogs fallbacks).merge name locale := by
  rw [merge_of_chain (h others), merge_of_chain (h catalogs)]
  have hunits : ∀ l ∈ chain, ((ofCatalogs others fallbacks).catalogs.get? (l, name)).getD [] =
      ((ofCatalogs catalogs fallbacks).catalogs.get? (l, name)).getD [] := by
    intro l hl
    rw [get?_ofCatalogs, get?_ofCatalogs, ← filter_alongChain hl others, hothers,
      filter_alongChain hl]
  rw [List.flatMap_congr hunits]

/-- A locale sees the texts of its chain, and no other catalog matters. What is no locale has no
chain. -/
theorem merge_inherits (h : Apart catalogs) (fallbacks : List String) (name locale : String) :
    (Locale.isLocale locale = true → ∃ chain merged,
      (ofCatalogs catalogs fallbacks).chain locale = .ok chain ∧
      Locale.IsChain fallbacks locale chain ∧
      (ofCatalogs catalogs fallbacks).merge name locale = .ok merged ∧
      Inherits catalogs name chain merged ∧
      ∀ others, alongChain chain name others = alongChain chain name catalogs →
        (ofCatalogs others fallbacks).merge name locale = .ok merged) ∧
    (Locale.isLocale locale = false →
      (ofCatalogs catalogs fallbacks).chain locale = .error ⟨locale⟩ ∧
      (ofCatalogs catalogs fallbacks).merge name locale = .error ⟨locale⟩) := by
  refine ⟨fun hlocale => ?_, fun hrejected => ?_⟩
  · obtain ⟨chain, hsome, hchain⟩ := Locale.chain?_isChain fallbacks hlocale
    have hread (catalogs : List LoadedCatalog) :
        (ofCatalogs catalogs fallbacks).chain locale = .ok chain := by
      rw [chain_ofCatalogs, hsome, Option.elim_some]
    have hmerge : (ofCatalogs catalogs fallbacks).merge name locale =
        .ok ((chain.flatMap (textsIn catalogs name)).foldl addTexts .empty) := by
      simp only [merge_of_chain (hread catalogs), get?_eq_textsIn h]
    refine ⟨chain, _, hread catalogs, hchain, hmerge, ⟨fun id => ?_, fun id hid => ?_⟩, ?_⟩
    · exact mem_keys_foldl_addTexts.trans mem_map_fst_flatMap_textsIn
    · exact get?_of_mem (mem_keys_foldl_addTexts.1 hid)
    · intro others hothers
      rw [merge_congr_alongChain hread hothers, hmerge]
  · have hread : (ofCatalogs catalogs fallbacks).chain locale = .error ⟨locale⟩ := by
      rw [chain_ofCatalogs, Locale.chain?_eq_none_iff.2 hrejected, Option.elim_none]
    refine ⟨hread, ?_⟩
    rw [merge, hread]
    rfl

/-- A catalog of single units with a target each. -/
def targets (locale : String) (units : List (String × String)) : LoadedCatalog where
  path := locale
  location := ⟨locale, "Acme.Site", "Main"⟩
  document := .ok { units := ⟨units.map fun (id, target) => (id, .single { target })⟩ }

/-- A region, its language, a fallback that could not be read, and a locale of no concern. -/
def regions : List LoadedCatalog :=
  [targets "de_CH" [("a", "Zürich")], targets "de" [("b", "Bern"), ("a", "Berlin")],
    ⟨"en", ⟨"en", "Acme.Site", "Main"⟩, .error (.empty "en")⟩, targets "fr" [("c", "Paris")]]

theorem merge_inherits_regions :
    Apart regions ∧ Locale.isLocale "de_CH-1901" = true ∧
      ∃ merged, (ofCatalogs regions ["en", "de", "en"]).chain "de_CH-1901" =
          .ok ["de_CH-1901", "de_CH", "de", "en"] ∧
        (ofCatalogs regions ["en", "de", "en"]).merge "Acme.Site:Main" "de_CH-1901" = .ok merged ∧
        Inherits regions "Acme.Site:Main" ["de_CH-1901", "de_CH", "de", "en"] merged ∧
        merged.get? "a" = some [⟨none, some "Zürich"⟩, ⟨none, some "Berlin"⟩] ∧
        "c" ∉ merged.keys := by
  have hapart : Apart regions := by
    rw [Apart]
    decide
  have hlocale : Locale.isLocale "de_CH-1901" = true := by decide
  obtain ⟨chain, merged, hread, -, hmerge, hinherits, -⟩ :=
    (merge_inherits hapart ["en", "de", "en"] "Acme.Site:Main" "de_CH-1901").1 hlocale
  obtain rfl : ["de_CH-1901", "de_CH", "de", "en"] = chain := Except.ok.inj hread
  have hmerged := Except.ok.inj hmerge
  refine ⟨hapart, hlocale, merged, hread, hmerge, hinherits, ?_, ?_⟩
  · rw [← hmerged]
    decide
  · rw [← hmerged]
    decide

end Pool

end TranslationAudit.Catalog

import TranslationAudit.Markup.Render
import TranslationAudit.Markup.Piece
import TranslationAudit.Proofs.Markup.Entity
import TranslationAudit.Proofs.Markup.Name

/-! # Tags read back

* `toList_tagText`: a tag as it is written.
* `readTag_tagText`: its name and its attributes are read as they were.
* `Passes.tagText`, `Passes.cutTag?`: it ends where its bracket closes it, whatever its values hold.
* `nodup_of_readTag`: a tag that can be read names each attribute once.
-/

namespace TranslationAudit.Markup

/-! ## Tags as they are written -/

/-- An attribute as it is written. -/
def attributeText (a : String × String) : List Char :=
  a.1.toList ++ '=' :: '"' :: escaped a.2.toList ++ ['"']

/-- Attributes as they are written behind a name. -/
def attributesText (attributes : List (String × String)) : List Char :=
  attributes.flatMap fun a => ' ' :: attributeText a

theorem toList_formatAttributes (a : String × String) (as : List (String × String)) :
    ' ' :: (formatAttributes (a :: as)).toList = attributesText (a :: as) := by
  have one (b : String × String) :
      (b.1 ++ "=\"" ++ escape b.2 ++ "\"").toList = attributeText b := by
    simp [attributeText, toList_escape]
  induction as generalizing a with
  | nil => simp [formatAttributes, attributesText, attributeText, toList_escape]
  | cons b as ih =>
    have hb := ih b
    simp only [formatAttributes, List.map_cons, String.intercalate_cons_cons,
      String.toList_append, one] at hb ⊢
    rw [attributesText, List.flatMap_cons, ← attributesText, ← hb]
    simp

theorem toList_tagText (name : String) (attributes : List (String × String)) :
    (tagText name attributes).toList = name.toList ++ attributesText attributes := by
  cases attributes with
  | nil => simp [tagText, attributesText]
  | cons a as => simp [tagText, ← toList_formatAttributes]

/-! ## Reading the attributes -/

theorem lookup_eq_none_of_not_mem {name : List Char} {seen : List (List Char × Nat)}
    (h : name ∉ seen.map Prod.fst) : previous? name seen = none := by
  rw [previous?, List.lookup_eq_none_iff]
  intro p hp
  have hne : name ≠ p.1 := fun e => h (e ▸ List.mem_map_of_mem hp)
  simpa using hne

theorem isSpace_eq_false_of_isName {s : String} (h : isName s = true) :
    ∀ c ∈ s.toList, isSpace c = false := by
  intro c hc
  have hne {d : Char} (hd : d ∈ tagMarks) : c ≠ d := ne_of_isName h hc hd
  simp [isSpace, hne (d := ' ') (by decide), hne (d := '\t') (by decide),
    hne (d := '\n') (by decide), hne (d := '\r') (by decide)]

theorem cutName_append {name : String} (h : isName name = true) (r : List Char) :
    cutName (name.toList ++ '=' :: r) = (name.toList, '=' :: r) := by
  obtain ⟨c, t, hs⟩ := List.exists_cons_of_ne_nil (toList_ne_nil_of_isName h)
  have inName : ∀ d ∈ t, (decide (d ≠ '=') && !isSpace d) = true := by
    intro d hd
    have hm : d ∈ name.toList := by simp [hs, hd]
    simp [isSpace_eq_false_of_isName h d hm, ne_of_isName h hm (d := '=') (by decide)]
  have stop : (decide ('=' ≠ '=') && !isSpace '=') = false := by decide
  rw [hs, List.cons_append, cutName]
  simp only [Text.takeWhile_append_cons inName stop, Text.dropWhile_append_cons inName stop]

theorem cutAttribute_append {a : String × String} (h : isName a.1 = true) (total : Nat)
    {seen : List (List Char × Nat)} (hseen : a.1.toList ∉ seen.map Prod.fst) (r : List Char) :
    cutAttribute total seen (attributeText a ++ r) =
      .ok (a.1.toList, escaped a.2.toList, r) := by
  have quote : '"' ∉ escaped a.2.toList := not_mem_escaped (by decide) (by decide)
  have hcut : cutName (attributeText a ++ r) =
      (a.1.toList, '=' :: '"' :: escaped a.2.toList ++ '"' :: r) := by
    have hname := cutName_append h ('"' :: escaped a.2.toList ++ '"' :: r)
    simpa [attributeText] using hname
  have equals : afterEquals total ('=' :: '"' :: escaped a.2.toList ++ '"' :: r) =
      .ok ('"' :: escaped a.2.toList ++ '"' :: r) := by
    simp [afterEquals, show isSpace '=' = false by decide]
  have value : cutValue total ('"' :: escaped a.2.toList ++ '"' :: r) =
      .ok (escaped a.2.toList, r) := by
    simp [cutValue, show isSpace '"' = false by decide, Text.cutAt?_append quote]
  rw [cutAttribute, hcut]
  simp only [equals, lookup_eq_none_of_not_mem hseen, value]

theorem readAttributesFrom_attributesText {attributes : List (String × String)}
    (h : AttributesNamed attributes) (total : Nat) (seen : List (List Char × Nat))
    (hseen : ∀ a ∈ attributes, a.1.toList ∉ seen.map Prod.fst) :
    readAttributesFrom total seen (attributesText attributes) = .ok attributes := by
  induction attributes generalizing seen with
  | nil => simp [attributesText, readAttributesFrom]
  | cons a as ih =>
    have hname := h.names a List.mem_cons_self
    have hnodup := h.nodup
    rw [List.map_cons, List.nodup_cons] at hnodup
    obtain ⟨hfresh, hrest⟩ := hnodup
    obtain ⟨c, t, hs⟩ := List.exists_cons_of_ne_nil (toList_ne_nil_of_isName hname)
    have hc : isSpace c = false := isSpace_eq_false_of_isName hname c (by simp [hs])
    obtain ⟨u, hu⟩ : ∃ u, attributeText a ++ attributesText as = c :: u := by
      simp [attributeText, hs]
    have htext : attributesText (a :: as) = ' ' :: c :: u := by
      rw [← hu, attributesText, List.flatMap_cons, List.cons_append, ← attributesText]
    have hdrop : (' ' :: c :: u).dropWhile isSpace = c :: u := by
      simp [hc, show isSpace ' ' = true by decide]
    have hcut := cutAttribute_append hname total (hseen a List.mem_cons_self) (attributesText as)
    have hshorter : (attributesText as).length < (' ' :: c :: u).length := by
      rw [← hu, List.length_cons, List.length_append]
      omega
    have hothers := ih (h.of_sublist (List.sublist_cons_self a as))
      ((a.1.toList, total - byteCount (c :: u)) :: seen) (by
        intro b hb
        rw [List.map_cons, List.mem_cons, not_or]
        refine ⟨?_, hseen b (List.mem_cons_of_mem a hb)⟩
        intro e
        exact hfresh (String.toList_inj.1 e ▸ List.mem_map_of_mem hb))
    rw [hu] at hcut
    rw [htext, readAttributesFrom]
    simp only [hdrop, hcut, unescape_escaped, hshorter, if_true, hothers, String.ofList_toList]

/-- A tag is read as it was written. -/
theorem readTag_tagText {name : String} (hname : isName name = true)
    {attributes : List (String × String)} (h : AttributesNamed attributes) :
    readTag (tagText name attributes).toList = .ok (name, attributes) := by
  have inName : ∀ c ∈ name.toList, (!isSpace c) = true := by
    intro c hc
    simp [isSpace_eq_false_of_isName hname c hc]
  have htake : ((tagText name attributes).toList.takeWhile fun c => !isSpace c) =
      name.toList := by
    rw [toList_tagText]
    cases attributes with
    | nil =>
      rw [attributesText, List.flatMap_nil, List.takeWhile_append_of_pos inName]
      simp
    | cons a as =>
      rw [attributesText, List.flatMap_cons, List.cons_append]
      exact Text.takeWhile_append_cons inName (by decide) _
  have hdrop : (tagText name attributes).toList.drop name.toList.length =
      attributesText attributes := by
    rw [toList_tagText, List.drop_left]
  simp only [readTag, htake, hdrop, readAttributesFrom_attributesText h _ [] (by simp),
    String.ofList_toList]

/-! ## The end of a tag -/

/-- A text that leaves the reading of a tag outside quotes and within the tag. -/
def Passes (x : List Char) : Prop :=
  ∀ s, cutTag? none (x ++ s) = (cutTag? none s).map fun (a, b) => (x ++ a, b)

theorem Passes.nil : Passes [] := by
  intro s
  simp

theorem Passes.append {x y : List Char} (hx : Passes x) (hy : Passes y) : Passes (x ++ y) := by
  intro s
  rw [List.append_assoc, hx, hy, Option.map_map]
  congr 1
  funext p
  simp

theorem Passes.of_no_marks {x : List Char} (h : ∀ c ∈ x, c ≠ '>' ∧ c ≠ '"' ∧ c ≠ '\'') :
    Passes x := by
  induction x with
  | nil => exact Passes.nil
  | cons c x ih =>
    obtain ⟨h1, h2, h3⟩ := h c List.mem_cons_self
    have hx := ih fun d hd => h d (List.mem_cons_of_mem c hd)
    intro s
    simp only [List.cons_append, cutTag?, h1, h2, h3, if_false, or_self, hx s, Option.map_map]
    rfl

theorem cutTag?_quoted {q : Char} {x : List Char} (h : q ∉ x) (s : List Char) :
    cutTag? (some q) (x ++ q :: s) =
      (cutTag? none s).map fun (a, b) => (x ++ q :: a, b) := by
  induction x with
  | nil => simp [cutTag?]
  | cons c x ih =>
    have hc : c ≠ q := fun e => h (e ▸ List.mem_cons_self)
    have hx := ih fun hm => h (List.mem_cons_of_mem c hm)
    simp only [List.cons_append, cutTag?, hc, if_false, hx, Option.map_map]
    rfl

theorem Passes.quoted {x : List Char} (h : '"' ∉ x) : Passes ('"' :: x ++ ['"']) := by
  intro s
  have hx := cutTag?_quoted h s
  simp only [List.cons_append, List.append_assoc, List.nil_append, cutTag?, true_or,
    if_true, hx, Option.map_map, show ('"' = '>') = False by decide, if_false]
  rfl

theorem Passes.of_isName {s : String} (h : isName s = true) : Passes s.toList :=
  Passes.of_no_marks fun _ hc => ⟨ne_of_isName h hc (by decide), ne_of_isName h hc (by decide),
    ne_of_isName h hc (by decide)⟩

theorem Passes.attributeText {a : String × String} (h : isName a.1 = true) :
    Passes (attributeText a) := by
  have hquoted := Passes.quoted (x := escaped a.2.toList)
    (not_mem_escaped (by decide) (by decide))
  have hequals : Passes ['='] := Passes.of_no_marks (by simp)
  have h := (Passes.of_isName h).append (hequals.append hquoted)
  simpa [Markup.attributeText] using h

theorem Passes.attributesText {attributes : List (String × String)}
    (h : ∀ a ∈ attributes, isName a.1 = true) : Passes (attributesText attributes) := by
  induction attributes with
  | nil => exact Passes.nil
  | cons a as ih =>
    have hspace : Passes [' '] := Passes.of_no_marks (by simp)
    have hfirst := hspace.append (Passes.attributeText (h a List.mem_cons_self))
    have h := hfirst.append (ih fun b hb => h b (List.mem_cons_of_mem a hb))
    simpa [Markup.attributesText] using h

theorem Passes.tagText {name : String} (hname : isName name = true)
    {attributes : List (String × String)} (h : AttributesNamed attributes) :
    Passes (tagText name attributes).toList := by
  rw [toList_tagText]
  exact (Passes.of_isName hname).append (Passes.attributesText h.names)

theorem Passes.cutTag? {x : List Char} (h : Passes x) (r : List Char) :
    cutTag? none (x ++ '>' :: r) = some (x, r) := by
  rw [h]
  simp [Markup.cutTag?]

/-! ## Names of attributes that were read -/

theorem not_mem_of_cutAttribute {total : Nat} {seen : List (List Char × Nat)}
    {s name value rest : List Char} (h : cutAttribute total seen s = .ok (name, value, rest)) :
    name ∉ seen.map Prod.fst := by
  rw [cutAttribute] at h
  obtain ⟨cut, left⟩ := cutName s
  simp only at h
  split at h
  · simp at h
  · split at h
    · simp at h
    · next hnone =>
      split at h
      · simp at h
      · cases h
        intro hm
        obtain ⟨p, hp, hname⟩ := List.mem_map.1 hm
        rw [previous?, List.lookup_eq_none_iff] at hnone
        simpa [hname] using hnone p hp

theorem nodup_of_readAttributesFrom {total : Nat} {seen : List (List Char × Nat)}
    {s : List Char} {attributes : List (String × String)}
    (h : readAttributesFrom total seen s = .ok attributes) :
    (attributes.map Prod.fst).Nodup ∧ ∀ a ∈ attributes, a.1.toList ∉ seen.map Prod.fst := by
  fun_induction readAttributesFrom total seen s generalizing attributes with
  | case1 =>
    cases h
    simp
  | case2 => simp at h
  | case3 => simp at h
  | case4 => simp at h
  | case5 seen s c r hdrop name value rest hcut v hv hshorter others hothers ih =>
    cases h
    have hfresh := not_mem_of_cutAttribute hcut
    obtain ⟨hnodup, hseen⟩ := ih hothers
    have apart : ∀ a ∈ others, a.1.toList ≠ name ∧ a.1.toList ∉ seen.map Prod.fst := by
      intro a ha
      have := hseen a ha
      rwa [List.map_cons, List.mem_cons, not_or] at this
    refine ⟨?_, ?_⟩
    · rw [List.map_cons, List.nodup_cons]
      refine ⟨?_, hnodup⟩
      intro hm
      obtain ⟨a, ha, hname⟩ := List.mem_map.1 hm
      exact (apart a ha).1 (by rw [hname, String.toList_ofList])
    · intro a ha
      rcases List.mem_cons.1 ha with rfl | ha
      · simpa using hfresh
      · exact (apart a ha).2
  | case6 seen s c r hdrop name value rest hcut v hv =>
    cases h
    simpa using not_mem_of_cutAttribute hcut

/-- A tag that can be read names each attribute once. -/
theorem nodup_of_readTag {content : List Char} {name : String}
    {attributes : List (String × String)} (h : readTag content = .ok (name, attributes)) :
    (attributes.map Prod.fst).Nodup := by
  simp only [readTag] at h
  split at h
  · simp at h
  · next as hread =>
    cases h
    exact (nodup_of_readAttributesFrom hread).1

end TranslationAudit.Markup

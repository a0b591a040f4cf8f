import TranslationAudit.Proofs.Message.Resolve
import TranslationAudit.Proofs.Text.Blank
import TranslationAudit.Proofs.Text.Cut

/-! # One spelling for each key

* `Key.ofParts?`: the key of a package, a source and an identifier once it is known which they are.
* `Key.IsResolved`: the keys that are found this way.
* `resolveKey_shorthand`: what is written before an identifier stands for what is given apart from
  it.
* `resolveKey_spellings`: each key has one spelling, which both ways of writing it lead to.
-/

namespace TranslationAudit

variable {c : Char} {s i : List Char} {k : Key} {identifier p : String}
variable {package source : Option String}

/-! ## Parts of a key -/

/-- The key of known parts, unless package or identifier is blank. -/
def Key.ofParts? (package : String) (source : Option String) (id : List Char) : Option Key :=
  if (Text.trim id).isEmpty || (Text.trimmed package).isEmpty then none
  else some ⟨Text.trimmed package, normalizeSource source, String.ofList (Text.trim id)⟩

/-- An identifier that is no shorthand names no package and no source. -/
theorem resolveKey_of_plain (h : splitShorthand (Text.trim identifier.toList) = none) :
    resolveKey identifier package source =
      Key.ofParts? (package.getD "") source identifier.toList := by
  simp only [resolveKey, h]
  rfl

theorem resolveKey_of_shorthand {q : String}
    (h : splitShorthand (Text.trim identifier.toList) = some (p, q, i)) :
    resolveKey identifier package source =
      Key.ofParts? (givenOr package p) (some (givenOr source q)) i := by
  simp only [resolveKey, h]
  rfl

/-! ## Resolved keys -/

/-- A key whose parts are trimmed and whose source is folded. -/
structure Key.IsResolved (k : Key) : Prop where
  package_ne : k.package ≠ ""
  package_trimmed : Text.trimmed k.package = k.package
  id_ne : k.id ≠ ""
  id_trimmed : Text.trimmed k.id = k.id
  source_name : IsSourceName k.source
  source_colon : ':' ∉ k.source.toList
  source_folded : foldSource k.source = k.source

/-- Folding brings in dots, and the name that stands for an empty one. -/
theorem mem_foldSource {path : String} (h : c ∈ (foldSource path).toList) :
    c ∈ path.toList ∨ c = '.' ∨ c ∈ Key.defaultSource.toList := by
  unfold foldSource at h
  dsimp only at h
  split at h
  · exact .inr (.inr h)
  · rw [String.toList_ofList] at h
    obtain ⟨d, hd, rfl⟩ := List.mem_map.1 ((Text.stripWhile_isInfix _ _).subset h)
    split
    · exact .inr (.inl rfl)
    · exact .inl hd

theorem colon_not_mem_normalizeSource (source : Option String) :
    ':' ∉ (normalizeSource source).toList := by
  have hdefault : ':' ∉ Key.defaultSource.toList := by decide
  cases source with
  | none => exact hdefault
  | some source =>
    unfold normalizeSource
    dsimp only
    split
    · exact hdefault
    · intro hcolon
      rcases mem_foldSource hcolon with hhead | hdot | hname
      · rw [String.toList_ofList] at hhead
        simpa using List.mem_takeWhile_imp hhead
      · cases hdot
      · exact hdefault hname

theorem Key.isResolved_of_ofParts? (h : Key.ofParts? p source i = some k) : k.IsResolved := by
  unfold Key.ofParts? at h
  split at h
  · cases h
  · next hne =>
    cases h
    rw [Bool.not_eq_true, Bool.or_eq_false_iff] at hne
    have hsource : IsSourceName (normalizeSource source) := isSourceName_normalizeSource source
    refine ⟨?_, ?_, ?_, ?_, hsource, colon_not_mem_normalizeSource source, hsource.foldSource_self⟩
    · simpa using hne.2
    · rw [Text.trimmed, Text.trimmed, String.toList_ofList, Text.trim_trim]
    · simpa [String.ofList_eq_empty_iff] using hne.1
    · rw [Text.trimmed, String.toList_ofList, Text.trim_trim]

theorem isResolved_of_resolveKey (h : resolveKey identifier package source = some k) :
    k.IsResolved := by
  cases hsplit : splitShorthand (Text.trim identifier.toList) with
  | none =>
    rw [resolveKey_of_plain hsplit] at h
    exact Key.isResolved_of_ofParts? h
  | some parts =>
    obtain ⟨p, q, i⟩ := parts
    rw [resolveKey_of_shorthand hsplit] at h
    exact Key.isResolved_of_ofParts? h

/-! ## Shorthand -/

theorem splitShorthand_join {p q : List Char} (hp : ':' ∉ p) (hq : ':' ∉ q) (i : List Char) :
    splitShorthand (p ++ ':' :: (q ++ ':' :: i)) = some (String.ofList p, String.ofList q, i) := by
  simp only [splitShorthand, Text.cutAt?_append hp, Text.cutAt?_append hq]

theorem splitShorthand_eq_none (h : i.count ':' ≤ 1) : splitShorthand i = none := by
  unfold splitShorthand
  split
  · rfl
  · next p rest hcut =>
    -- a second colon would be one too many
    obtain ⟨rfl, -⟩ := Text.eq_append_of_cutAt? hcut
    rw [List.count_append, List.count_cons_self] at h
    have hrest : ':' ∉ rest := List.count_eq_zero.1 (by omega)
    rw [Text.cutAt?_eq_none hrest]

/-- Around a shorthand only the package's first and the identifier's last blanks are outer ones. -/
theorem trim_join (p q i : List Char) :
    Text.trim (p ++ ':' :: (q ++ ':' :: i)) =
      Text.trimStart p ++ ':' :: (q ++ ':' :: Text.trimEnd i) := by
  have hcolon : Text.isBlank ':' = false := rfl
  rw [Text.trim, Text.stripWhile_append_cons hcolon, Text.dropEndWhile_append_of_neg hcolon]
  rfl

theorem resolveKey_shorthand {package source identifier : String} (hpackage : ':' ∉ package.toList)
    (hsource : ':' ∉ source.toList) (hid : identifier.toList.count ':' ≤ 1) :
    resolveKey (package ++ ":" ++ source ++ ":" ++ identifier) none none =
      resolveKey identifier (some package) (some source) := by
  have hwritten : Text.trim (package ++ ":" ++ source ++ ":" ++ identifier).toList =
      Text.trimStart package.toList ++ ':' :: (source.toList ++ ':' ::
        Text.trimEnd identifier.toList) := by
    rw [← trim_join]
    simp [String.toList_append]
  have hfront : ':' ∉ Text.trimStart package.toList :=
    fun hmem => hpackage ((List.dropWhile_suffix _).subset hmem)
  have hplain : (Text.trim identifier.toList).count ':' ≤ 1 :=
    ((Text.stripWhile_isInfix _ _).sublist.count_le ':').trans hid
  rw [resolveKey_of_shorthand (hwritten ▸ splitShorthand_join hfront hsource _),
    resolveKey_of_plain (splitShorthand_eq_none hplain)]
  unfold Key.ofParts? Text.trimmed givenOr
  rw [String.ofList_toList, Option.getD_some, String.toList_ofList, Text.trim_trimStart,
    Text.trim_trimEnd]

/-- A key that is found has trimmed parts and a folded source. It is the same for a shorthand and
for its parts given apart, whether there is one or not. -/
theorem resolveKey_spellings :
    (∀ identifier package source k, resolveKey identifier package source = some k →
      k.IsResolved) ∧
      ∀ package source identifier : String, ':' ∉ package.toList → ':' ∉ source.toList →
        identifier.toList.count ':' ≤ 1 →
          resolveKey (package ++ ":" ++ source ++ ":" ++ identifier) none none =
            resolveKey identifier (some package) (some source) :=
  ⟨fun _ _ _ _ h => isResolved_of_resolveKey h,
    fun _ _ _ hpackage hsource hid => resolveKey_shorthand hpackage hsource hid⟩

/-- A padded package, a source written as a path and an identifier with a colon of its own. -/
theorem resolveKey_spellings_padded :
    ':' ∉ " Acme.Site ".toList ∧ ':' ∉ "\\Forms/Contact/".toList ∧ "a:b ".toList.count ':' ≤ 1 ∧
      resolveKey " Acme.Site :\\Forms/Contact/:a:b " none none =
        some ⟨"Acme.Site", "Forms.Contact", "a:b"⟩ ∧
      resolveKey "a:b " (some " Acme.Site ") (some "\\Forms/Contact/") =
        some ⟨"Acme.Site", "Forms.Contact", "a:b"⟩ ∧
      (⟨"Acme.Site", "Forms.Contact", "a:b"⟩ : Key).IsResolved := by
  have hpackage : ':' ∉ " Acme.Site ".toList := by decide
  have hsource : ':' ∉ "\\Forms/Contact/".toList := by decide
  have hid : "a:b ".toList.count ':' ≤ 1 := by decide
  have hshorthand : resolveKey " Acme.Site :\\Forms/Contact/:a:b " none none =
      some ⟨"Acme.Site", "Forms.Contact", "a:b"⟩ := by decide
  have hapart := resolveKey_spellings.2 _ _ _ hpackage hsource hid
  exact ⟨hpackage, hsource, hid, hshorthand, hapart.symm.trans hshorthand,
    resolveKey_spellings.1 _ _ _ _ hshorthand⟩

end TranslationAudit

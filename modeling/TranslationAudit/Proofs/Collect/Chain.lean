import Mathlib.Data.List.Infix
import TranslationAudit.Proofs.Collect.Argument

/-! # Chains of method calls

* `Fusion.Suffix`: a method call after a fluent call; `Fusion.cutMethod?_text` reads it.
* `Fusion.Chain`: a fluent call of one string with its method calls. `Fusion.Chain.readFluent_text`
  reads it: of each method the last call counts.
* `Fusion.Alone`: the only token in a text. `Fusion.collectFusion_chain` collects the chain of such
  a token. The chain of a token that begins an inline call as well is read as that call, without its
  methods.
-/

namespace TranslationAudit.Fusion

variable {s r : List Char}

/-! ## Method calls -/

/-- A method call: `.method(arguments)`, with blanks before the dot and the parenthesis. -/
structure Suffix where
  gap : List Char
  method : List Char
  space : List Char
  arguments : List Char
  gap_blank : ∀ c ∈ gap, isSpace c = true
  method_ne : method ≠ []
  letters : ∀ c ∈ method, c.isAlpha = true
  space_blank : ∀ c ∈ space, isSpace c = true
  balanced : Balanced arguments

namespace Suffix

def name (m : Suffix) : String := String.ofList m.method

def text (m : Suffix) : List Char :=
  m.gap ++ '.' :: (m.method ++ (m.space ++ '(' :: (m.arguments ++ [')'])))

end Suffix

theorem not_isAlpha_of_isSpace {c : Char} (h : isSpace c = true) : c.isAlpha = false := by
  simp only [isSpace, Bool.or_eq_true, beq_iff_eq] at h
  rcases h with (((rfl | rfl) | rfl) | rfl) | rfl <;> decide

theorem cutMethod?_text (m : Suffix) (r : List Char) :
    cutMethod? (m.text ++ r) = some (m.name, m.arguments, r) := by
  have hdot : (m.text ++ r).dropWhile isSpace =
      '.' :: (m.method ++ (m.space ++ '(' :: (m.arguments ++ ')' :: r))) := by
    rw [Suffix.text, List.append_assoc, List.cons_append,
      Text.dropWhile_append_cons m.gap_blank (by decide)]
    simp
  have hmethod : (m.method ++ (m.space ++ '(' :: (m.arguments ++ ')' :: r))).takeWhile Char.isAlpha =
      m.method := by
    rw [List.takeWhile_append_of_pos m.letters]
    cases hspace : m.space with
    | nil => simp
    | cons c space =>
      have hc := not_isAlpha_of_isSpace (m.space_blank c (by simp [hspace]))
      simp [hc]
  rw [cutMethod?, hdot]
  simp only [hmethod, List.isEmpty_iff, m.method_ne, if_false, List.drop_left,
    cutCall?_balanced m.space_blank m.balanced]
  rfl

theorem exists_suffix_of_cutMethod? {name : String} {arguments : List Char}
    (h : cutMethod? s = some (name, arguments, r)) :
    ∃ m : Suffix, m.name = name ∧ m.arguments = arguments ∧ s = m.text ++ r := by
  unfold cutMethod? at h
  split at h
  · next rest hrest =>
    dsimp only at h
    split at h
    · cases h
    · next hne =>
      obtain ⟨⟨arguments', left⟩, hcut, heq⟩ := Option.map_eq_some_iff.1 h
      cases heq
      obtain ⟨space, hspace, hbalanced, hlist⟩ := exists_of_cutCall? hcut
      refine ⟨⟨s.takeWhile isSpace, rest.takeWhile Char.isAlpha, space, arguments',
        fun _ => List.mem_takeWhile_imp, by simpa using hne, fun _ => List.mem_takeWhile_imp, hspace,
        hbalanced⟩, rfl, rfl, ?_⟩
      have hmethod : rest = rest.takeWhile Char.isAlpha ++
          (space ++ '(' :: (arguments' ++ ')' :: left)) := by
        rw [← hlist]
        refine List.prefix_append_drop ?_
        exact List.takeWhile_prefix _
      calc
        s = s.takeWhile isSpace ++ '.' :: rest := by
          rw [← hrest, List.takeWhile_append_dropWhile]
        _ = s.takeWhile isSpace ++ '.' :: (rest.takeWhile Char.isAlpha ++
            (space ++ '(' :: (arguments' ++ ')' :: left))) := by rw [← hmethod]
        _ = _ := by simp [Suffix.text]
  · cases h

/-- A text before which a chain ends: no method call begins it. -/
def EndsChain (s : List Char) : Prop := ∀ m : Suffix, ¬m.text <+: s

theorem cutMethod?_eq_none (h : EndsChain s) : cutMethod? s = none := by
  cases hcut : cutMethod? s with
  | none => rfl
  | some found =>
    obtain ⟨name, arguments, r⟩ := found
    obtain ⟨m, -, -, hs⟩ := exists_suffix_of_cutMethod? hcut
    exact absurd ⟨r, hs.symm⟩ (h m)

theorem endsChain_iff : EndsChain s ↔ cutMethod? s = none := by
  refine ⟨cutMethod?_eq_none, ?_⟩
  rintro hnone m ⟨r, rfl⟩
  rw [cutMethod?_text] at hnone
  cases hnone

theorem applyMethods_flatMap (methods : List Suffix) (h : EndsChain r) (call : RawCall) :
    applyMethods call (methods.flatMap Suffix.text ++ r) =
      (methods.foldl (fun call m => call.apply m.name m.arguments) call, r) := by
  induction methods generalizing call with
  | nil =>
    rw [applyMethods, List.flatMap_nil, List.nil_append, cutMethod?_eq_none h]
    rfl
  | cons m methods ih =>
    rw [applyMethods, List.flatMap_cons, List.append_assoc, cutMethod?_text]
    dsimp only
    rw [if_pos, ih]
    · rfl
    · simp [Suffix.text]
      omega

theorem suffix_of_applyMethods (call : RawCall) (s : List Char) :
    (applyMethods call s).2 <:+ s := by
  fun_induction applyMethods call s with
  | case1 | case3 => exact List.suffix_refl _
  | case2 call s method arguments rest hcut hlt ih =>
    obtain ⟨m, -, -, hs⟩ := exists_suffix_of_cutMethod? hcut
    exact ih.trans ⟨m.text, hs.symm⟩

/-! ## Chains -/

/-- The arguments of the last call of a method. -/
def last? (name : String) (methods : List Suffix) : Option (List Char) :=
  ((methods.filter fun m => m.name = name).getLast?).map Suffix.arguments

theorem last?_concat (name : String) (methods : List Suffix) (m : Suffix) :
    last? name (methods ++ [m]) =
      if m.name = name then some m.arguments else last? name methods := by
  by_cases h : m.name = name <;> simp [last?, h]

theorem foldl_apply (methods : List Suffix) (id : Option String) (isPlural : Bool) :
    methods.foldl (fun call m => RawCall.apply call m.name m.arguments) { id, isPlural } =
      { id
        fallback := (last? "value" methods).bind literal?
        placeholders := ((last? "arguments" methods).map placeholders).getD .empty
        source := (last? "source" methods).bind literal?
        package := (last? "package" methods).bind literal?
        isPlural := isPlural || (last? "plural" methods).isSome } := by
  induction methods using List.reverseRecOn with
  | nil => simp [last?]
  | append_singleton methods m ih =>
    rw [List.foldl_append, ih]
    unfold RawCall.apply
    simp only [last?_concat]
    simp only [List.foldl_cons, List.foldl_nil]
    split <;> simp_all

/-- A fluent call behind its token: a string in parentheses and the method calls after it. -/
structure Chain where
  space : List Char
  id : Literal
  methods : List Suffix
  space_blank : ∀ c ∈ space, isSpace c = true

namespace Chain

variable (chain : Chain) (isPlural : Bool)

def text : List Char :=
  chain.space ++ '(' :: (chain.id.text ++ ')' :: chain.methods.flatMap Suffix.text)

/-- What a chain says. Of each method the last call counts. -/
def call : RawCall where
  id := some chain.id.value
  fallback := (last? "value" chain.methods).bind literal?
  placeholders := ((last? "arguments" chain.methods).map placeholders).getD .empty
  source := (last? "source" chain.methods).bind literal?
  package := (last? "package" chain.methods).bind literal?
  isPlural := isPlural || (last? "plural" chain.methods).isSome

end Chain

def readFluent (isPlural : Bool) (s : List Char) : Option (RawCall × List Char) :=
  (cutCall? s).map fun (arguments, rest) => RawCall.ofChain isPlural arguments rest

namespace Chain

variable (chain : Chain) (isPlural : Bool)

theorem cutCall?_text (s : List Char) :
    cutCall? (chain.text ++ s) =
      some (chain.id.text, chain.methods.flatMap Suffix.text ++ s) := by
  rw [← cutCall?_balanced chain.space_blank chain.id.balanced_text, text]
  simp

theorem readFluent_text (h : EndsChain s) :
    readFluent isPlural (chain.text ++ s) = some (chain.call isPlural, s) := by
  rw [readFluent, cutCall?_text, Option.map_some, Option.some.injEq]
  dsimp only [RawCall.ofChain]
  rw [chain.id.literal?_text, applyMethods_flatMap chain.methods h, foldl_apply]
  rfl

theorem readInline_text (s : List Char) :
    readInline isPlural (chain.text ++ s) =
      some ({ id := some chain.id.value, isPlural }, chain.methods.flatMap Suffix.text ++ s) := by
  rw [readInline, cutCall?_text, Option.map_some, Option.some.injEq]
  dsimp only
  rw [Literal.ofArguments_text]

end Chain

theorem suffix_of_readFluent {isPlural : Bool} (s : List Char) (call : RawCall) (rest : List Char)
    (h : readFluent isPlural s = some (call, rest)) : rest <:+ s := by
  obtain ⟨⟨arguments, left⟩, hcut, heq⟩ := Option.map_eq_some_iff.1 h
  have hleft := suffix_of_applyMethods { id := literal? arguments, isPlural } left
  dsimp only [RawCall.ofChain] at heq
  rw [heq] at hleft
  exact hleft.trans (suffix_of_cutCall? hcut)

/-! ## The only token of a text -/

/-- The places in a text at which a token stands. -/
def places (token : String) (text : List Char) : List Nat :=
  (List.range text.length).filter fun n => token.toList.isPrefixOf (text.drop n)

/-- A token at the beginning of a word, with no further token in the text. -/
structure Alone (text : List Char) (token : String) (start : Nat) : Prop where
  places_eq : ∀ entry ∈ inlineTokens ++ fluentTokens,
    places entry.1 text = if entry.1 = token then [start] else []
  word : atWordStart text start = true

section Alone

variable {text : List Char} {token other : String} {start start' stop : Nat} {isPlural : Bool}
variable {skips : Nat → Bool} {read : List Char → Option (RawCall × List Char)} {call : RawCall}

theorem toList_ne_nil_of_mem (h : (other, isPlural) ∈ inlineTokens ++ fluentTokens) :
    other.toList ≠ [] := by
  have hnames : ∀ entry ∈ inlineTokens ++ fluentTokens, entry.1.toList ≠ [] := by decide
  exact hnames _ h

theorem Alone.of_reads (h : Alone text token start)
    (hother : (other, isPlural) ∈ inlineTokens ++ fluentTokens)
    (hreads : Reads text other.toList skips read start' call stop) :
    other = token ∧ start' = start := by
  obtain ⟨rest, htext, -⟩ := hreads.call
  have hplace : start' ∈ places other text := by
    refine List.mem_filter.2 ⟨List.mem_range.2 ?_, ?_⟩
    · refine Nat.lt_of_not_le fun hle => toList_ne_nil_of_mem hother ?_
      rw [List.drop_eq_nil_iff.2 hle] at htext
      exact (List.append_eq_nil_iff.1 htext.symm).1
    · rw [htext, List.isPrefixOf_iff_prefix]
      exact List.prefix_append _ _
  rw [h.places_eq _ hother] at hplace
  split at hplace
  · next heq => exact ⟨heq, List.mem_singleton.1 hplace⟩
  · cases hplace

theorem Alone.scan_other (h : Alone text token start)
    (hother : (other, isPlural) ∈ inlineTokens ++ fluentTokens) (hne : other ≠ token)
    (hread : ∀ s call rest, read s = some (call, rest) → rest <:+ s) :
    scan text other.toList skips read 0 text = [] :=
  scan_eq_nil (toList_ne_nil_of_mem hother) hread
    fun _ _ _ hreads => hne (h.of_reads hother hreads).1

theorem Alone.scan_skipped (h : Alone text token start)
    (hother : (other, isPlural) ∈ inlineTokens ++ fluentTokens) (hskips : skips start = true)
    (hread : ∀ s call rest, read s = some (call, rest) → rest <:+ s) :
    scan text other.toList skips read 0 text = [] := by
  refine scan_eq_nil (toList_ne_nil_of_mem hother) hread fun start' call stop hreads => ?_
  have hlooked := hreads.looked
  rw [(h.of_reads hother hreads).2, hskips] at hlooked
  cases hlooked

theorem Alone.scan_self {before rest left : List Char} (h : Alone text token before.length)
    (htoken : (token, isPlural) ∈ inlineTokens ++ fluentTokens)
    (htext : text = before ++ (token.toList ++ rest)) (hskips : skips before.length = false)
    (hread : ∀ s call rest, read s = some (call, rest) → rest <:+ s)
    (hcall : read rest = some (call, left)) :
    scan text token.toList skips read 0 text = [(before.length, call)] := by
  obtain ⟨taken, htaken⟩ := hread _ _ _ hcall
  have hdrop : text.drop before.length = token.toList ++ rest := by rw [htext, List.drop_left]
  have hleft : text.drop (before ++ token.toList ++ taken).length = left := by
    rw [htext, ← htaken, ← List.append_assoc, ← List.append_assoc, List.drop_left]
  have hreads : Reads text token.toList skips read before.length call
      (before ++ token.toList ++ taken).length := by
    refine ⟨hskips, h.word, ⟨rest, hdrop, by rw [hleft, hcall]⟩, ?_⟩
    rw [htext, ← htaken]
    simp only [List.length_append]
    omega
  exact scan_eq_singleton (toList_ne_nil_of_mem htoken) hread hreads
    fun _ _ _ hreads' => (h.of_reads htoken hreads').2

end Alone

/-! ## The references of a chain -/

/-- The calls of the inline tokens. -/
def inlineFound (text : List Char) : List (Nat × RawCall) :=
  inlineTokens.flatMap fun entry => inlineCalls text entry.1 entry.2

theorem calls_eq (text : List Char) :
    calls text = inlineFound text ++ fluentTokens.flatMap fun entry =>
      fluentCalls text ((inlineFound text).map Prod.fst) entry.1 entry.2 := rfl

/-- What is found of one token among those of a family. -/
theorem flatMap_eq_singleton {α : Type} {tokens : List (String × Bool)} {token : String}
    {isPlural : Bool} (htoken : (token, isPlural) ∈ tokens) (hnodup : (tokens.map Prod.fst).Nodup)
    {find : String × Bool → List α} {found : α} (hself : find (token, isPlural) = [found])
    (hother : ∀ entry ∈ tokens, entry.1 ≠ token → find entry = []) :
    tokens.flatMap find = [found] := by
  obtain ⟨front, rest, rfl⟩ := List.append_of_mem htoken
  rw [List.map_append, List.map_cons, List.nodup_append, List.nodup_cons] at hnodup
  obtain ⟨-, ⟨hrest, -⟩, hfront⟩ := hnodup
  have hnone (entries : List (String × Bool)) (hsub : ∀ entry ∈ entries,
      entry ∈ front ++ (token, isPlural) :: rest) (hne : token ∉ entries.map Prod.fst) :
      entries.flatMap find = [] := by
    refine List.flatMap_eq_nil_iff.2 fun entry hmem => hother entry (hsub entry hmem) ?_
    rintro rfl
    exact hne (List.mem_map_of_mem hmem)
  rw [List.flatMap_append, List.flatMap_cons, hself, hnone front (by simp +contextual) ?_,
    hnone rest (by simp +contextual) hrest]
  · rfl
  · intro hmem
    exact hfront token hmem token List.mem_cons_self rfl

/-- The call of an inline token. The fluent calls of the same token are not looked for there. -/
theorem Alone.calls_inline {text before rest left : List Char} {token : String} {isPlural : Bool}
    {call : RawCall} (halone : Alone text token before.length)
    (htoken : (token, isPlural) ∈ inlineTokens) (htext : text = before ++ (token.toList ++ rest))
    (hcall : readInline isPlural rest = some (call, left)) :
    calls text = [(before.length, call)] := by
  have hinline : inlineFound text = [(before.length, call)] := by
    refine flatMap_eq_singleton htoken (by decide) ?_ ?_
    · exact halone.scan_self (List.mem_append_left _ htoken) htext rfl suffix_of_readInline hcall
    · rintro ⟨other, plural⟩ hother hdiffer
      exact halone.scan_other (List.mem_append_left _ hother) hdiffer suffix_of_readInline
  have hfluent : (fluentTokens.flatMap fun entry =>
      fluentCalls text [before.length] entry.1 entry.2) = [] := by
    refine List.flatMap_eq_nil_iff.2 ?_
    rintro ⟨other, plural⟩ hother
    exact halone.scan_skipped (List.mem_append_right _ hother) (by simp) suffix_of_readFluent
  rw [calls_eq, hinline, List.map_singleton, hfluent, List.append_nil]

section Chain

variable {token : String} {isPlural : Bool} {chain : Chain} {before after text : List Char}

/-- The call of a chain whose token begins no inline call. -/
theorem Alone.calls_of_not_mem (halone : Alone text token before.length)
    (htoken : (token, isPlural) ∈ fluentTokens) (hne : token ∉ inlineTokens.map Prod.fst)
    (htext : text = before ++ (token.toList ++ (chain.text ++ after))) (hend : EndsChain after) :
    calls text = [(before.length, chain.call isPlural)] := by
  have hinline : inlineFound text = [] := by
    refine List.flatMap_eq_nil_iff.2 ?_
    rintro ⟨other, plural⟩ hother
    refine halone.scan_other (List.mem_append_left _ hother) ?_ suffix_of_readInline
    rintro rfl
    exact hne (List.mem_map_of_mem hother)
  rw [calls_eq, hinline, List.nil_append]
  refine flatMap_eq_singleton htoken (by decide) ?_ ?_
  · exact halone.scan_self (List.mem_append_right _ htoken) htext rfl suffix_of_readFluent
      (chain.readFluent_text isPlural hend)
  · rintro ⟨other, plural⟩ hother hdiffer
    exact halone.scan_other (List.mem_append_right _ hother) hdiffer suffix_of_readFluent

/-- The call of a chain whose token begins an inline call: its methods do not count. -/
theorem Alone.calls_of_mem (halone : Alone text token before.length)
    (htoken : (token, isPlural) ∈ inlineTokens)
    (htext : text = before ++ (token.toList ++ (chain.text ++ after))) :
    calls text = [(before.length, { id := some chain.id.value, isPlural })] :=
  halone.calls_inline htoken htext (chain.readInline_text isPlural after)

end Chain

theorem collectFusion_of_calls {file text : String} {start : Nat} {call : RawCall}
    (h : calls text.toList = [(start, call)]) :
    collectFusion file text = (reference? file (lineAt text.toList start) call).toList := by
  simp only [collectFusion, h, List.filterMap_cons, List.filterMap_nil]
  cases reference? file (lineAt text.toList start) call <;> rfl

/-- The references of a text whose only token begins a chain: at most one, with what the last call
of each method says. The methods behind `I18n.plural` do not count, as its call is an inline one. -/
theorem collectFusion_chain {token : String} {isPlural : Bool}
    (htoken : (token, isPlural) ∈ fluentTokens) {chain : Chain} {before after : List Char}
    {text : String} (htext : text.toList = before ++ (token.toList ++ (chain.text ++ after)))
    (hend : EndsChain after) (halone : Alone text.toList token before.length) (file : String) :
    (token ≠ "I18n.plural" →
      collectFusion file text =
        ((resolveKey chain.id.value ((last? "package" chain.methods).bind literal?)
            ((last? "source" chain.methods).bind literal?)).map fun key =>
          { key, file
            line := lineAt text.toList before.length
            format := .fusion
            fallback := (last? "value" chain.methods).bind literal?
            placeholders := ((last? "arguments" chain.methods).map placeholders).getD .empty
            isPlural := isPlural || (last? "plural" chain.methods).isSome }).toList) ∧
      (token = "I18n.plural" →
        collectFusion file text =
          ((resolveKey chain.id.value none none).map fun key =>
            { key, file
              line := lineAt text.toList before.length
              format := .fusion
              isPlural := true }).toList) := by
  constructor
  · intro hne
    have hinline : token ∉ inlineTokens.map Prod.fst := by
      have htokens : ∀ entry ∈ fluentTokens, entry.1 ∈ inlineTokens.map Prod.fst →
          entry.1 = "I18n.plural" := by decide
      exact fun hmem => hne (htokens _ htoken hmem)
    rw [collectFusion_of_calls (halone.calls_of_not_mem htoken hinline htext hend), reference?,
      Chain.call, Option.bind_some]
  · rintro rfl
    have hinline : ("I18n.plural", true) ∈ inlineTokens := by decide
    rw [collectFusion_of_calls (halone.calls_of_mem hinline htext), reference?, Option.bind_some]

/-- A message with its package in a method call. -/
def packagedChain : Chain where
  space := []
  id := .plain "items".toList (by simp)
  methods :=
    [{ gap := []
       method := "package".toList
       space := []
       arguments := (Literal.plain "Acme.Site".toList (by simp)).text
       gap_blank := by simp
       method_ne := by decide
       letters := List.all_eq_true.1 (by decide)
       space_blank := by simp
       balanced := Literal.balanced_text _ }]
  space_blank := by simp

/-- The chain of a package is read behind `Translation.id` and not behind `I18n.plural`. -/
theorem collectFusion_packagedChain :
    collectFusion "A.fusion" "x = Translation.id('items').package('Acme.Site')\n" =
        [{ key := ⟨"Acme.Site", "Main", "items"⟩
           format := .fusion
           file := "A.fusion"
           line := 1 }] ∧
      collectFusion "A.fusion" "I18n.plural('items').package('Acme.Site')\n" = [] := by
  have hend : EndsChain ['\n'] := endsChain_iff.2 (by decide)
  have htranslation : Alone "x = Translation.id('items').package('Acme.Site')\n".toList
      "Translation.id" "x = ".toList.length := ⟨by decide, by decide⟩
  have hplural : Alone "I18n.plural('items').package('Acme.Site')\n".toList "I18n.plural"
      ([] : List Char).length := ⟨by decide, by decide⟩
  have hfirst := (@collectFusion_chain "Translation.id" false (by decide) packagedChain _ _ _
    (by decide) hend htranslation "A.fusion").1 (by decide)
  have hsecond := (@collectFusion_chain "I18n.plural" true (by decide) packagedChain _ _ _
    (by decide) hend hplural "A.fusion").2 rfl
  constructor
  · rw [hfirst]
    decide
  · rw [hsecond]
    decide

/-- A chain behind `I18n.plural` names a package in which its message has a key, and yet there is no
reference. -/
theorem collectFusion_plural_dropped :
    ("I18n.plural", true) ∈ fluentTokens ∧
      "I18n.plural('items').package('Acme.Site')\n".toList =
        "I18n.plural".toList ++ (packagedChain.text ++ ['\n']) ∧
      EndsChain ['\n'] ∧
      Alone "I18n.plural('items').package('Acme.Site')\n".toList "I18n.plural" 0 ∧
      resolveKey packagedChain.id.value ((last? "package" packagedChain.methods).bind literal?)
        ((last? "source" packagedChain.methods).bind literal?) =
          some ⟨"Acme.Site", "Main", "items"⟩ ∧
      collectFusion "A.fusion" "I18n.plural('items').package('Acme.Site')\n" = [] :=
  ⟨by decide, by decide, endsChain_iff.2 (by decide),
    ⟨by decide, by decide⟩, by decide, by decide +kernel⟩

end TranslationAudit.Fusion

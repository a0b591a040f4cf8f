import Mathlib.Data.List.Forall2
import TranslationAudit.Command.Scan
import TranslationAudit.Proofs.Collection.Dict
import TranslationAudit.Proofs.Translation.Context

/-! # How translations reach their additions

* `addRequest?_eq_none_iff`, `foldlM_addRequest?_eq_none_iff`: when the program stops at a missing
  translation, and at one of several.
* `requestFor?`, `requests?_eq`: the request for a key, and the requests in the order of the keys.
* `textOf?`: the text that the answers have for an addition.
* `applyAnswers_eq`: every addition is filled with its own text, whatever else was filled before.
* `Delivered`: what becomes of an addition.
* `Provider.Refuses`: a provider that fails, or does not give one answer for each request.
* `translate_delivers`: when the program stops, what a provider does to the additions otherwise, and
  when a scan that asks it writes.
-/

namespace TranslationAudit.Translation

open Catalog (Addition Provenance)

/-! ## Requests -/

section Requests

variable {o : Checked.Overflow} {tree : FileTree} {window : Nat} {k : Key} {r : Request}
variable {pairs : List (MissingTranslation × Addition)} {e : MissingTranslation × Addition}
variable {missing : List MissingTranslation} {additions : List Addition} {rs : List Request}

/-- The text around the reference of a missing translation at which the program does not stop. -/
def contextOf (o : Checked.Overflow) (tree : FileTree) (window : Nat) (m : MissingTranslation) :
    Option String :=
  (Checked.contextSnippet? o tree m.reference window).join

/-- The request for a key: the text and the context of the first translation that is missing of it,
and the locales of all of them. -/
def requestFor? (o : Checked.Overflow) (tree : FileTree) (window : Nat)
    (pairs : List (MissingTranslation × Addition)) (k : Key) : Option Request :=
  let own := pairs.filter fun e => e.2.key = k
  own.head?.map fun first =>
    ⟨k, first.2.fallback, first.2.placeholders.keys, (own.map fun e => e.2.locale).eraseDups,
      contextOf o tree window first.1⟩

/-- The request that a missing translation is put into. -/
def joined (o : Checked.Overflow) (tree : FileTree) (window : Nat) (known : Dict Key Request)
    (e : MissingTranslation × Addition) : Request :=
  let request := (known.get? e.2.key).getD
    ⟨e.2.key, e.2.fallback, e.2.placeholders.keys, [], contextOf o tree window e.1⟩
  { request with
    targetLocales :=
      if e.2.locale ∈ request.targetLocales then request.targetLocales
      else request.targetLocales ++ [e.2.locale] }

/-- The requests for missing translations where the program does not stop. -/
def joinedAll (o : Checked.Overflow) (tree : FileTree) (window : Nat)
    (pairs : List (MissingTranslation × Addition)) : Dict Key Request :=
  pairs.foldl (fun known e => known.insert e.2.key (joined o tree window known e)) .empty

theorem joinedAll_concat : joinedAll o tree window (pairs ++ [e]) =
    (joinedAll o tree window pairs).insert e.2.key
      (joined o tree window (joinedAll o tree window pairs) e) := by
  rw [joinedAll, List.foldl_append]
  rfl

theorem distinct_joinedAll : (joinedAll o tree window pairs).Distinct :=
  Dict.distinct_foldl_insert (fun e : MissingTranslation × Addition => e.2.key)
    (joined o tree window) pairs

theorem keys_joinedAll :
    (joinedAll o tree window pairs).keys = (pairs.map fun e => e.2.key).eraseDups :=
  Dict.keys_foldl_insert (fun e : MissingTranslation × Addition => e.2.key)
    (joined o tree window) pairs

theorem get?_joinedAll (k : Key) :
    (joinedAll o tree window pairs).get? k = requestFor? o tree window pairs k := by
  -- the last missing translation joins the request for its key, or opens it
  induction pairs using List.reverseRecOn with
  | nil => rfl
  | append_singleton pairs e ih =>
    rw [joinedAll_concat, Dict.get?_insert]
    by_cases hk : k = e.2.key
    · subst hk
      rw [if_pos rfl, joined, ih, requestFor?, requestFor?, List.filter_append,
        List.filter_cons_of_pos (by simp), List.filter_nil]
      cases pairs.filter (fun other => other.2.key = e.2.key) with
      | nil => rfl
      | cons first own =>
        have hlocales : (((first :: own) ++ [e]).map fun e => e.2.locale).eraseDups =
            if e.2.locale ∈ ((first :: own).map fun e => e.2.locale).eraseDups then
              ((first :: own).map fun e => e.2.locale).eraseDups
            else ((first :: own).map fun e => e.2.locale).eraseDups ++ [e.2.locale] := by
          rw [List.map_append, List.map_singleton, Dict.eraseDups_concat]
          exact if_congr List.mem_eraseDups.symm rfl rfl
        rw [hlocales]
        rfl
    · have he : ¬e.2.key = k := fun h => hk h.symm
      rw [if_neg hk, ih, requestFor?, requestFor?, List.filter_append,
        List.filter_cons_of_neg (by simpa using he), List.filter_nil, List.append_nil]

theorem key_of_requestFor? (h : requestFor? o tree window pairs k = some r) : r.key = k := by
  obtain ⟨first, -, rfl⟩ := Option.map_eq_some_iff.1 h
  rfl

theorem requestFor?_isSome_iff :
    (requestFor? o tree window pairs k).isSome = true ↔ ∃ e ∈ pairs, e.2.key = k := by
  rw [requestFor?, Option.isSome_map, List.isSome_head?]
  simp

theorem get?_joinedAll_eq_none_iff : (joinedAll o tree window pairs).get? k = none ↔
    pairs.find? (fun e => e.2.key = k) = none := by
  rw [get?_joinedAll, ← Option.not_isSome_iff_eq_none, requestFor?_isSome_iff, List.find?_eq_none]
  simp

/-! ### Where the program stops -/

/-- The program stops at a missing translation that opens a request and whose context cannot be cut
out. -/
theorem addRequest?_eq_none_iff {known : Dict Key Request} :
    addRequest? o tree window known e = none ↔
      known.get? e.2.key = none ∧ Checked.Stops o tree e.1.reference window := by
  rw [addRequest?, Option.map_eq_none_iff, request?, ← Checked.contextSnippet?_eq_none_iff]
  cases known.get? e.2.key with
  | none => simp
  | some request => simp

theorem eq_of_addRequest? {known d : Dict Key Request}
    (h : addRequest? o tree window known e = some d) :
    d = known.insert e.2.key (joined o tree window known e) := by
  rw [addRequest?, Option.map_eq_some_iff] at h
  obtain ⟨request, hrequest, rfl⟩ := h
  have hopened : request = (known.get? e.2.key).getD
      ⟨e.2.key, e.2.fallback, e.2.placeholders.keys, [], contextOf o tree window e.1⟩ := by
    rw [request?] at hrequest
    cases hknown : known.get? e.2.key with
    | some found =>
      rw [hknown] at hrequest
      exact (Option.some.inj hrequest).symm
    | none =>
      rw [hknown] at hrequest
      obtain ⟨context, hcontext, rfl⟩ := Option.map_eq_some_iff.1 hrequest
      rw [contextOf, hcontext]
      rfl
  rw [joined, ← hopened]

theorem foldlM_addRequest?_concat :
    (pairs ++ [e]).foldlM (addRequest? o tree window) .empty =
      (pairs.foldlM (addRequest? o tree window) .empty).bind fun known =>
        addRequest? o tree window known e := by
  rw [List.foldlM_append]
  simp only [List.foldlM_cons, List.foldlM_nil, bind_pure]
  rfl

theorem eq_of_foldlM_addRequest? {d : Dict Key Request}
    (h : pairs.foldlM (addRequest? o tree window) .empty = some d) :
    d = joinedAll o tree window pairs := by
  induction pairs using List.reverseRecOn generalizing d with
  | nil => exact (Option.some.inj h).symm
  | append_singleton pairs e ih =>
    rw [foldlM_addRequest?_concat, Option.bind_eq_some_iff] at h
    obtain ⟨known, hknown, hd⟩ := h
    rw [eq_of_addRequest? hd, ih hknown, joinedAll_concat]

/-- The program stops at one of several missing translations if it stops at one that is the first
with its key. -/
theorem foldlM_addRequest?_eq_none_iff :
    pairs.foldlM (addRequest? o tree window) .empty = none ↔
      ∃ e, pairs.find? (fun other => other.2.key = e.2.key) = some e ∧
        Checked.Stops o tree e.1.reference window := by
  induction pairs using List.reverseRecOn with
  | nil => exact iff_of_false nofun fun ⟨e, he, _⟩ => by cases he
  | append_singleton pairs e ih =>
    rw [foldlM_addRequest?_concat, Option.bind_eq_none_iff]
    constructor
    · intro h
      cases hknown : pairs.foldlM (addRequest? o tree window) .empty with
      | none =>
        obtain ⟨first, hfirst, hstops⟩ := ih.1 hknown
        exact ⟨first, by rw [List.find?_append, hfirst, Option.some_or], hstops⟩
      | some known =>
        obtain ⟨hnew, hstops⟩ := addRequest?_eq_none_iff.1 (h known hknown)
        rw [eq_of_foldlM_addRequest? hknown, get?_joinedAll_eq_none_iff] at hnew
        refine ⟨e, ?_, hstops⟩
        rw [List.find?_append, hnew, Option.none_or]
        simp
    · rintro ⟨first, hfirst, hstops⟩ known hknown
      rw [List.find?_append, Option.or_eq_some_iff] at hfirst
      rcases hfirst with hfirst | ⟨hnone, hfirst⟩
      · rw [ih.2 ⟨first, hfirst, hstops⟩] at hknown
        cases hknown
      · obtain rfl := List.mem_singleton.1 (List.mem_of_find?_eq_some hfirst)
        rw [addRequest?_eq_none_iff, eq_of_foldlM_addRequest? hknown, get?_joinedAll_eq_none_iff]
        exact ⟨hnone, hstops⟩

/-- Whether a missing translation is the first one with its key, which opens the request for it. -/
def Opens (missing : List MissingTranslation) (m : MissingTranslation) : Prop :=
  missing.find? (fun other => (Addition.ofMissing other).key = (Addition.ofMissing m).key) = some m

theorem requests?_eq_none_iff :
    requests? o tree missing (missing.map Addition.ofMissing) window = none ↔
      ∃ m, Opens missing m ∧ Checked.Stops o tree m.reference window := by
  have hzip : missing.zip (missing.map Addition.ofMissing) =
      missing.map fun m => (m, Addition.ofMissing m) := by
    rw [List.zip_map_right, List.zip_eq_zipWith, List.zipWith_self, List.map_map]
    rfl
  rw [requests?, Option.map_eq_none_iff, foldlM_addRequest?_eq_none_iff, hzip]
  simp only [List.find?_map, Option.map_eq_some_iff, Function.comp_def]
  constructor
  · rintro ⟨-, ⟨m, hm, rfl⟩, hstops⟩
    exact ⟨m, hm, hstops⟩
  · rintro ⟨m, hm, hstops⟩
    exact ⟨(m, Addition.ofMissing m), ⟨m, hm, rfl⟩, hstops⟩

/-! ### Requests by key -/

theorem map_key_zip (h : additions.length ≤ missing.length) :
    (missing.zip additions).map (fun e => e.2.key) = additions.map Addition.key := by
  rw [← Function.comp_def, ← List.map_map, List.map_snd_zip h]

section Keys

variable (hrs : requests? o tree missing additions window = some rs)
include hrs

theorem requests?_eq :
    rs = ((missing.zip additions).map fun e => e.2.key).eraseDups.filterMap
      (requestFor? o tree window (missing.zip additions)) := by
  obtain ⟨d, hd, rfl⟩ := Option.map_eq_some_iff.1 hrs
  rw [eq_of_foldlM_addRequest? hd, Dict.values_eq distinct_joinedAll, keys_joinedAll,
    funext get?_joinedAll]

variable (h : additions.length ≤ missing.length)
include h

/-- The requests have the keys of the additions, in the order in which these first come. -/
theorem map_key_requests? : rs.map Request.key = (additions.map Addition.key).eraseDups := by
  have hown : ∀ k ∈ (additions.map Addition.key).eraseDups,
      (requestFor? o tree window (missing.zip additions) k).map Request.key = some k := by
    intro k hk
    rw [List.mem_eraseDups, ← map_key_zip h, List.mem_map] at hk
    obtain ⟨r, hr⟩ := Option.isSome_iff_exists.1 (requestFor?_isSome_iff.2 hk)
    rw [hr, Option.map_some, key_of_requestFor? hr]
  rw [requests?_eq hrs, map_key_zip h, List.map_filterMap,
    List.filterMap_eq_map_iff_forall_eq_some.2 hown, List.map_id']

theorem nodup_map_key_requests? : (rs.map Request.key).Nodup := by
  have hdistinct : (joinedAll o tree window (missing.zip additions)).Distinct := distinct_joinedAll
  rw [Dict.Distinct, keys_joinedAll, map_key_zip h] at hdistinct
  rw [map_key_requests? hrs h]
  exact hdistinct

theorem eq_nil_of_requests? (hnil : rs = []) : additions = [] := by
  have hkeys := map_key_requests? hrs h
  rw [hnil] at hkeys
  rw [List.eq_nil_iff_forall_not_mem]
  intro a ha
  have hkey : a.key ∈ (additions.map Addition.key).eraseDups :=
    List.mem_eraseDups.2 (List.mem_map_of_mem ha)
  rw [← hkeys] at hkey
  cases hkey

/-- A request has the locales of the additions with its key, each of them once. -/
theorem targetLocales_of_mem_requests? (hr : r ∈ rs) :
    r.targetLocales =
      ((additions.filter fun a => a.key = r.key).map Addition.locale).eraseDups := by
  rw [requests?_eq hrs] at hr
  obtain ⟨k, -, hk⟩ := List.mem_filterMap.1 hr
  obtain rfl := key_of_requestFor? hk
  obtain ⟨first, -, hfirst⟩ := Option.map_eq_some_iff.1 hk
  have hadditions : additions.filter (fun a => a.key = r.key) =
      ((missing.zip additions).filter fun e => e.2.key = r.key).map Prod.snd := by
    rw [← List.map_snd_zip h, List.filter_map, List.map_snd_zip h]
    rfl
  rw [hadditions, List.map_map, ← hfirst]
  rfl

end Keys

end Requests

/-! ## Answers -/

section Answers

variable {p : Provenance} {es : List (Request × Answer)} {e : Request × Answer}
variable {rs : List Request} {answers : List Answer} {additions : List Addition} {a : Addition}

/-- The text that the answer to the request for an addition's key has for it, unless it is blank. -/
def textOf? (es : List (Request × Answer)) (a : Addition) : Option String :=
  (es.find? fun e => e.1.key = a.key).bind fun e => (e.2.get? a.locale).bind Text.nonBlank?

/-- An addition with its own text as the target. -/
def delivered (p : Provenance) (es : List (Request × Answer)) (a : Addition) : Addition :=
  match textOf? es a with
  | none => a
  | some target => { a with target, provenance := some p }

theorem textOf?_cons :
    textOf? (e :: es) a =
      if a.key = e.1.key then (e.2.get? a.locale).bind Text.nonBlank? else textOf? es a := by
  rw [textOf?, List.find?_cons]
  by_cases hk : a.key = e.1.key
  · simp [hk]
  · have hne : ¬e.1.key = a.key := fun h => hk h.symm
    simp [hk, hne, textOf?]

theorem textFor?_eq : textFor? e.1 e.2 a =
    if a.key = e.1.key then (e.2.get? a.locale).bind Text.nonBlank? else none := rfl

theorem textOf?_eq_none (h : a.key ∉ es.map fun e => e.1.key) : textOf? es a = none := by
  have hfind : es.find? (fun e => e.1.key = a.key) = none := by
    rw [List.find?_eq_none]
    intro e he
    simpa using fun hk => h (List.mem_map.2 ⟨e, he, hk⟩)
  rw [textOf?, hfind, Option.bind_none]

/-- Filling an addition leaves the text that others have for it. -/
theorem textOf?_fill (r : Request) (answer : Answer) :
    textOf? es (fill p r answer a) = textOf? es a := by
  unfold fill
  split <;> rfl

theorem delivered_fill (h : e.1.key ∉ es.map fun e => e.1.key) :
    delivered p es (fill p e.1 e.2 a) = delivered p (e :: es) a := by
  rw [delivered, delivered, textOf?_fill, textOf?_cons, fill, textFor?_eq]
  by_cases hk : a.key = e.1.key
  · have hnone : textOf? es a = none := textOf?_eq_none (hk ▸ h)
    rw [if_pos hk, if_pos hk]
    cases (e.2.get? a.locale).bind Text.nonBlank? <;> simp only [hnone]
  · rw [if_neg hk, if_neg hk]

theorem countP_textOf?_cons (h : e.1.key ∉ es.map fun e => e.1.key) :
    additions.countP (fun a => (textOf? (e :: es) a).isSome) =
      additions.countP (fun a => (textFor? e.1 e.2 a).isSome) +
        additions.countP fun a => (textOf? es a).isSome := by
  induction additions with
  | nil => rfl
  | cons a additions ih =>
    rw [List.countP_cons, List.countP_cons, List.countP_cons, ih, textOf?_cons, textFor?_eq]
    by_cases hk : a.key = e.1.key
    · rw [if_pos hk, if_pos hk, textOf?_eq_none (hk ▸ h)]
      simp only [Option.isSome_none, Bool.false_eq_true, if_false]
      omega
    · rw [if_neg hk, if_neg hk]
      simp only [Option.isSome_none, Bool.false_eq_true, if_false]
      omega

/-- What one answer does to the additions and to the count. -/
def fillAll (p : Provenance) (state : List Addition × Nat) (e : Request × Answer) :
    List Addition × Nat :=
  (state.1.map (fill p e.1 e.2),
    state.2 + state.1.countP fun a => (textFor? e.1 e.2 a).isSome)

theorem foldl_fillAll (h : (es.map fun e => e.1.key).Nodup) (n : Nat) :
    es.foldl (fillAll p) (additions, n) =
      (additions.map (delivered p es), n + additions.countP fun a => (textOf? es a).isSome) := by
  induction es generalizing additions n with
  | nil =>
    have hid : delivered p [] = id := rfl
    simp [hid, textOf?]
  | cons e es ih =>
    obtain ⟨hnew, hes⟩ := List.nodup_cons.1 h
    have hcount : (additions.map (fill p e.1 e.2)).countP (fun a => (textOf? es a).isSome) =
        additions.countP fun a => (textOf? es a).isSome := by
      rw [List.countP_map]
      simp only [Function.comp_def, textOf?_fill]
    rw [List.foldl_cons, fillAll, ih hes, hcount, countP_textOf?_cons hnew, List.map_map,
      Nat.add_assoc]
    simp only [Function.comp_def, delivered_fill hnew]

theorem applyAnswers_eq (h : (rs.map Request.key).Nodup) (hlength : answers.length = rs.length) :
    applyAnswers p rs answers additions =
      (additions.map (delivered p (rs.zip answers)),
        additions.countP fun a => (textOf? (rs.zip answers) a).isSome) := by
  have happly : applyAnswers p rs answers additions =
      (rs.zip answers).foldl (fillAll p) (additions, 0) := rfl
  have hkeys : ((rs.zip answers).map fun e => e.1.key).Nodup := by
    rw [← Function.comp_def, ← List.map_map, List.map_fst_zip (Nat.le_of_eq hlength.symm)]
    exact h
  rw [happly, foldl_fillAll hkeys, Nat.zero_add]

/-- The count is that of the additions that were filled. -/
theorem countP_isGenerated_delivered (h : ∀ a ∈ additions, a.isGenerated = false) :
    (additions.map (delivered p es)).countP Addition.isGenerated =
      additions.countP fun a => (textOf? es a).isSome := by
  rw [List.countP_map]
  refine List.countP_congr fun a ha => ?_
  rw [Function.comp_apply, delivered]
  cases textOf? es a with
  | none => simp [h a ha]
  | some target => exact iff_of_true rfl rfl

/-- What becomes of an addition: its own answer, which is the one to the request for its key, has a
text for its locale that is not blank and becomes the target, or the addition stays as it is. -/
def Delivered (p : Provenance) (rs : List Request) (answers : List Answer) (a b : Addition) :
    Prop :=
  ∃ (i : Nat) (r : Request) (answer : Answer),
    rs[i]? = some r ∧ answers[i]? = some answer ∧ r.key = a.key ∧
      ((∃ text, answer.get? a.locale = some text ∧ Text.trimmed text ≠ "" ∧
          b = { a with target := Text.trimmed text, provenance := some p }) ∨
        ((∀ text, answer.get? a.locale = some text → Text.trimmed text = "") ∧ b = a))

theorem nonBlank?_eq (text : String) :
    Text.nonBlank? text = if Text.trimmed text = "" then none else some (Text.trimmed text) := by
  rw [Text.nonBlank?]
  simp only [String.isEmpty_iff]

theorem delivered_spec (hlength : answers.length = rs.length) (ha : a.key ∈ rs.map Request.key) :
    Delivered p rs answers a (delivered p (rs.zip answers) a) := by
  have hmem : a.key ∈ (rs.zip answers).map fun e => e.1.key := by
    rwa [← Function.comp_def, ← List.map_map, List.map_fst_zip (Nat.le_of_eq hlength.symm)]
  obtain ⟨e', he', hkey'⟩ := List.mem_map.1 hmem
  cases hfind : (rs.zip answers).find? fun e => e.1.key = a.key with
  | none => exact absurd (decide_eq_true hkey') (List.find?_eq_none.1 hfind e' he')
  | some e =>
    obtain ⟨i, hi⟩ := List.mem_iff_getElem?.1 (List.mem_of_find?_eq_some hfind)
    obtain ⟨hr, hanswer⟩ := List.getElem?_zip_eq_some.1 hi
    have htext : textOf? (rs.zip answers) a = (e.2.get? a.locale).bind Text.nonBlank? := by
      rw [textOf?, hfind, Option.bind_some]
    have hkey : e.1.key = a.key := by simpa using List.find?_some hfind
    refine ⟨i, e.1, e.2, hr, hanswer, hkey, ?_⟩
    rw [delivered, htext]
    cases hget : e.2.get? a.locale with
    | none => exact .inr ⟨nofun, rfl⟩
    | some text =>
      rw [Option.bind_some, nonBlank?_eq]
      by_cases hblank : Text.trimmed text = ""
      · rw [if_pos hblank]
        exact .inr ⟨fun _ h => Option.some.inj h ▸ hblank, rfl⟩
      · rw [if_neg hblank]
        exact .inl ⟨text, rfl, hblank, rfl⟩

end Answers

/-! ## Providers -/

/-- Whether a provider fails, or does not give one answer for each request. -/
def Provider.Refuses (provider : Provider) (rs : List Request) (systemPrompt : String) : Prop :=
  ∀ answers, provider.answers rs systemPrompt = .ok answers → answers.length ≠ rs.length

section Ask

variable {provider : Provider} {now systemPrompt : String} {rs : List Request}
variable {additions : List Addition} {answers : List Answer}

theorem ask_refused (hrequests : rs ≠ []) (h : provider.Refuses rs systemPrompt) :
    ∃ e, ask provider now systemPrompt rs additions = .error e := by
  rw [ask, if_neg (by simpa using hrequests)]
  cases hanswers : provider.answers rs systemPrompt with
  | error reason => exact ⟨_, rfl⟩
  | ok answers => exact ⟨_, if_neg (h answers hanswers)⟩

theorem ask_answered (hanswers : provider.answers rs systemPrompt = .ok answers)
    (hlength : answers.length = rs.length) (hkeys : (rs.map Request.key).Nodup) :
    ask provider now systemPrompt rs additions =
      .ok (additions.map
          (delivered ⟨some provider.name, provider.model, some now⟩ (rs.zip answers)),
        additions.countP fun a => (textOf? (rs.zip answers) a).isSome) := by
  rw [ask]
  by_cases hrequests : rs = []
  · have hdelivered (p : Provenance) : delivered p [] = id := rfl
    simp [hrequests, hdelivered, textOf?]
  · rw [if_neg (by simpa using hrequests), hanswers, ← applyAnswers_eq hkeys hlength]
    exact if_pos hlength

end Ask

/-! ## Scans -/

section Scan

variable {provider : Provider} {env : Project.Environment} {o : ScanOptions} {p : Project}
variable {scope : Scope} {missing : List MissingTranslation}

theorem ne_nil_of_requests? {rs : List Request} {o : Checked.Overflow} {tree : FileTree}
    {window : Nat} (hmissing : missing ≠ [])
    (hrs : requests? o tree missing (missing.map Addition.ofMissing) window = some rs) :
    rs ≠ [] := fun hnil =>
  hmissing (List.map_eq_nil_iff.1
    (eq_nil_of_requests? hrs (Nat.le_of_eq (List.length_map _)) hnil))

/-- The additions of a scan fail where the program stops, and where the provider refuses. -/
theorem scanAdditions_failed (hmissing : missing ≠ []) (verbose : Bool)
    (h : ∀ rs, requests? env.overflow env.tree missing (missing.map Addition.ofMissing)
      p.config.generation.contextWindowLines = some rs →
        provider.Refuses rs p.config.generation.systemPrompt) :
    ∃ e, Command.scanAdditions env p (some provider) verbose missing = .error e := by
  simp only [Command.scanAdditions, translate?, List.isEmpty_iff, List.map_eq_nil_iff, hmissing,
    if_false]
  cases hrs : requests? env.overflow env.tree missing (missing.map Addition.ofMissing)
    p.config.generation.contextWindowLines with
  | none => exact ⟨_, rfl⟩
  | some rs =>
    obtain ⟨e, he⟩ : ∃ e, ask provider env.now p.config.generation.systemPrompt rs
        (missing.map Addition.ofMissing) = .error e :=
      ask_refused (ne_nil_of_requests? hmissing hrs) (h rs hrs)
    rw [Option.map_some, he]
    exact ⟨_, rfl⟩

/-- A scan writes only if it is asked to, something is missing and its additions do not fail. -/
theorem tree_scanProject_unchanged {references : ReferenceIndex}
    (hfound : p.references? env.tree = some references)
    (hmissing : missing = (reconcile references (p.catalogs env.tree) scope).missing)
    (h : o.update = true → missing ≠ [] →
      ∃ e, Command.scanAdditions env p (some provider) o.common.verbose missing = .error e) :
    (Command.scanProject env (some provider) o p scope).tree = env.tree := by
  rw [Command.scanProject, hfound]
  dsimp only
  rw [← hmissing]
  cases hupdate : o.update with
  | false => rfl
  | true =>
    by_cases hnil : missing = []
    · rw [hnil]
      rfl
    · obtain ⟨e, he⟩ := h hupdate hnil
      rw [if_pos rfl, he]
      rfl

/-- A scan writes only if it is asked to, something is missing, the program stops at no reference
and the provider does not refuse. -/
theorem runScan_unchanged_or (provider : Provider) (env : Project.Environment) (o : ScanOptions) :
    (Command.runScan env (some provider) o).tree = env.tree ∨
      ∃ p scope references, Project.ofOptions env o.common = .ok p ∧ p.scope o.ids = .ok scope ∧
        p.references? env.tree = some references ∧
        let missing := (reconcile references (p.catalogs env.tree) scope).missing
        ∃ rs, requests? env.overflow env.tree missing (missing.map Addition.ofMissing)
            p.config.generation.contextWindowLines = some rs ∧
          o.update = true ∧ rs ≠ [] ∧ ¬provider.Refuses rs p.config.generation.systemPrompt := by
  rw [or_iff_not_imp_right]
  intro hnot
  unfold Command.runScan
  cases hp : Project.ofOptions env o.common with
  | error e => rfl
  | ok p =>
    cases hscope : p.scope o.ids with
    | error e =>
      dsimp only
      rw [hscope]
      rfl
    | ok scope =>
      dsimp only
      rw [hscope]
      cases hfound : p.references? env.tree with
      | none =>
        dsimp only
        rw [Command.scanProject, hfound]
        rfl
      | some references =>
        refine tree_scanProject_unchanged hfound rfl fun hupdate hne =>
          scanAdditions_failed hne o.common.verbose fun rs hrs => ?_
        by_contra hrefuses
        exact hnot ⟨p, scope, references, hp, hscope, hfound, rs, hrs, hupdate,
          ne_nil_of_requests? hne hrs, hrefuses⟩

end Scan

/-- The program stops if it does so at the reference of a missing translation that is the first one
with its key. Otherwise there is one request for each missing key, for the locales in which it is
missing. A provider that refuses fails the run. A scan writes only if the program does not stop and
its provider does not refuse. From other providers each addition has the text of its own answer, and
the count is that of the additions that were filled. -/
theorem translate_delivers (provider : Provider) :
    (∀ o now systemPrompt tree missing window,
      let additions := missing.map Addition.ofMissing
      let result := translate? o provider now systemPrompt tree missing additions window
      (result = none ↔ ∃ m, Opens missing m ∧ Checked.Stops o tree m.reference window) ∧
      ((∀ m ∈ missing, m.reference.line + window < UInt64.size) → result ≠ none) ∧
      (requests? o tree missing additions window = none ↔ result = none) ∧
      ∀ rs, requests? o tree missing additions window = some rs →
        (rs.map Request.key = (additions.map Addition.key).eraseDups ∧
          ∀ r ∈ rs, r.targetLocales =
            ((additions.filter fun a => a.key = r.key).map Addition.locale).eraseDups) ∧
        (rs = [] → missing = [] ∧ result = some (.ok ([], 0))) ∧
        (rs ≠ [] → provider.Refuses rs systemPrompt → ∃ e, result = some (.error e)) ∧
        (∀ answers, provider.answers rs systemPrompt = .ok answers → answers.length = rs.length →
          ∃ filled, result = some (.ok (filled, filled.countP Addition.isGenerated)) ∧
            List.Forall₂ (Delivered ⟨some provider.name, provider.model, some now⟩ rs answers)
              additions filled)) ∧
    (∀ env o, (Command.runScan env (some provider) o).tree = env.tree ∨
      ∃ p scope references, Project.ofOptions env o.common = .ok p ∧ p.scope o.ids = .ok scope ∧
        p.references? env.tree = some references ∧
        let missing := (reconcile references (p.catalogs env.tree) scope).missing
        ∃ rs, requests? env.overflow env.tree missing (missing.map Addition.ofMissing)
            p.config.generation.contextWindowLines = some rs ∧
          o.update = true ∧ rs ≠ [] ∧ ¬provider.Refuses rs p.config.generation.systemPrompt) := by
  refine ⟨?_, runScan_unchanged_or provider⟩
  intro o now systemPrompt tree missing window additions result
  have hnone : requests? o tree missing additions window = none ↔ result = none :=
    Option.map_eq_none_iff.symm
  have hstops : result = none ↔ ∃ m, Opens missing m ∧ Checked.Stops o tree m.reference window :=
    hnone.symm.trans requests?_eq_none_iff
  refine ⟨hstops, fun hfits hresult => ?_, hnone, ?_⟩
  · obtain ⟨m, hm, hstop⟩ := hstops.1 hresult
    exact Checked.not_stops_of_lt (hfits m (List.mem_of_find?_eq_some hm)) hstop
  intro rs hrs
  have hresult : result = some (ask provider now systemPrompt rs additions) :=
    congrArg (Option.map _) hrs
  have hlength : additions.length ≤ missing.length := Nat.le_of_eq (List.length_map _)
  have hkeys : rs.map Request.key = (additions.map Addition.key).eraseDups :=
    map_key_requests? hrs hlength
  rw [hresult]
  simp only [Option.some.injEq]
  refine ⟨⟨hkeys, fun r => targetLocales_of_mem_requests? hrs hlength⟩, ?_, ask_refused, ?_⟩
  · intro hnil
    obtain rfl : missing = [] := List.map_eq_nil_iff.1 (eq_nil_of_requests? hrs hlength hnil)
    subst hnil
    exact ⟨rfl, rfl⟩
  · intro answers hanswers hanswered
    have hfresh : ∀ a ∈ additions, a.isGenerated = false := by
      intro a ha
      obtain ⟨m, -, rfl⟩ := List.mem_map.1 ha
      rfl
    refine ⟨additions.map (delivered ⟨some provider.name, provider.model, some now⟩
      (rs.zip answers)), ?_, ?_⟩
    · rw [countP_isGenerated_delivered hfresh]
      exact ask_answered hanswers hanswered (nodup_map_key_requests? hrs hlength)
    · rw [List.forall₂_map_right_iff, List.forall₂_same]
      intro a ha
      refine delivered_spec hanswered ?_
      rw [hkeys, List.mem_eraseDups]
      exact List.mem_map_of_mem ha

/-- Two requests of which the first is answered for one of its locales, a provider with too few
answers, and a run that stops whatever becomes of its sums. -/
theorem translate_delivers_partial :
    let r : Reference :=
      { key := ⟨"A", "Main", "a"⟩, format := .php, file := "/C.php", line := 3,
        fallback := some "F" }
    let tree : FileTree := .put .empty ["C.php"] (.text "one\ntwo\nthree\n")
    let missing : List MissingTranslation :=
      [⟨"de", r.key, r⟩, ⟨"fr", r.key, r⟩, ⟨"de", ⟨"A", "Main", "b"⟩, r⟩, ⟨"de", r.key, r⟩]
    let scripted (answers : List Answer) : Provider :=
      { name := "scripted", answers := fun _ _ => .ok answers }
    let result (o : Checked.Overflow) (answers : List Answer) (window : Nat) :=
      translate? o (scripted answers) "" "" tree missing (missing.map Addition.ofMissing) window
    (∃ rs, requests? .wraps tree missing (missing.map Addition.ofMissing) 1 = some rs ∧
        rs.map (fun r => (r.targetLocales, r.context)) =
          [(["de", "fr"], some "two\nthree"), (["de"], some "two\nthree")]) ∧
      (∃ filled, result .wraps [.ofList [("de", " Hallo "), ("fr", " ")], .empty] 1 =
          some (.ok (filled, 2)) ∧ filled.map Addition.target = ["Hallo", "F", "F", "Hallo"]) ∧
      (∃ e, result .wraps [.ofList [("de", "Hallo")]] 1 = some (.error e)) ∧
      ∀ o answers, result o answers (UInt64.size - 1) = none := by
  intro r tree missing scripted result
  have hread : tree.read r.file = .ok "one\ntwo\nthree\n" := by decide
  obtain ⟨rs, hrs, hview⟩ :
      ∃ rs ∈ requests? .wraps tree missing (missing.map Addition.ofMissing) 1,
        rs.map (fun r => (r.targetLocales, r.context)) =
          [(["de", "fr"], some "two\nthree"), (["de"], some "two\nthree")] := by decide
  have hlength : rs.length = 2 := by simpa using congrArg List.length hview
  refine ⟨⟨rs, hrs, hview⟩, ?_, ?_, ?_⟩
  · obtain ⟨-, -, -, hgiven⟩ := (translate_delivers
      (scripted [.ofList [("de", " Hallo "), ("fr", " ")], .empty])).1 .wraps "" "" tree missing 1
    obtain ⟨-, -, -, hanswered⟩ := hgiven rs hrs
    obtain ⟨filled, hresult, -⟩ := hanswered _ rfl hlength.symm
    have hdone : (result .wraps [.ofList [("de", " Hallo "), ("fr", " ")], .empty] 1).map
        (fun done => done.toOption.map fun done => (done.1.map Addition.target, done.2)) =
          some (some (["Hallo", "F", "F", "Hallo"], 2)) := by decide
    change result _ _ _ = _ at hresult
    rw [hresult] at hdone
    obtain ⟨htargets, hcount⟩ := Prod.mk.inj (Option.some.inj (Option.some.inj hdone))
    exact ⟨filled, hcount ▸ hresult, htargets⟩
  · obtain ⟨-, -, -, hgiven⟩ := (translate_delivers
      (scripted [.ofList [("de", "Hallo")]])).1 .wraps "" "" tree missing 1
    obtain ⟨-, -, hrefused, -⟩ := hgiven rs hrs
    refine hrefused (List.ne_nil_of_length_pos (by omega)) ?_
    intro answers hanswers
    cases hanswers
    rw [hlength]
    decide
  · intro o answers
    have hopens : Opens missing ⟨"de", r.key, r⟩ := List.find?_cons_of_pos (by decide)
    refine ((translate_delivers (scripted answers)).1 o "" "" tree missing (UInt64.size - 1)).1.2
      ⟨⟨"de", r.key, r⟩, hopens, by decide, _, hread, by decide, by decide, ?_⟩
    cases o with
    | stops => exact Nat.le_of_lt (by decide)
    | wraps => exact (Checked.Overflow.wraps_fails_iff (by decide) (by decide) (by decide)).2 rfl

end TranslationAudit.Translation

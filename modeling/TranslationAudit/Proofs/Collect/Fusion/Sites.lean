import Mathlib.Data.List.Nodup
import TranslationAudit.Proofs.Collect.Fusion.Total

/-! # Where the references of a Fusion file come from

* `Fusion.eq_of_begin`: at most one token begins at a place.
* `Fusion.nodup_places`: no two calls are found at the same place, in whichever passes.
* `Fusion.nodup_sites`: so each token makes one reference at most, and each reference comes from a
  token at the beginning of a word.
-/

namespace TranslationAudit.Fusion

open Text
open scoped List

variable {text : List Char} {token other : String × Bool} {skips : Nat → Bool}
variable {read : Bool → List Char → Option (RawCall × List Char)}

/-! ## Tokens -/

theorem eq_of_begin {s : List Char} (htoken : token ∈ inlineTokens ++ fluentTokens)
    (hother : other ∈ inlineTokens ++ fluentTokens) (h : token.1.toList <+: s)
    (h' : other.1.toList <+: s) : token.1 = other.1 := by
  have hbegins : ∀ token ∈ inlineTokens ++ fluentTokens, ∀ other ∈ inlineTokens ++ fluentTokens,
      token.1.toList <+: other.1.toList → token.1 = other.1 := by decide
  rcases List.prefix_or_prefix_of_prefix h h' with hle | hle
  · exact hbegins token htoken other hother hle
  · exact (hbegins other hother token htoken hle).symm

section Reads

variable {token : List Char} {read : List Char → Option (RawCall × List Char)} {start stop : Nat}
variable {call : RawCall}

theorem Reads.prefix_drop (h : Reads text token skips read start call stop) :
    token <+: text.drop start := by
  obtain ⟨rest, hrest, -⟩ := h.call
  exact ⟨rest, hrest.symm⟩

theorem Reads.exists_front (htoken : token ≠ []) (h : Reads text token skips read start call stop) :
    ∃ front rest, text = front ++ (token ++ rest) ∧ front.length = start ∧
      read rest = some (call, text.drop stop) := by
  obtain ⟨rest, hrest, hread⟩ := h.call
  refine ⟨text.take start, rest, by rw [← hrest, List.take_append_drop], ?_, hread⟩
  have hlength := congrArg List.length hrest
  have hpositive := List.length_pos_iff.2 htoken
  rw [List.length_drop, List.length_append] at hlength
  rw [List.length_take]
  omega

end Reads

/-! ## Places of calls -/

theorem exists_reads_of_mem {start : Nat} {call : RawCall}
    (htoken : token ∈ inlineTokens ++ fluentTokens)
    (hread : ∀ isPlural s call rest, read isPlural s = some (call, rest) → rest <:+ s)
    (h : (start, call) ∈ scan text token.1.toList skips (read token.2) 0 text) :
    ∃ stop, Reads text token.1.toList skips (read token.2) start call stop := by
  have hscan : Outermost (Reads text token.1.toList skips (read token.2)) 0
      (scan text token.1.toList skips (read token.2) 0 text) :=
    outermost_scan (toList_ne_nil_of_mem htoken) (hread token.2) 0
  obtain ⟨-, stop, hreads, -⟩ := (hscan start call).1 h
  exact ⟨stop, hreads⟩

/-- The calls that the scans for some tokens find. -/
def scans (text : List Char) (skips : Nat → Bool)
    (read : Bool → List Char → Option (RawCall × List Char)) (tokens : List (String × Bool)) :
    List (Nat × RawCall) :=
  tokens.flatMap fun token => scan text token.1.toList skips (read token.2) 0 text

theorem calls_eq_scans (text : List Char) :
    calls text = scans text (fun _ => false) readInline inlineTokens ++
      scans text ((scans text (fun _ => false) readInline inlineTokens).map Prod.fst).contains
        readFluent fluentTokens := rfl

theorem exists_reads_of_mem_scans {tokens : List (String × Bool)} {start : Nat} {call : RawCall}
    (htokens : tokens ⊆ inlineTokens ++ fluentTokens)
    (hread : ∀ isPlural s call rest, read isPlural s = some (call, rest) → rest <:+ s)
    (h : (start, call) ∈ scans text skips read tokens) :
    ∃ token ∈ tokens, ∃ stop, Reads text token.1.toList skips (read token.2) start call stop := by
  obtain ⟨token, htoken, hmem⟩ := List.mem_flatMap.1 h
  exact ⟨token, htoken, exists_reads_of_mem (htokens htoken) hread hmem⟩

theorem nodup_scans {tokens : List (String × Bool)}
    (htokens : tokens ⊆ inlineTokens ++ fluentTokens) (hnames : (tokens.map Prod.fst).Nodup)
    (hread : ∀ isPlural s call rest, read isPlural s = some (call, rest) → rest <:+ s) :
    ((scans text skips read tokens).map Prod.fst).Nodup := by
  rw [scans, List.map_flatMap, List.nodup_flatMap]
  constructor
  · intro token _
    exact (List.pairwise_map.2 (ascending_scan _ _ _ _ _ _).pairwise).imp Nat.ne_of_lt
  · refine (List.pairwise_map.1 hnames).imp_of_mem fun {token other} htoken hother hne => ?_
    -- a place at which both tokens stand
    intro start hmem hmem'
    obtain ⟨⟨_, call⟩, hcall, rfl⟩ := List.mem_map.1 hmem
    obtain ⟨⟨_, call'⟩, hcall', rfl⟩ := List.mem_map.1 hmem'
    obtain ⟨stop, hreads⟩ := exists_reads_of_mem (htokens htoken) hread hcall
    obtain ⟨stop', hreads'⟩ := exists_reads_of_mem (htokens hother) hread hcall'
    exact hne (eq_of_begin (htokens htoken) (htokens hother) hreads.prefix_drop
      hreads'.prefix_drop)

theorem nodup_places (text : List Char) : ((calls text).map Prod.fst).Nodup := by
  rw [calls_eq_scans, List.map_append, List.nodup_append]
  refine ⟨nodup_scans (List.subset_append_left _ _) (by decide) fun _ => suffix_of_readInline,
    nodup_scans (List.subset_append_right _ _) (by decide) fun _ => suffix_of_readFluent, ?_⟩
  rintro start htaken _ hmem rfl
  obtain ⟨⟨_, call⟩, hcall, rfl⟩ := List.mem_map.1 hmem
  obtain ⟨token, -, stop, hreads⟩ := exists_reads_of_mem_scans
    (List.subset_append_right _ _) (fun _ => suffix_of_readFluent) hcall
  have hlooked := hreads.looked
  rw [List.contains_iff_mem.2 htaken] at hlooked
  cases hlooked

/-! ## References -/

/-- A reference from a token at an offset. The token begins a word, and the reference is what an
inline or a fluent call behind it says. -/
def IsSite (file : String) (text : List Char) (offset : Nat) (r : Reference) : Prop :=
  ∃ token ∈ inlineTokens ++ fluentTokens, ∃ front rest call left,
    text = front ++ (token.1.toList ++ rest) ∧ byteLength front = offset ∧
      atWordStart text front.length = true ∧
      (readInline token.2 rest = some (call, left) ∨ readFluent token.2 rest = some (call, left)) ∧
      reference? file (front.count '\n' + 1) call = some r

theorem exists_of_mem_calls {start : Nat} {call : RawCall} (h : (start, call) ∈ calls text) :
    ∃ token ∈ inlineTokens ++ fluentTokens, ∃ front rest left,
      text = front ++ (token.1.toList ++ rest) ∧ front.length = start ∧
        atWordStart text start = true ∧
        (readInline token.2 rest = some (call, left) ∨
          readFluent token.2 rest = some (call, left)) := by
  rw [calls_eq_scans, List.mem_append] at h
  rcases h with h | h
  · have hsub := List.subset_append_left inlineTokens fluentTokens
    obtain ⟨token, htoken, stop, hreads⟩ :=
      exists_reads_of_mem_scans hsub (fun _ => suffix_of_readInline) h
    obtain ⟨front, rest, htext, hlength, hread⟩ :=
      hreads.exists_front (toList_ne_nil_of_mem (hsub htoken))
    exact ⟨token, hsub htoken, front, rest, _, htext, hlength, hreads.word, .inl hread⟩
  · have hsub := List.subset_append_right inlineTokens fluentTokens
    obtain ⟨token, htoken, stop, hreads⟩ :=
      exists_reads_of_mem_scans hsub (fun _ => suffix_of_readFluent) h
    obtain ⟨front, rest, htext, hlength, hread⟩ :=
      hreads.exists_front (toList_ne_nil_of_mem (hsub htoken))
    exact ⟨token, hsub htoken, front, rest, _, htext, hlength, hreads.word, .inr hread⟩

theorem isSite_of_mem {file : String} {site : Nat × Reference} (h : site ∈ sites file text) :
    IsSite file text site.1 site.2 := by
  obtain ⟨⟨start, call⟩, hcall, hsite⟩ := List.mem_filterMap.1 h
  obtain ⟨r, hreference, rfl⟩ := Option.map_eq_some_iff.1 hsite
  obtain ⟨token, htoken, front, rest, left, rfl, rfl, hword, hread⟩ := exists_of_mem_calls hcall
  refine ⟨token, htoken, front, rest, call, left, rfl, (offsetOf_length _ _).symm, hword, hread, ?_⟩
  rwa [lineAt, List.take_left] at hreference

theorem map_filterMap_sublist {α β γ : Type} (place : α → β) (find : α → Option γ) (l : List α) :
    (l.filterMap fun a => (find a).map (place a, ·)).map Prod.fst <+ l.map place := by
  induction l with
  | nil => exact List.Sublist.refl _
  | cons a l ih =>
    rw [List.filterMap_cons]
    cases find a with
    | none => exact ih.cons _
    | some c => exact ih.cons_cons _

theorem nodup_offsets (file : String) (text : List Char) :
    ((sites file text).map Prod.fst).Nodup := by
  have hsub : (sites file text).map Prod.fst <+
      ((calls text).map Prod.fst).map (offsetOf text) := by
    rw [sites, List.map_map]
    exact map_filterMap_sublist _ _ _
  refine List.Nodup.sublist hsub ?_
  refine (nodup_places text).map_on fun start hstart other hother heq => ?_
  obtain ⟨⟨_, call⟩, hcall, rfl⟩ := List.mem_map.1 hother
  refine offsetOf_inj ?_ heq
  obtain ⟨token, htoken, front, rest, left, htext, hlength, -⟩ := exists_of_mem_calls hcall
  have hpositive := List.length_pos_iff.2 (toList_ne_nil_of_mem htoken)
  rw [htext, List.length_append, List.length_append]
  omega

/-- Each token of a file makes one reference at most: no two references come from the same offset,
whichever passes find them. -/
theorem nodup_sites (file text : String) :
    ∃ sites, Checked.sites? file text = some sites ∧
      sites.map Prod.snd = collectFusion file text ∧ (sites.map Prod.fst).Nodup ∧
      ∀ site ∈ sites, IsSite file text.toList site.1 site.2 :=
  ⟨sites file text.toList, sites?_eq file text, map_sites file text,
    nodup_offsets file text.toList, fun _ => isSite_of_mem⟩

end TranslationAudit.Fusion

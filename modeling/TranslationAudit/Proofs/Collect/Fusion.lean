import TranslationAudit.Collect.Fusion
import TranslationAudit.Proofs.Text.Cut

/-! # Calls that are found in Fusion files

* `Fusion.Reads`: what a scan reads where a token stands at the beginning of a word.
* `Fusion.outermost_scan`: a scan finds what is read at a place unless the place lies within a call
  that it found before.
* `Fusion.collects_calls`: so the calls of an inline token are found within the arguments of other
  tokens too, but not within those of their own token.
-/

namespace TranslationAudit.Fusion

/-! ## Outermost calls -/

section Outermost

variable {reads : Nat → RawCall → Nat → Prop} {found : List (Nat × RawCall)}
variable {position start stop : Nat} {call : RawCall}

/-- The calls of a list are those that are read from a position on, but for those that lie within
others of the list. -/
def Outermost (reads : Nat → RawCall → Nat → Prop) (position : Nat)
    (found : List (Nat × RawCall)) : Prop :=
  ∀ start call, (start, call) ∈ found ↔
    position ≤ start ∧ ∃ stop, reads start call stop ∧
      ∀ outer outerCall outerStop, (outer, outerCall) ∈ found →
        reads outer outerCall outerStop → outer < start → outerStop ≤ start

theorem outermost_nil (h : ∀ start call stop, position ≤ start → ¬ reads start call stop) :
    Outermost reads position [] := by
  intro start call
  constructor
  · intro hmem
    cases hmem
  · rintro ⟨hposition, stop, hreads, -⟩
    exact absurd hreads (h start call stop hposition)

/-- Where nothing is read, a scan goes on. -/
theorem Outermost.skip (h : Outermost reads (position + 1) found)
    (hnone : ∀ call stop, ¬ reads position call stop) : Outermost reads position found := by
  intro start call
  rw [h start call]
  refine and_congr_left ?_
  rintro ⟨stop, hreads, -⟩
  have hne : start ≠ position := by
    rintro rfl
    exact hnone call stop hreads
  omega

/-- Where a call is read, a scan goes on behind it. -/
theorem Outermost.cons (h : Outermost reads stop found) (hreads : reads position call stop)
    (hunique : ∀ call' stop', reads position call' stop' → call' = call ∧ stop' = stop)
    (hstop : position < stop) : Outermost reads position ((position, call) :: found) := by
  intro start call'
  rw [List.mem_cons, h start call', Prod.mk.injEq]
  constructor
  · rintro (⟨rfl, rfl⟩ | ⟨hstart, stop', hreads', houter⟩)
    · refine ⟨Nat.le_refl _, stop, hreads, ?_⟩
      intro outer outerCall outerStop hmem _ hlt
      rcases List.mem_cons.1 hmem with heq | hmem
      · cases heq
        omega
      · have hle := ((h outer outerCall).1 hmem).1
        omega
    · refine ⟨by omega, stop', hreads', ?_⟩
      intro outer outerCall outerStop hmem hread hlt
      rcases List.mem_cons.1 hmem with heq | hmem
      · cases heq
        obtain ⟨-, rfl⟩ := hunique _ _ hread
        exact hstart
      · exact houter outer outerCall outerStop hmem hread hlt
  · rintro ⟨hposition, stop', hreads', houter⟩
    by_cases hsame : start = position
    · subst hsame
      exact .inl ⟨rfl, (hunique call' stop' hreads').1⟩
    · have hstart := houter position call stop List.mem_cons_self hreads (by omega)
      refine .inr ⟨hstart, stop', hreads', ?_⟩
      intro outer outerCall outerStop hmem hread hlt
      exact houter outer outerCall outerStop (List.mem_cons_of_mem _ hmem) hread hlt

end Outermost

/-! ## Scanning -/

section Scan

variable {text token : List Char} {skips : Nat → Bool}
variable {read : List Char → Option (RawCall × List Char)}

/-- What a scan reads at a place: a token that begins a word, and a call from what follows it, up
to the place `stop`. -/
structure Reads (text token : List Char) (skips : Nat → Bool)
    (read : List Char → Option (RawCall × List Char)) (start : Nat) (call : RawCall)
    (stop : Nat) : Prop where
  looked : skips start = false
  word : atWordStart text start = true
  call : ∃ rest, text.drop start = token ++ rest ∧ read rest = some (call, text.drop stop)
  stop_le : stop ≤ text.length

theorem Reads.unique {start stop stop' : Nat} {call call' : RawCall}
    (h : Reads text token skips read start call stop)
    (h' : Reads text token skips read start call' stop') : call' = call ∧ stop' = stop := by
  obtain ⟨rest, htext, hread⟩ := h.call
  obtain ⟨rest', htext', hread'⟩ := h'.call
  obtain rfl : rest = rest' := List.append_cancel_left (htext.symm.trans htext')
  rw [hread, Option.some.injEq, Prod.mk.injEq] at hread'
  obtain ⟨hcall, hdrop⟩ := hread'
  have hlength := congrArg List.length hdrop
  simp only [List.length_drop] at hlength
  have hle := h.stop_le
  have hle' := h'.stop_le
  exact ⟨hcall.symm, by omega⟩

/-- A scan finds what is read from its position on, but for what lies within a call that it found.
Reading takes at least one character, and what it leaves are the last characters of its text. -/
theorem outermost_scan (htoken : token ≠ [])
    (hread : ∀ s call rest, read s = some (call, rest) → rest <:+ s) (position : Nat) :
    Outermost (Reads text token skips read) position
      (scan text token skips read position (text.drop position)) := by
  generalize hs : text.drop position = s
  fun_induction scan text token skips read position s with
  | case1 position =>
    refine outermost_nil ?_
    rintro start call stop hstart ⟨-, -, ⟨rest, htext, -⟩, -⟩
    have hshort : text.length ≤ start := Nat.le_trans (List.drop_eq_nil_iff.1 hs) hstart
    rw [List.drop_eq_nil_iff.2 hshort] at htext
    exact htoken (List.append_eq_nil_iff.1 htext.symm).1
  | case2 position c r hafter ih =>
    refine (ih (by rw [← List.drop_drop, hs]; rfl)).skip ?_
    rintro call stop ⟨-, -, ⟨rest, htext, -⟩, -⟩
    rw [← hs, htext, Text.after?_append] at hafter
    cases hafter
  | case3 position c r rest hafter hskips ih =>
    refine (ih (by rw [← List.drop_drop, hs]; rfl)).skip ?_
    rintro call stop ⟨hlooked, hword, -⟩
    simp [hlooked, hword] at hskips
  | case4 position c r rest hafter hskips hnone ih =>
    refine (ih (by rw [← List.drop_drop, hs]; rfl)).skip ?_
    rintro call stop ⟨-, -, ⟨rest', htext, hread'⟩, -⟩
    rw [← hs, htext, Text.after?_append, Option.some.injEq] at hafter
    rw [hafter, hnone] at hread'
    cases hread'
  | case5 position c r rest hafter hskips call left hcall hlt ih =>
    have htext := Text.eq_append_of_after? hafter
    obtain ⟨taken, rfl⟩ := hread _ _ _ hcall
    have hlength := congrArg List.length htext
    rw [List.length_append, List.length_append] at hlength
    have hposition : text.length = position + (c :: r).length := by
      have hdrop := congrArg List.length hs
      rw [List.length_drop, List.length_cons] at hdrop
      rw [List.length_cons]
      omega
    generalize hstop : position + ((c :: r).length - left.length) = stop at ih ⊢
    have hleft : text.drop stop = left := by
      rw [← hstop, ← List.drop_drop, hs, hlength, htext, ← List.append_assoc]
      exact List.drop_left' (by rw [List.length_append]; omega)
    have hreads : Reads text token skips read position call stop := by
      simp only [Bool.or_eq_true, Bool.not_eq_true', not_or, Bool.not_eq_true,
        Bool.not_eq_false] at hskips
      exact ⟨hskips.1, hskips.2, ⟨_, hs.trans htext, hleft.symm ▸ hcall⟩, by omega⟩
    exact (ih hleft).cons hreads (fun _ _ h => hreads.unique h) (by omega)
  | case6 position c r rest hafter hskips call left hcall hlt =>
    -- what is left is shorter, as the token is not empty
    have hlength := congrArg List.length (Text.eq_append_of_after? hafter)
    rw [List.length_append] at hlength
    have hle := (hread _ _ _ hcall).length_le
    have hpositive := List.length_pos_iff.2 htoken
    omega

/-- The places of calls increase, from a position on. -/
structure Ascending (position : Nat) (found : List (Nat × RawCall)) : Prop where
  le : ∀ call ∈ found, position ≤ call.1
  pairwise : found.Pairwise fun a b => a.1 < b.1

theorem Ascending.of_le {position start : Nat} {found : List (Nat × RawCall)}
    (h : Ascending start found) (hle : position ≤ start) : Ascending position found :=
  ⟨fun call hmem => Nat.le_trans hle (h.le call hmem), h.pairwise⟩

theorem Ascending.cons {position start : Nat} {found : List (Nat × RawCall)}
    (h : Ascending start found) (hlt : position < start) (call : RawCall) :
    Ascending position ((position, call) :: found) := by
  refine ⟨?_, List.pairwise_cons.2 ⟨fun later hmem => ?_, h.pairwise⟩⟩
  · rw [List.forall_mem_cons]
    exact ⟨Nat.le_refl _, fun later hmem => Nat.le_trans (Nat.le_of_lt hlt) (h.le later hmem)⟩
  · exact Nat.lt_of_lt_of_le hlt (h.le later hmem)

theorem ascending_scan (text token : List Char) (skips : Nat → Bool)
    (read : List Char → Option (RawCall × List Char)) (position : Nat) (s : List Char) :
    Ascending position (scan text token skips read position s) := by
  fun_induction scan text token skips read position s with
  | case1 => exact ⟨nofun, .nil⟩
  | case2 | case3 | case4 =>
    rename_i ih
    exact ih.of_le (Nat.le_succ _)
  | case5 position c r rest hafter hskips call left hcall hlt ih =>
    exact ih.cons (by omega) call
  | case6 => exact ⟨by simp, List.pairwise_singleton _ _⟩

/-- Where a single call is read, a scan finds that call and no other. -/
theorem scan_eq_singleton {start stop : Nat} {call : RawCall} (htoken : token ≠ [])
    (hread : ∀ s call rest, read s = some (call, rest) → rest <:+ s)
    (h : Reads text token skips read start call stop)
    (honly : ∀ start' call' stop', Reads text token skips read start' call' stop' →
      start' = start) : scan text token skips read 0 text = [(start, call)] := by
  have hfound : Outermost (Reads text token skips read) 0 (scan text token skips read 0 text) :=
    outermost_scan htoken hread 0
  have hnodup : (scan text token skips read 0 text).Nodup := by
    refine (ascending_scan text token skips read 0 text).pairwise.imp ?_
    rintro a b hlt rfl
    exact Nat.lt_irrefl _ hlt
  refine List.perm_singleton.1 ((List.perm_ext_iff_of_nodup hnodup (List.pairwise_singleton _ _)).2 ?_)
  rintro ⟨start', call'⟩
  rw [hfound, List.mem_singleton, Prod.mk.injEq]
  constructor
  · rintro ⟨-, stop', hreads, -⟩
    obtain rfl := honly _ _ _ hreads
    exact ⟨rfl, (h.unique hreads).1⟩
  · rintro ⟨rfl, rfl⟩
    refine ⟨Nat.zero_le _, stop, h, ?_⟩
    intro outer outerCall outerStop _ hreads hlt
    exact absurd (honly _ _ _ hreads) (Nat.ne_of_lt hlt)

theorem scan_eq_nil (htoken : token ≠ [])
    (hread : ∀ s call rest, read s = some (call, rest) → rest <:+ s)
    (hnone : ∀ start call stop, ¬ Reads text token skips read start call stop) :
    scan text token skips read 0 text = [] := by
  have hfound : Outermost (Reads text token skips read) 0 (scan text token skips read 0 text) :=
    outermost_scan htoken hread 0
  refine List.eq_nil_iff_forall_not_mem.2 ?_
  rintro ⟨start, call⟩ hmem
  obtain ⟨-, stop, hreads, -⟩ := (hfound start call).1 hmem
  exact hnone start call stop hreads

end Scan

/-! ## Inline calls -/

theorem eq_append_of_cutBalanced? {quote : Option Char} {depth : Nat} {s a b : List Char}
    (h : cutBalanced? quote depth s = some (a, b)) : s = a ++ ')' :: b := by
  fun_induction cutBalanced? quote depth s generalizing a b with
  | case1 => cases h
  | case2 => cases h
  | case7 =>
    cases h
    rfl
  | case3 | case4 | case5 | case6 | case8 | case9 =>
    -- a character that is passed over
    rename_i ih
    obtain ⟨⟨a', b'⟩, hcut, heq⟩ := Option.map_eq_some_iff.1 h
    cases heq
    rw [ih hcut]
    rfl

theorem suffix_of_cutCall? {s a b : List Char} (h : cutCall? s = some (a, b)) : b <:+ s := by
  unfold cutCall? at h
  split at h
  · next r hr =>
    have hopen : '(' :: r <:+ s := hr ▸ List.dropWhile_suffix isSpace
    rw [eq_append_of_cutBalanced? h] at hopen
    exact (List.suffix_append ('(' :: a ++ [')']) b).trans (by simpa using hopen)
  · cases h

/-- A call in a text: a token that begins a word, before a balanced list of arguments. -/
structure IsCall (text : List Char) (token : String) (start : Nat) (arguments : List Char)
    (stop : Nat) : Prop where
  word : atWordStart text start = true
  list : ∃ rest, text.drop start = token.toList ++ rest ∧
    cutCall? rest = some (arguments, text.drop stop)
  stop_le : stop ≤ text.length

/-- A call that is found in a text. -/
structure Found (text : List Char) (token : String) (isPlural : Bool) (start : Nat)
    (arguments : List Char) (stop : Nat) : Prop where
  isCall : IsCall text token start arguments stop
  mem : (start, RawCall.ofArguments isPlural arguments) ∈ inlineCalls text token isPlural

def readInline (isPlural : Bool) (s : List Char) : Option (RawCall × List Char) :=
  (cutCall? s).map fun (arguments, rest) => (RawCall.ofArguments isPlural arguments, rest)

theorem suffix_of_readInline {isPlural : Bool} (s : List Char) (call : RawCall) (rest : List Char)
    (h : readInline isPlural s = some (call, rest)) : rest <:+ s := by
  obtain ⟨⟨arguments, left⟩, hcut, heq⟩ := Option.map_eq_some_iff.1 h
  cases heq
  exact suffix_of_cutCall? hcut

theorem reads_inline_iff {text : List Char} {token : String} {isPlural : Bool} {start stop : Nat}
    {call : RawCall} :
    Reads text token.toList (fun _ => false) (readInline isPlural) start call stop ↔
      ∃ arguments, IsCall text token start arguments stop ∧
        call = .ofArguments isPlural arguments := by
  constructor
  · rintro ⟨-, hword, ⟨rest, htext, hread⟩, hstop⟩
    obtain ⟨⟨arguments, left⟩, hcut, heq⟩ := Option.map_eq_some_iff.1 hread
    rw [Prod.mk.injEq] at heq
    obtain ⟨rfl, rfl⟩ := heq
    exact ⟨arguments, ⟨hword, ⟨rest, htext, hcut⟩, hstop⟩, rfl⟩
  · rintro ⟨arguments, ⟨hword, ⟨rest, htext, hcut⟩, hstop⟩, rfl⟩
    exact ⟨rfl, hword, ⟨rest, htext, by rw [readInline, hcut]; rfl⟩, hstop⟩

theorem mem_inlineCalls_iff {text : List Char} {token : String} (htoken : token ≠ "")
    {isPlural : Bool} {start stop : Nat} {arguments : List Char}
    (hcall : IsCall text token start arguments stop) :
    (start, RawCall.ofArguments isPlural arguments) ∈ inlineCalls text token isPlural ↔
      ∀ outer list outerStop, Found text token isPlural outer list outerStop → outer < start →
        outerStop ≤ start := by
  have hlist : token.toList ≠ [] := by simpa using htoken
  have hscan : Outermost (Reads text token.toList (fun _ => false) (readInline isPlural)) 0
      (inlineCalls text token isPlural) := outermost_scan hlist suffix_of_readInline 0
  refine (hscan start (.ofArguments isPlural arguments)).trans ?_
  constructor
  · rintro ⟨-, stop', hreads, houter⟩ outer list outerStop ⟨hisCall, hmem⟩ hlt
    exact houter outer _ outerStop hmem (reads_inline_iff.2 ⟨list, hisCall, rfl⟩) hlt
  · intro houter
    refine ⟨Nat.zero_le _, stop, reads_inline_iff.2 ⟨arguments, hcall, rfl⟩, ?_⟩
    intro outer outerCall outerStop hmem hreads hlt
    obtain ⟨list, hisCall, rfl⟩ := reads_inline_iff.1 hreads
    exact houter outer list outerStop ⟨hisCall, hmem⟩ hlt

theorem mem_collectFusion_of_mem {token : String} {isPlural : Bool}
    (htoken : (token, isPlural) ∈ inlineTokens) {file text : String} {start : Nat} {call : RawCall}
    {r : Reference} (hmem : (start, call) ∈ inlineCalls text.toList token isPlural)
    (hr : reference? file (lineAt text.toList start) call = some r) :
    r ∈ collectFusion file text := by
  refine List.mem_filterMap.2 ⟨(start, call), ?_, hr⟩
  exact List.mem_append_left _ (List.mem_flatMap.2 ⟨(token, isPlural), htoken, hmem⟩)

/-- A call of an inline token is found unless it begins within a call of the same token that is
found. Each call that is found and names a message is referenced from its line. -/
theorem collects_calls {token : String} {isPlural : Bool}
    (htoken : (token, isPlural) ∈ inlineTokens) {file text : String} {start stop : Nat}
    {arguments : List Char} (hcall : IsCall text.toList token start arguments stop) :
    (Found text.toList token isPlural start arguments stop ↔
        ¬∃ outer list outerStop, Found text.toList token isPlural outer list outerStop ∧
          outer < start ∧ start < outerStop) ∧
      (Found text.toList token isPlural start arguments stop →
        ∀ r, reference? file (lineAt text.toList start) (.ofArguments isPlural arguments) = some r →
          r ∈ collectFusion file text) := by
  have hnames : ∀ entry ∈ inlineTokens, entry.1 ≠ "" := by decide
  have hne : token ≠ "" := hnames _ htoken
  refine ⟨⟨?_, ?_⟩, fun hfound r hr => mem_collectFusion_of_mem htoken hfound.mem hr⟩
  · rintro hfound ⟨outer, list, outerStop, houter, hlt, hwithin⟩
    have hle := (mem_inlineCalls_iff hne hcall).1 hfound.mem outer list outerStop houter hlt
    omega
  · intro hnone
    refine ⟨hcall, (mem_inlineCalls_iff hne hcall).2 ?_⟩
    intro outer list outerStop houter hlt
    refine Nat.le_of_not_lt fun hwithin => ?_
    exact hnone ⟨outer, list, outerStop, houter, hlt, hwithin⟩

def nestedCalls : String := "\n$\x7bI18n.translate('A:M:a', I18n.plural('A:M:b'))\x7d"

/-- The reference to a plural message within the arguments of another call. -/
theorem collects_calls_nested :
    ∃ r ∈ collectFusion "A.fusion" nestedCalls,
      r.key = ⟨"A", "M", "b"⟩ ∧ r.line = 2 := by
  have htoken : ("I18n.plural", true) ∈ inlineTokens := by decide
  have hcall : IsCall nestedCalls.toList "I18n.plural" 27 "'A:M:b'".toList 47 :=
    ⟨by decide +kernel, ⟨"('A:M:b'))\x7d".toList, by decide +kernel, by decide +kernel⟩,
      by decide +kernel⟩
  have hstarts : (inlineCalls nestedCalls.toList "I18n.plural" true).map Prod.fst = [27] := by
    decide +kernel
  obtain ⟨hfound, hreferenced⟩ := @collects_calls _ _ htoken "A.fusion" _ _ _ _ hcall
  have hr : (reference? "A.fusion" (lineAt nestedCalls.toList 27)
      (.ofArguments true "'A:M:b'".toList)).map (fun r => (r.key, r.line)) =
        some (⟨"A", "M", "b"⟩, 2) := by decide +kernel
  obtain ⟨r, hr, heq⟩ := Option.map_eq_some_iff.1 hr
  rw [Prod.mk.injEq] at heq
  refine ⟨r, hreferenced (hfound.2 ?_) r hr, heq⟩
  rintro ⟨outer, list, outerStop, ⟨-, hmem⟩, hlt, -⟩
  have houter := List.mem_map_of_mem (f := Prod.fst) hmem
  rw [hstarts, List.mem_singleton] at houter
  omega

/-- A call within one of its own token is left out. -/
example : (collectFusion "A.fusion" "$\x7bI18n.translate('A:M:a', I18n.translate('A:M:b'))\x7d").map
    (fun r => r.key.id) = ["a"] := by
  decide +kernel

end TranslationAudit.Fusion

import TranslationAudit.Proofs.Collect.Fusion.Passes

/-! # Fusion files are read to their end

* `Fusion.mirrors_inline`, `Fusion.mirrors_fluent`: the passes over the tokens read what the scans
  of characters read.
* `Fusion.StaysWithin`: the offsets at which blanks, quotes, lists and names end.
* `Fusion.collectFusion?_total`: each loop ends, its offsets grow up to the length of the text, and
  all slices exist.
-/

namespace TranslationAudit.Fusion

open Text

variable {text : List Char} {token : String × Bool}

/-! ## Passes of the tokens -/

theorem lone_of_mem (h : token ∈ inlineTokens ++ fluentTokens) : Lone token.1.toList := by
  have hheads : ∀ token ∈ inlineTokens ++ fluentTokens,
      ∀ c ∈ token.1.toList.head?, c ∉ token.1.toList.tail := by
    simp [inlineTokens, fluentTokens]
  obtain ⟨c, r, hcons⟩ := List.exists_cons_of_ne_nil (toList_ne_nil_of_mem h)
  have hhead := hheads token h
  rw [hcons] at hhead ⊢
  exact ⟨c, r, rfl, hhead c rfl⟩

theorem mirrors_inline (text : List Char) (h : token ∈ inlineTokens) :
    Mirrors text token.1.toList (fun _ => false) (Checked.readInline? text token.2)
      (fun _ => false) (readInline token.2) where
  lone := lone_of_mem (List.mem_append_left _ h)
  skips_eq _ _ := rfl
  read?_eq _ _ hrest := Checked.readInline?_eq hrest token.2
  suffix := suffix_of_readInline

theorem mirrors_fluent (h : token ∈ fluentTokens) {skips skipsPlace : Nat → Bool}
    (hskips : ∀ place < text.length, skips (offsetOf text place) = skipsPlace place) :
    Mirrors text token.1.toList skips (Checked.readFluent? text token.2) skipsPlace
      (readFluent token.2) where
  lone := lone_of_mem (List.mem_append_right _ h)
  skips_eq := hskips
  read?_eq _ _ hrest := Checked.readFluent?_eq hrest token.2
  suffix := suffix_of_readFluent

section Pass

variable {skips : Nat → Bool} {read? : Nat → Option (Option (RawCall × Nat))}
variable {skipsPlace : Nat → Bool} {read : List Char → Option (RawCall × List Char)}

theorem Mirrors.exists_pass (h : Mirrors text token.1.toList skips read? skipsPlace read) :
    ∃ rounds,
      Checked.rounds? (Checked.passRound? text token.1.toList skips read?)
        (Checked.roundLimit text) 0 = some rounds ∧
      Advances text 0 rounds ∧
      rounds.filterMap Prod.fst =
        (scan text token.1.toList skipsPlace read 0 text).map fun entry =>
          (offsetOf text entry.1, entry.2) := by
  obtain ⟨rounds, hrounds, hadvances⟩ :=
    h.steps.exists_rounds? (.zero text) (Nat.lt_succ_self (byteLength text))
  have hfront : text = [] ++ text := rfl
  exact ⟨rounds, hrounds, hadvances, h.filterMap_rounds hfront hrounds⟩

end Pass

/-- The passes over some tokens, one after another. -/
theorem exists_passes {tokens : List (String × Bool)}
    (pass? : String × Bool → Option (List (Option (Nat × RawCall) × Nat)))
    (find : String × Bool → List (Nat × RawCall))
    (h : ∀ token ∈ tokens, ∃ rounds, pass? token = some rounds ∧
      rounds.filterMap Prod.fst = find token) :
    ∃ passes, tokens.mapM pass? = some passes ∧ Checked.found passes = tokens.flatMap find := by
  induction tokens with
  | nil => exact ⟨[], rfl, rfl⟩
  | cons token tokens ih =>
    rw [List.forall_mem_cons] at h
    obtain ⟨⟨rounds, hrounds, hfound⟩, hlater⟩ := h
    obtain ⟨passes, hpasses, hrest⟩ := ih hlater
    refine ⟨rounds :: passes, by simp [List.mapM_cons, hrounds, hpasses], ?_⟩
    rw [Checked.found] at hrest ⊢
    rw [List.flatten_cons, List.filterMap_append, hfound, hrest, List.flatMap_cons]

theorem contains_map_offsetOf (taken : List Nat) {place : Nat} (hplace : place < text.length) :
    (taken.map (offsetOf text)).contains (offsetOf text place) = taken.contains place := by
  rw [Bool.eq_iff_iff, List.contains_iff_mem, List.contains_iff_mem, List.mem_map]
  constructor
  · rintro ⟨other, hmem, heq⟩
    rwa [← offsetOf_inj hplace heq]
  · exact fun hmem => ⟨place, hmem, rfl⟩

theorem Checked.found_append (passes later : List (List (Option (Nat × RawCall) × Nat))) :
    found (passes ++ later) = found passes ++ found later := by
  rw [found, List.flatten_append, List.filterMap_append]
  rfl

/-- The references of a file that is read by characters, each with the offset of its token. -/
def sites (file : String) (text : List Char) : List (Nat × Reference) :=
  (calls text).filterMap fun entry =>
    (reference? file (lineAt text entry.1) entry.2).map (offsetOf text entry.1, ·)

theorem map_sites (file text : String) :
    (sites file text.toList).map Prod.snd = collectFusion file text := by
  rw [sites, List.map_filterMap, collectFusion]
  congr 1
  funext entry
  rw [Option.map_map]
  exact Option.map_id'

theorem sites?_eq (file text : String) :
    Checked.sites? file text = some (sites file text.toList) := by
  obtain ⟨inline_, hinline, hinlineFound⟩ := exists_passes
    (Checked.inlinePass? text.toList)
    (fun token => (inlineCalls text.toList token.1 token.2).map fun entry =>
      (offsetOf text.toList entry.1, entry.2))
    fun token htoken => by
      obtain ⟨rounds, hrounds, -, hfound⟩ := (mirrors_inline text.toList htoken).exists_pass
      exact ⟨rounds, hrounds, hfound⟩
  rw [← List.map_flatMap] at hinlineFound
  obtain ⟨fluent, hfluent, hfluentFound⟩ := exists_passes
    (Checked.fluentPass? text.toList ((Checked.found inline_).map Prod.fst))
    (fun token => (fluentCalls text.toList ((inlineFound text.toList).map Prod.fst)
      token.1 token.2).map fun entry => (offsetOf text.toList entry.1, entry.2))
    fun token htoken => by
      have hconsumed : (Checked.found inline_).map Prod.fst =
          ((inlineFound text.toList).map Prod.fst).map (offsetOf text.toList) := by
        rw [hinlineFound, List.map_map, List.map_map]
        rfl
      rw [hconsumed]
      obtain ⟨rounds, hrounds, -, hfound⟩ := (mirrors_fluent htoken fun place hplace =>
        contains_map_offsetOf ((inlineFound text.toList).map Prod.fst) hplace).exists_pass
      exact ⟨rounds, hrounds, hfound⟩
  rw [← List.map_flatMap] at hfluentFound
  have hfound : Checked.found (inline_ ++ fluent) =
      (calls text.toList).map fun entry => (offsetOf text.toList entry.1, entry.2) := by
    rw [Checked.found_append, hinlineFound, hfluentFound, ← List.map_append]
    rfl
  simp only [Checked.sites?, hinline, hfluent, Option.bind_eq_bind, Option.bind_some, hfound,
    List.filterMap_map, Function.comp_def, lineAt_eq]
  rfl

/-- A file that is read by offsets has the references of the file that is read by characters. -/
theorem collectFusion?_eq (file text : String) :
    collectFusion? file text = some (collectFusion file text) := by
  rw [collectFusion?, sites?_eq, Option.map_some, map_sites]

/-! ## Totality -/

/-- What is read from an offset on ends within the text. Where a character begins, or the text ends,
the list of arguments, the name and the method calls can be read; and the text can be read as a list
of arguments, as a literal and as a map. -/
structure StaysWithin (text : List Char) : Prop where
  skipSpace : ∀ i ≤ byteLength text, Checked.skipSpace (bytes text) i ≤ byteLength text
  skipQuoted : ∀ quote i, Checked.skipQuoted (bytes text) quote i ≤ byteLength text
  readCall : ∀ i rest, IsRest text i rest → ∃ found, Checked.readCall? text i = some found ∧
    ∀ call ∈ found, i < call.stop ∧ call.stop ≤ byteLength text
  readName : ∀ i rest, IsRest text i rest → ∃ name, Checked.readName? text i = some name ∧
    i + byteLength name ≤ byteLength text
  methods : ∀ i rest, IsRest text i rest → ∃ rounds,
    Checked.rounds? (Checked.methodRound? text) (Checked.roundLimit text) i = some rounds ∧
      Advances text i rounds
  splitArguments : Checked.splitArguments? text = some (splitArguments text)
  literal : Checked.literal? text = some (literal? text)
  placeholders : Checked.placeholders? text = some (placeholders text)

theorem staysWithin (text : List Char) : StaysWithin text where
  skipSpace _ hi := Checked.skipSpace_le (bytes text) hi
  skipQuoted quote i := Checked.skipQuoted_le (bytes text) quote i
  readCall i rest hrest := by
    refine ⟨_, Checked.readCall?_eq hrest, fun call hcall => ?_⟩
    obtain ⟨⟨arguments, left⟩, hcut, rfl⟩ := Option.map_eq_some_iff.1 hcall
    obtain ⟨space, -, -, hlist⟩ := exists_of_cutCall? hcut
    have hparens := congrArg byteLength hlist
    simp only [byteLength_append, byteLength_cons] at hparens
    have hlength := hrest.add_byteLength
    have hopen := ('(' : Char).utf8Size_pos
    dsimp only
    omega
  readName i rest hrest := by
    refine ⟨_, Checked.readName?_eq hrest, ?_⟩
    have hname := hrest
    rw [← List.takeWhile_append_dropWhile (p := Char.isAlpha) (l := rest)] at hname
    have hlength := hname.append.add_byteLength
    omega
  methods i rest hrest := by
    have hlimit : byteLength rest < Checked.roundLimit text := by
      have hlength := hrest.add_byteLength
      rw [Checked.roundLimit]
      omega
    exact (Checked.steps_methodRound? text).exists_rounds? hrest hlimit
  splitArguments := Checked.splitArguments?_eq text
  literal := Checked.literal?_eq text
  placeholders := Checked.placeholders?_eq text

/-- Whatever a file says, its reading takes no slice that fails and ends. Each pass goes on further
behind from round to round, up to the end of the text at most. -/
theorem collectFusion?_total (file text : String) :
    collectFusion? file text = some (collectFusion file text) ∧
      (∀ token ∈ inlineTokens, ∃ rounds,
        Checked.inlinePass? text.toList token = some rounds ∧ Advances text.toList 0 rounds) ∧
      (∀ consumed, ∀ token ∈ fluentTokens, ∃ rounds,
        Checked.fluentPass? text.toList consumed token = some rounds ∧
          Advances text.toList 0 rounds) ∧
      ∀ s, StaysWithin s := by
  refine ⟨collectFusion?_eq file text, fun token htoken => ?_, fun consumed token htoken => ?_,
    staysWithin⟩
  · obtain ⟨rounds, hrounds, hadvances, -⟩ := (mirrors_inline text.toList htoken).exists_pass
    exact ⟨rounds, hrounds, hadvances⟩
  · have hmirrors : Mirrors text.toList token.1.toList consumed.contains
        (Checked.readFluent? text.toList token.2)
        (fun place => consumed.contains (offsetOf text.toList place)) (readFluent token.2) :=
      mirrors_fluent htoken fun _ _ => rfl
    obtain ⟨rounds, hrounds, hadvances, -⟩ := hmirrors.exists_pass
    exact ⟨rounds, hrounds, hadvances⟩

end TranslationAudit.Fusion

import TranslationAudit.Proofs.Collect.Chain
import TranslationAudit.Proofs.Collect.Fusion.Slices

/-! # Loops over a Fusion file

* `Fusion.Steps`, `Fusion.Steps.exists_rounds?`: a loop ends whose rounds go on further behind.
* `Fusion.Checked.methodRound?_eq`, `Fusion.Checked.foldlM_methods`: the loop over the method calls
  of a chain.
* `Fusion.Checked.readInline?_eq`, `Fusion.Checked.readFluent?_eq`: what is read behind a token.
-/

namespace TranslationAudit.Fusion

open Text

variable {text rest s r : List Char} {i limit : Nat}

/-! ## Rounds -/

section Loop

variable {α : Type} {round? : Nat → Option (Option (α × Nat))} {rounds : List (α × Nat)}

/-- A round at an offset at which a character begins ends the loop or goes on at such an offset
further behind. -/
def Steps (text : List Char) (round? : Nat → Option (Option (α × Nat))) : Prop :=
  ∀ i rest, IsRest text i rest → ∃ outcome, round? i = some outcome ∧
    ∀ found next, outcome = some (found, next) → i < next ∧ ∃ left, IsRest text next left

/-- Rounds from an offset on, each of which goes on further behind, and none within a character or
past the end of the text. -/
structure Advances (text : List Char) (offset : Nat) (rounds : List (α × Nat)) : Prop where
  increasing : (offset :: rounds.map Prod.snd).Pairwise (· < ·)
  le : ∀ round ∈ rounds, round.2 ≤ byteLength text
  isRest : ∀ round ∈ rounds, ∃ left, IsRest text round.2 left

theorem Advances.cons {found : α} {next : Nat} (h : Advances text next rounds) (hlt : i < next)
    (hrest : IsRest text next rest) : Advances text i ((found, next) :: rounds) where
  increasing := by
    rw [List.map_cons, List.pairwise_cons, List.forall_mem_cons]
    refine ⟨⟨hlt, fun later hmem => ?_⟩, h.increasing⟩
    exact Nat.lt_trans hlt ((List.pairwise_cons.1 h.increasing).1 later hmem)
  le := by
    have hlength := hrest.add_byteLength
    rw [List.forall_mem_cons]
    exact ⟨by dsimp only; omega, h.le⟩
  isRest := List.forall_mem_cons.2 ⟨⟨rest, hrest⟩, h.isRest⟩

theorem Steps.exists_rounds? (h : Steps text round?) (hrest : IsRest text i rest)
    (hlimit : byteLength rest < limit) :
    ∃ rounds, Checked.rounds? round? limit i = some rounds ∧ Advances text i rounds := by
  induction limit generalizing i rest with
  | zero => omega
  | succ limit ih =>
    obtain ⟨outcome, hround, hnext⟩ := h i rest hrest
    rw [Checked.rounds?, hround]
    cases outcome with
    | none => exact ⟨[], rfl, List.pairwise_singleton _ _, nofun, nofun⟩
    | some outcome =>
      obtain ⟨found, next⟩ := outcome
      obtain ⟨hlt, left, hleft⟩ := hnext found next rfl
      have hlength := hrest.add_byteLength
      have hlength' := hleft.add_byteLength
      obtain ⟨rounds, hrounds, hadvances⟩ := ih hleft (by omega)
      exact ⟨(found, next) :: rounds, by simp [hrounds], hadvances.cons hlt hleft⟩

end Loop

namespace Checked

/-! ## Method calls -/

theorem readName?_eq (h : IsRest text i rest) :
    readName? text i = some (rest.takeWhile Char.isAlpha) := by
  have hname : slice? rest 0 (byteLength (rest.takeWhile Char.isAlpha)) =
      some (rest.takeWhile Char.isAlpha) := by
    have hsplit := IsRest.zero rest
    rw [← List.takeWhile_append_dropWhile (p := Char.isAlpha) (l := rest)] at hsplit
    simpa using hsplit.slice?
  simp only [readName?, h.slice?_end, tests_isAlpha.takeWhile_bytes, length_bytes,
    Option.bind_eq_bind, Option.bind_some, hname]

theorem methodRound?_eq (h : IsRest text i rest) :
    methodRound? text i =
      some ((cutMethod? rest).map fun found =>
        ((found.1, found.2.1), byteLength text - byteLength found.2.2)) := by
  have hspace := isRest_skipSpace h
  have hdot := hspace.getElem?_eq_some_iff (a := '.') (by decide)
  rw [methodRound?, cutMethod?]
  split
  · next hbyte =>
    obtain ⟨r, hr⟩ := List.head?_eq_some_iff.1 (hdot.1 hbyte)
    rw [hr] at hspace ⊢
    have hnext := hspace.tail_ascii (by decide)
    have hname := hnext
    rw [← List.takeWhile_append_dropWhile (p := Char.isAlpha) (l := r)] at hname
    have hdrop : r.drop (r.takeWhile Char.isAlpha).length = r.dropWhile Char.isAlpha := by
      nth_rewrite 2 [← List.takeWhile_append_dropWhile (p := Char.isAlpha) (l := r)]
      exact List.drop_left
    simp only [readName?_eq hnext, readCall?_eq hname.append, hdrop, Option.bind_eq_bind,
      Option.bind_some]
    split
    · rfl
    · cases cutCall? (r.dropWhile Char.isAlpha) <;> rfl
  · next hbyte =>
    split
    · next r hr => exact absurd (hdot.2 (by rw [hr]; rfl)) hbyte
    · rfl

theorem suffix_of_cutMethod? {name : String} {arguments : List Char}
    (h : cutMethod? s = some (name, arguments, r)) :
    r <:+ s ∧ r.length < s.length ∧ byteLength r < byteLength s := by
  obtain ⟨m, -, -, rfl⟩ := exists_suffix_of_cutMethod? h
  have hdot := ('.' : Char).utf8Size_pos
  refine ⟨List.suffix_append _ _, ?_, ?_⟩
  · rw [List.length_append, Suffix.text, List.length_append, List.length_cons]
    omega
  · rw [byteLength_append, Suffix.text, byteLength_append, byteLength_cons]
    omega

theorem steps_methodRound? (text : List Char) : Steps text (methodRound? text) := by
  intro i rest h
  refine ⟨_, methodRound?_eq h, fun found next heq => ?_⟩
  obtain ⟨⟨name, arguments, r⟩, hcut, heq⟩ := Option.map_eq_some_iff.1 heq
  rw [Prod.mk.injEq] at heq
  obtain ⟨-, rfl⟩ := heq
  obtain ⟨hsuffix, -, hlength⟩ := suffix_of_cutMethod? hcut
  have hoffset := h.add_byteLength
  exact ⟨by dsimp only; omega, r, .of_suffix (hsuffix.trans h.suffix)⟩

/-- The rounds of a chain are its method calls. -/
theorem foldlM_methods {rounds : List ((String × List Char) × Nat)}
    (hrounds : rounds? (methodRound? text) limit i = some rounds) (h : IsRest text i s)
    (call : RawCall) :
    rounds.foldlM (fun call round => applied? call round.1.1 round.1.2) call =
        some (applyMethods call s).1 ∧
      (rounds.getLast?.map Prod.snd).getD i =
        byteLength text - byteLength (applyMethods call s).2 := by
  induction limit generalizing i s call rounds with
  | zero => cases hrounds
  | succ limit ih =>
    rw [rounds?, methodRound?_eq h] at hrounds
    cases hcut : cutMethod? s with
    | none =>
      rw [hcut] at hrounds
      cases hrounds
      have hmethods : applyMethods call s = (call, s) := by rw [applyMethods, hcut]
      rw [hmethods]
      exact ⟨rfl, h.eq_sub⟩
    | some found =>
      obtain ⟨name, arguments, r⟩ := found
      rw [hcut] at hrounds
      obtain ⟨later, hlater, rfl⟩ := Option.map_eq_some_iff.1 hrounds
      obtain ⟨hsuffix, hlt, -⟩ := suffix_of_cutMethod? hcut
      have hmethods : applyMethods call s = applyMethods (call.apply name arguments) r := by
        rw [applyMethods, hcut]
        exact if_pos hlt
      obtain ⟨hcall, hstop⟩ := ih hlater (.of_suffix (hsuffix.trans h.suffix))
        (call.apply name arguments)
      rw [hmethods]
      constructor
      · rw [List.foldlM_cons, applied?_eq]
        exact hcall
      · rw [← hstop, List.getLast?_cons]
        cases later.getLast? <;> rfl

/-! ## Reading behind a token -/

theorem readInline?_eq (h : IsRest text i rest) (isPlural : Bool) :
    readInline? text isPlural i =
      some ((readInline isPlural rest).map fun found =>
        (found.1, byteLength text - byteLength found.2)) := by
  rw [readInline?, readCall?_eq h, readInline]
  cases cutCall? rest with
  | none => rfl
  | some found =>
    simp only [Option.map_some, Option.bind_eq_bind, Option.bind_some, ofArguments?_eq]
    rfl

theorem readFluent?_eq (h : IsRest text i rest) (isPlural : Bool) :
    readFluent? text isPlural i =
      some ((readFluent isPlural rest).map fun found =>
        (found.1, byteLength text - byteLength found.2)) := by
  rw [readFluent?, readCall?_eq h, readFluent]
  cases hcut : cutCall? rest with
  | none => rfl
  | some found =>
    obtain ⟨arguments, left⟩ := found
    have hleft : IsRest text (byteLength text - byteLength left) left :=
      .of_suffix ((suffix_of_cutCall? hcut).trans h.suffix)
    have hlimit : byteLength left < roundLimit text := by
      have hlength := hleft.add_byteLength
      rw [roundLimit]
      omega
    obtain ⟨rounds, hrounds, -⟩ := (steps_methodRound? text).exists_rounds? hleft hlimit
    obtain ⟨hcall, hstop⟩ := foldlM_methods hrounds hleft
      { id := Fusion.literal? arguments, isPlural }
    -- the chain ends behind its list of arguments
    have hmax : max (byteLength text - byteLength (RawCall.ofChain isPlural arguments left).2) i =
        byteLength text - byteLength (RawCall.ofChain isPlural arguments left).2 := by
      obtain ⟨front, hfront⟩ := (suffix_of_applyMethods
        { id := Fusion.literal? arguments, isPlural } left).trans (suffix_of_cutCall? hcut)
      have hlength := congrArg byteLength hfront
      have hoffset := h.add_byteLength
      rw [byteLength_append] at hlength
      rw [RawCall.ofChain]
      omega
    simp only [Option.map_some, Option.bind_eq_bind, Option.bind_some, literal?_eq, hrounds,
      hcall, hstop]
    rw [RawCall.ofChain] at hmax ⊢
    rw [hmax]
    rfl

end Checked

end TranslationAudit.Fusion

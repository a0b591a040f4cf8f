import TranslationAudit.Catalog.Addition
import TranslationAudit.Translation.Checked

/-! # Translations by a provider

A provider of translations fills the targets of units before they are added.

* `Request`: one message to translate into one or more locales.
* `requests?`: the requests for missing translations, one for each key. There are none where the
  text around a reference cannot be cut out, as the program stops there.
* `applyAnswers`: the targets that the answers of a provider give.
* `ask`, `translate?`: asks a provider for all additions.
-/

namespace TranslationAudit.Translation

open Catalog (Addition Provenance)

/-- A message to translate. -/
structure Request where
  key : Key
  fallback : String
  placeholders : List String
  targetLocales : List String
  /-- The text around the reference. -/
  context : Option String
deriving DecidableEq, Inhabited

abbrev Answer := Dict String String

/-- A provider of translations. It gives one answer for each request, or fails. -/
structure Provider where
  name : String
  model : Option String := none
  answers : List Request → String → Except String (List Answer)

/-- What can go wrong with a provider. -/
inductive Error where
  | failed (reason : String)
  | wrongCount (provider : String) (answers requests : Nat)
deriving DecidableEq, Inhabited

def Error.message : Error → String
  | .failed reason => reason
  | .wrongCount provider answers requests =>
    "Translation provider '" ++ provider ++ "' returned " ++ toString answers ++ " results for " ++
      toString requests ++ " requests"

/-! ## Requests -/

/-- The request for the key of an addition so far. A new one has the text around the reference. -/
def request? (o : Checked.Overflow) (tree : FileTree) (window : Nat) (known : Dict Key Request)
    (missing : MissingTranslation) (a : Addition) : Option Request :=
  match known.get? a.key with
  | some request => some request
  | none => (Checked.contextSnippet? o tree missing.reference window).map fun context =>
      ⟨a.key, a.fallback, a.placeholders.keys, [], context⟩

def addRequest? (o : Checked.Overflow) (tree : FileTree) (window : Nat) (known : Dict Key Request)
    (pair : MissingTranslation × Addition) : Option (Dict Key Request) :=
  let (missing, a) := pair
  (request? o tree window known missing a).map fun request =>
    let targetLocales :=
      if a.locale ∈ request.targetLocales then request.targetLocales
      else request.targetLocales ++ [a.locale]
    known.insert a.key { request with targetLocales }

/-- The requests for missing translations and the additions that supply them, one for each key in
the order in which the keys first come. -/
def requests? (o : Checked.Overflow) (tree : FileTree) (missing : List MissingTranslation)
    (additions : List Addition) (window : Nat) : Option (List Request) :=
  ((missing.zip additions).foldlM (addRequest? o tree window) .empty).map Dict.values

/-! ## Answers -/

/-- The text of an answer for an addition, unless there is none or it is blank. -/
def textFor? (r : Request) (answer : Answer) (a : Addition) : Option String :=
  if a.key = r.key then (answer.get? a.locale).bind Text.nonBlank? else none

/-- An addition with the text of an answer as its target, if there is one. -/
def fill (p : Provenance) (r : Request) (answer : Answer) (a : Addition) : Addition :=
  match textFor? r answer a with
  | none => a
  | some target => { a with target, provenance := some p }

/-- Fills additions from answers in the order of the requests, and counts how often one was
filled. -/
def applyAnswers (p : Provenance) (rs : List Request) (answers : List Answer)
    (additions : List Addition) : List Addition × Nat :=
  (rs.zip answers).foldl (fun (as, n) (r, answer) =>
    (as.map (fill p r answer), n + as.countP fun a => (textFor? r answer a).isSome)) (additions, 0)

/-- Asks a provider for the targets of additions, and counts those that it filled. Without requests
the provider is not asked. -/
def ask (provider : Provider) (now systemPrompt : String) (rs : List Request)
    (additions : List Addition) : Except Error (List Addition × Nat) :=
  if rs.isEmpty then .ok (additions, 0)
  else
    match provider.answers rs systemPrompt with
    | .error reason => .error (.failed reason)
    | .ok answers =>
      if answers.length = rs.length then
        .ok (applyAnswers ⟨some provider.name, provider.model, some now⟩ rs answers additions)
      else .error (.wrongCount provider.name answers.length rs.length)

/-- Asks a provider for the targets of the additions for what is missing. -/
def translate? (o : Checked.Overflow) (provider : Provider) (now systemPrompt : String)
    (tree : FileTree) (missing : List MissingTranslation) (additions : List Addition)
    (window : Nat) : Option (Except Error (List Addition × Nat)) :=
  (requests? o tree missing additions window).map fun rs =>
    ask provider now systemPrompt rs additions

end TranslationAudit.Translation

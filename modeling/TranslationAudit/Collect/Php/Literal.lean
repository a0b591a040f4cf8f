import TranslationAudit.Text.Blank

/-! # Quoting in PHP

* `unescapeSingle`: what the inside of a string in single quotes stands for. A backslash escapes
  a quote and itself only.
* `unescapeDouble`: the same for double quotes, with the escapes of one character. A backslash
  before any other character is kept.
* `escapeSingle`, `escapeDouble`: the writing that these two undo.
-/

namespace TranslationAudit.Php

def unescapeSingle : List Char → List Char
  | '\\' :: '\'' :: r => '\'' :: unescapeSingle r
  | '\\' :: '\\' :: r => '\\' :: unescapeSingle r
  | c :: r => c :: unescapeSingle r
  | [] => []

def escapeSingle : List Char → List Char
  | [] => []
  | c :: r => if c = '\\' ∨ c = '\'' then '\\' :: c :: escapeSingle r else c :: escapeSingle r

def escapes : List (Char × Char) :=
  [('n', '\n'), ('t', '\t'), ('r', '\r'), ('v', '\x0b'), ('e', '\x1b'), ('f', '\x0c'),
   ('\\', '\\'), ('$', '$'), ('"', '"')]

def unescapeDouble : List Char → List Char
  | '\\' :: c :: r =>
    match escapes.lookup c with
    | some d => d :: unescapeDouble r
    | none => '\\' :: unescapeDouble (c :: r)
  | c :: r => c :: unescapeDouble r
  | [] => []

def escapeDouble : List Char → List Char
  | [] => []
  | c :: r =>
    match escapes.find? (·.2 = c) with
    | some (d, _) => '\\' :: d :: escapeDouble r
    | none => c :: escapeDouble r

end TranslationAudit.Php

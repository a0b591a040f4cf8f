/-! # Colours of reports

* `Paint`: a colour with an optional emphasis.
* `Paint.apply`: a text in a colour, or as it is when colours are off.
-/

namespace TranslationAudit.Report

/-- A colour with an emphasis, as the codes of a terminal. -/
structure Paint where
  codes : List Nat
deriving DecidableEq, Inhabited

namespace Paint

def red : Paint := ⟨[31]⟩
def green : Paint := ⟨[32]⟩
def yellow : Paint := ⟨[33]⟩
def blue : Paint := ⟨[34]⟩
def bold : Paint := ⟨[1]⟩
def boldRed : Paint := ⟨[1, 31]⟩
def boldYellow : Paint := ⟨[1, 33]⟩
def boldCyan : Paint := ⟨[1, 36]⟩
def dimmedCyan : Paint := ⟨[2, 36]⟩

/-- A text in a colour if colours are on. -/
def apply (p : Paint) (colored : Bool) (s : String) : String :=
  if colored then
    "\x1b[" ++ ";".intercalate (p.codes.map toString) ++ "m" ++ s ++ "\x1b[0m"
  else s

end Paint

end TranslationAudit.Report

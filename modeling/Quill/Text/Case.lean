import Quill.Text.Case.Table
import Quill.Text.Runs

/-!
# Upper and lower case

Each character is replaced by its counterpart, which may be several characters. Only the capital
sigma looks at its neighbours: at the end of a word it becomes the final form.
-/

namespace Quill.Text

/-- The character `code` is mapped to by runs, if any. -/
def shiftIn (runs : Array CaseRun) (code : Nat) : Option Nat :=
  (runs.find? fun r => r.first ≤ code && code ≤ r.last && (code - r.first) % r.step == 0).map
    fun r => ((code : Int) + r.shift).toNat

/-- What stands for the character `c` in the other case, `c` itself if nothing does. -/
def otherCase (runs : Array CaseRun) (sequences : List (Nat × List Nat)) (c : Char) : List Char :=
  match sequences.lookup c.toNat with
  | some codes => codes.map Char.ofNat
  | none => match shiftIn runs c.toNat with
    | some code => [Char.ofNat code]
    | none => [c]

def upperChar (c : Char) : List Char :=
  if c.toNat < 0x80 then [c.toUpper] else otherCase upperRuns upperSequences c

def lowerChar (c : Char) : List Char :=
  if c.toNat < 0x80 then [c.toLower] else otherCase lowerRuns lowerSequences c

/-- The first character that is not passed over is a cased letter. -/
def meetsLetter : List Char → Bool
  | [] => false
  | c :: rest =>
    if inRuns passedOverEdges c.toNat then meetsLetter rest else inRuns casedEdges c.toNat

/-- A capital sigma with a letter before it and none after it takes its final form. The text before
is given last character first. -/
def lowerSigma (before after : List Char) : Char :=
  if meetsLetter before && !meetsLetter after then 'ς' else 'σ'

/-- The lower case of a text, last character first, in front of `done`; `before` is what precedes
the text, last character first. -/
def lowerOnto (before done : List Char) : List Char → List Char
  | [] => done
  | c :: rest =>
    let mapped := if c = 'Σ' then [lowerSigma before rest] else lowerChar c
    lowerOnto (c :: before) (mapped.reverse ++ done) rest

def upper (text : List Char) : List Char := text.flatMap upperChar

def lower (text : List Char) : List Char := (lowerOnto [] [] text).reverse

end Quill.Text

import Mathlib.Data.List.Forall2
import Quill.Grammar.Program

/-!
# Expression trees and how they are written

Expressions without spans, the words they are written with, and the order of precedence: a part
that binds more loosely than its place allows stands in parentheses. `Tree.Spanned` compares a tree
with an expression that was read.
-/

namespace Quill

namespace Token

/-- The text of a name after its first character. Some names may end in a question or exclamation
mark. -/
def continuation (suffixed : Bool) : List Char → Bool
  | [] => true
  | c :: rest =>
    if continuesName c then continuation suffixed rest
    else suffixed && rest.isEmpty && (c == '?' || c == '!')

/-- A text that starts as `start` says and goes on as a name. -/
def isName (start : Char → Bool) (suffixed : Bool) (text : String) : Bool :=
  match text.toList with
  | [] => false
  | c :: rest => start c && continuation suffixed rest

end Token

structure Name (start : Char → Bool) (suffixed : Bool) where
  text : String
  isName : Token.isName start suffixed text = true

/-- Small letters first: the form of variables, methods and reserved words. -/
abbrev Word := Name Token.startsName true

/-- A word without a mark at its end, such as has an assigning counterpart. -/
abbrev SetterName := Name Token.startsName false

abbrev ConstantName := Name Char.isUpper false

abbrev SymbolName := Name (fun c ↦ c.isAlpha || c == '_') true

structure VariableName extends Word where
  free : Keyword.ofText? text = none

inductive MethodName where
  | word (name : Word)
  | constant (name : ConstantName)
  | operator (mark : Mark) (names : Grammar.namesMethod mark = true)

/-- A token of a written expression, or the blank between two tokens. -/
inductive Piece where
  | blank
  | mark (m : Mark)
  /-- Read as a reserved word or as a name. -/
  | word (text : String)
  | constant (text : String)
  | attr (name : String)
  | symbol (name : String)
  | str (value : String)
  | digits (k : Nat)

namespace Piece

def escaped (c : Char) : List Char :=
  if c = '"' then ['\\', '"'] else if c = '\\' then ['\\', '\\']
  else if c = Token.nul then ['\\', '0'] else [c]

def text : Piece → List Char
  | blank => [' ']
  | mark m => m.text.toList
  | word text | constant text => text.toList
  | attr name => '@' :: name.toList
  | symbol name => ':' :: name.toList
  | str value => '"' :: value.toList.flatMap escaped ++ ['"']
  | digits k => Nat.toDigits 10 k

def kind : Piece → Token.Kind
  | blank => .whitespace
  | mark m => .mark m
  | word text => Token.nameKind text.toList
  | constant text => .constant text
  | attr name => .attr name
  | symbol name => .symbol name
  | str value => .str value
  | digits k => .int (Int64.ofNat k)

def spell (ps : List Piece) : List Char := ps.flatMap text

end Piece

namespace MethodName

def text : MethodName → String
  | word name => name.text
  | constant name => name.text
  | operator mark _ => mark.text

def piece : MethodName → Piece
  | word name => .word name.text
  | constant name => .constant name.text
  | operator mark _ => .mark mark

end MethodName

/-- What can be assigned to without looking at an object. -/
inductive Variable where
  | local_ (name : VariableName)
  | constant (name : ConstantName)
  | attr (name : Word)

namespace Variable

def piece : Variable → Piece
  | local_ name => .word name.text
  | constant name => .constant name.text
  | attr name => .attr name.text

def kind : Variable → Expr.Kind
  | local_ name => .name name.text
  | constant name => .constant name.text
  | attr name => .attr name.text

def target (s : Span) : Variable → Target
  | local_ name => .local_ ⟨name.text, s⟩
  | constant name => .constant ⟨name.text, s⟩
  | attr name => .attr ⟨name.text, s⟩

end Variable

/-- Operands of one token; integers are not among them, as they may have a minus in front. -/
inductive Atom where
  | str (value : String)
  | symbol (name : SymbolName)
  | nil
  | bool (value : Bool)
  | self
  | var (x : Variable)

namespace Atom

def piece : Atom → Piece
  | str value => .str value
  | symbol name => .symbol name.text
  | nil => .word Keyword.nil.text
  | bool true => .word Keyword.true_.text
  | bool false => .word Keyword.false_.text
  | self => .word Keyword.self.text
  | var x => x.piece

def kind : Atom → Expr.Kind
  | str value => .literal (.str value)
  | symbol name => .literal (.symbol name.text)
  | nil => .literal .nil
  | bool value => .literal (.bool value)
  | self => .self
  | var x => x.kind

end Atom

def Operator.precedence : Operator → Nat
  | eq | notEq => 3
  | less | lessEq | greater | greaterEq => 4
  | add | sub => 5
  | mul | div | mod => 6

theorem Operator.precedence_bounds (op : Operator) : 3 ≤ op.precedence ∧ op.precedence ≤ 6 := by
  cases op <;> decide

def Operator.mark : Operator → Mark
  | add => .plus | sub => .minus | mul => .star | div => .slash | mod => .percent
  | eq => .equalEqual | notEq => .bangEqual | less => .less | lessEq => .lessEqual
  | greater => .greater | greaterEq => .greaterEqual

def Connective.precedence : Connective → Nat
  | or => 1
  | and => 2

theorem Connective.precedence_bounds (op : Connective) : 1 ≤ op.precedence ∧ op.precedence ≤ 2 := by
  cases op <;> decide

def Connective.mark : Connective → Mark
  | or => .orOr
  | and => .andAnd

/-- How an assignment treats the old value. -/
inductive Assignment where
  | plain | add | sub | mul | div | mod | and | or
  deriving DecidableEq

namespace Assignment

def mark : Assignment → Mark
  | plain => .assign | add => .plusAssign | sub => .minusAssign | mul => .starAssign
  | div => .slashAssign | mod => .percentAssign | and => .andAndAssign | or => .orOrAssign

def compound? : Assignment → Option Compound
  | plain => none
  | add => some (.arith .add) | sub => some (.arith .sub) | mul => some (.arith .mul)
  | div => some (.arith .div) | mod => some (.arith .mod)
  | and => some (.logic .and) | or => some (.logic .or)

def kind (op : Assignment) (target : Target) (value : Expr) : Expr.Kind :=
  match op.compound? with
  | none => .assign target value
  | some c => .compound c target value

end Assignment

def PrefixOp.mark : PrefixOp → Mark
  | neg => .minus
  | not => .bang

/-- A number that can be written. A negative one is a minus directly before the digits, and the
digits of the least one are out of range. -/
structure Numeral where
  value : Int64
  isWritten : value ≠ Int64.minValue

inductive Tree where
  | int (value : Int64)
  | atom (a : Atom)
  | list (items : List Tree)
  | call (receiver : Tree) (method : MethodName) (args : List Tree)
  | callSelf (method : VariableName) (args : List Tree)
  | index (receiver : Tree) (args : List Tree)
  | unary (op : PrefixOp) (operand : Tree)
  | binary (op : Operator) (left right : Tree)
  | logical (op : Connective) (left right : Tree)
  | assign (op : Assignment) (x : Variable) (value : Tree)
  | assignIndex (op : Assignment) (receiver : Tree) (args : List Tree) (value : Tree)
  | assignMember (op : Assignment) (receiver : Tree) (name : SetterName) (value : Tree)

namespace Tree

/-- Assignments bind loosest, calls and what needs no operator tightest. -/
def precedence : Tree → Nat
  | assign .. | assignIndex .. | assignMember .. => 0
  | logical op _ _ => op.precedence
  | binary op _ _ => op.precedence
  | unary .. => 7
  | int _ | atom _ | list _ | call .. | callSelf .. | index .. => 8

theorem precedence_le (t : Tree) : t.precedence ≤ 8 := by
  cases t with
  | binary op => exact Nat.le_trans op.precedence_bounds.2 (by decide)
  | logical op => exact Nat.le_trans op.precedence_bounds.2 (by decide)
  | _ => simp [precedence]

/-- The left operand of an operator may be of its own precedence, but equality does not chain. -/
def leftFloor (precedence : Nat) : Nat := if precedence = 3 then 4 else precedence

def parens (ps : List Piece) : List Piece := .mark .lParen :: ps ++ [.mark .rParen]

def brackets (ps : List Piece) : List Piece := .mark .lBracket :: ps ++ [.mark .rBracket]

theorem parens_append (ps qs : List Piece) :
    parens ps ++ qs = .mark .lParen :: (ps ++ .mark .rParen :: qs) := by simp [parens]

theorem brackets_append (ps qs : List Piece) :
    brackets ps ++ qs = .mark .lBracket :: (ps ++ .mark .rBracket :: qs) := by simp [brackets]

/-- What is written as `ps` and binds as `precedence` says, where `floor` is required. -/
def grouped (floor precedence : Nat) (ps : List Piece) : List Piece :=
  if precedence < floor then parens ps else ps

/-- A minus stands directly before the digits of a negative number. -/
def intPieces (n : Int64) : List Piece :=
  if n < 0 then [.mark .minus, .digits n.toInt.natAbs] else [.digits n.toInt.natAbs]

def spaced (m : Mark) : List Piece := [.blank, .mark m, .blank]

mutual

def pieces : Tree → List Piece
  | int n => intPieces n
  | atom a => [a.piece]
  | list items => brackets (separated items)
  | call r m args =>
    grouped 8 r.precedence r.pieces ++ (.mark .dot :: m.piece :: parens (separated args))
  | callSelf f args => .word f.text :: parens (separated args)
  | index r args => grouped 8 r.precedence r.pieces ++ brackets (separated args)
  | unary .neg t => .mark .minus :: .blank :: grouped 7 t.precedence t.pieces
  | unary .not t => .mark .bang :: grouped 7 t.precedence t.pieces
  | binary op l r =>
    grouped (leftFloor op.precedence) l.precedence l.pieces ++
      (spaced op.mark ++ grouped (op.precedence + 1) r.precedence r.pieces)
  | logical op l r =>
    grouped (leftFloor op.precedence) l.precedence l.pieces ++
      (spaced op.mark ++ grouped (op.precedence + 1) r.precedence r.pieces)
  | assign op x v => x.piece :: (spaced op.mark ++ v.pieces)
  | assignIndex op r args v =>
    grouped 8 r.precedence r.pieces ++ (brackets (separated args) ++ (spaced op.mark ++ v.pieces))
  | assignMember op r name v =>
    grouped 8 r.precedence r.pieces ++
      (.mark .dot :: .word name.text :: (spaced op.mark ++ v.pieces))

def separated : List Tree → List Piece
  | [] => []
  | t :: ts => t.pieces ++ (if ts.isEmpty then [] else [.mark .comma, .blank]) ++ separated ts

end

def text (t : Tree) : String := String.ofList (Piece.spell t.pieces)

mutual

def ints : Tree → List Int64
  | int n => [n]
  | atom _ => []
  | list items => intsOf items
  | call r _ args => r.ints ++ intsOf args
  | callSelf _ args => intsOf args
  | index r args => r.ints ++ intsOf args
  | unary _ t => t.ints
  | binary _ l r => l.ints ++ r.ints
  | logical _ l r => l.ints ++ r.ints
  | assign _ _ v => v.ints
  | assignIndex _ r args v => r.ints ++ intsOf args ++ v.ints
  | assignMember _ r _ v => r.ints ++ v.ints

def intsOf : List Tree → List Int64
  | [] => []
  | t :: ts => t.ints ++ intsOf ts

end

inductive Spanned : Tree → Expr → Prop
  | int {n : Int64} {s : Span} : Spanned (.int n) ⟨.literal (.int n), s⟩
  | atom {a : Atom} {s : Span} : Spanned (.atom a) ⟨a.kind, s⟩
  | list {ts : List Tree} {es : List Expr} {s : Span} : List.Forall₂ Spanned ts es →
      Spanned (.list ts) ⟨.list es, s⟩
  | call {r : Tree} {m : MethodName} {ts : List Tree} {e : Expr} {es : List Expr} {s s' : Span} :
      Spanned r e → List.Forall₂ Spanned ts es →
      Spanned (.call r m ts) ⟨.call (some e) ⟨m.text, s⟩ es none, s'⟩
  | callSelf {f : VariableName} {ts : List Tree} {es : List Expr} {s s' : Span} :
      List.Forall₂ Spanned ts es →
      Spanned (.callSelf f ts) ⟨.call none ⟨f.text, s⟩ es none, s'⟩
  | index {r : Tree} {ts : List Tree} {e : Expr} {es : List Expr} {s s' : Span} :
      Spanned r e → List.Forall₂ Spanned ts es →
      Spanned (.index r ts) ⟨.call (some e) ⟨"[]", s⟩ es none, s'⟩
  | unary {op : PrefixOp} {t : Tree} {e : Expr} {s : Span} : Spanned t e →
      Spanned (.unary op t) ⟨.unary op e, s⟩
  | binary {op : Operator} {l r : Tree} {el er : Expr} {s : Span} : Spanned l el → Spanned r er →
      Spanned (.binary op l r) ⟨.binary op el er, s⟩
  | logical {op : Connective} {l r : Tree} {el er : Expr} {s : Span} : Spanned l el →
      Spanned r er → Spanned (.logical op l r) ⟨.logical op el er, s⟩
  | assign {op : Assignment} {x : Variable} {v : Tree} {e : Expr} {s s' : Span} : Spanned v e →
      Spanned (.assign op x v) ⟨op.kind (x.target s) e, s'⟩
  | assignIndex {op : Assignment} {r v : Tree} {ts : List Tree} {e ev : Expr} {es : List Expr}
      {s : Span} : Spanned r e → List.Forall₂ Spanned ts es → Spanned v ev →
      Spanned (.assignIndex op r ts v) ⟨op.kind (.index e es) ev, s⟩
  | assignMember {op : Assignment} {r v : Tree} {name : SetterName} {e ev : Expr} {s s' : Span} :
      Spanned r e → Spanned v ev →
      Spanned (.assignMember op r name v) ⟨op.kind (.member e ⟨name.text, s⟩) ev, s'⟩

theorem Spanned.respan {t : Tree} {e : Expr} (h : Spanned t e) (s : Span) :
    Spanned t { e with span := s } := by
  cases h with
  | int => exact .int
  | atom => exact .atom
  | list hs => exact .list hs
  | call hr hs => exact .call hr hs
  | callSelf hs => exact .callSelf hs
  | index hr hs => exact .index hr hs
  | unary ht => exact .unary ht
  | binary hl hr => exact .binary hl hr
  | logical hl hr => exact .logical hl hr
  | assign hv => exact .assign hv
  | assignIndex hr hs hv => exact .assignIndex hr hs hv
  | assignMember hr hv => exact .assignMember hr hv

end Tree

end Quill

import Quill.Dispatch
import Quill.Proofs.Printing.Kinds
import Quill.Proofs.Printing.Text

/-!
# Data

Values that are trees of lists over `nil`, truth values, numbers, symbols and strings: which of them
can be written in a program, how they are shown, and when a state holds them.
-/

namespace Quill

open Token

/-- A name that is read as a symbol after a colon. -/
structure AcceptedName where
  text : String
  accepted : ∃ ts, Token.ofText? (":" ++ text) = .ok ts ∧
    ts.toList.map (·.kind) = [.symbol text, .eof]

/-- A text that is quoted without an escape by a code point. -/
structure PlainText where
  text : String
  isPlain : (text.toList.all fun c ↦ Text.escapeChar ['"'] c != Text.codeEscape c) = true

theorem AcceptedName.isName (name : AcceptedName) :
    Token.isName (fun c ↦ c.isAlpha || c == '_') true name.text = true := by
  obtain ⟨tokens, htokens, hkinds⟩ := name.accepted
  have hmem : Kind.symbol name.text ∈ tokens.toList.map (·.kind) := hkinds ▸ List.mem_cons_self
  obtain ⟨t, ht, hkind⟩ := List.mem_map.mp hmem
  have hread := ofText?_isRead htokens t ht
  rwa [hkind] at hread

def AcceptedName.symbol (name : AcceptedName) : SymbolName := ⟨name.text, name.isName⟩

inductive Scalar where
  | nil
  | bool (value : Bool)
  | int (n : Numeral)
  | symbol (name : AcceptedName)
  | str (text : PlainText)

inductive Datum where
  | scalar (x : Scalar)
  | list (items : List Datum)

namespace Scalar

def literal : Scalar → Literal
  | nil => .nil
  | bool b => .bool b
  | int n => .int n.value
  | symbol name => .symbol name.text
  | str t => .str t.text

def tree : Scalar → Tree
  | nil => .atom .nil
  | bool b => .atom (.bool b)
  | int n => .int n.value
  | symbol name => .atom (.symbol name.symbol)
  | str t => .atom (.str t.text)

def chars (quote : String → List Char) : Scalar → List Char
  | nil => "nil".toList
  | bool b => (toString b).toList
  | int n => (toString n.value.toInt).toList
  | symbol name => ':' :: name.text.toList
  | str t => quote t.text

def text (x : Scalar) : String := String.ofList (x.chars fun t ↦ (Text.quote t).toList)

theorem inspectText_eq (s : State) (x : Scalar) :
    s.inspectText? (Value.ofLiteral x.literal) = some x.text := by
  have htext (t : String) : some t = some (String.ofList t.toList) := by rw [String.ofList_toList]
  cases x with
  | symbol name =>
    refine (htext (":" ++ name.text)).trans ?_
    rw [String.toList_append]
    rfl
  | str t => exact htext (Text.quote t.text)
  | nil => exact htext "nil"
  | bool b => exact htext (toString b)
  | int n => exact htext (toString n.value.toInt)

end Scalar

namespace Datum

mutual

def chars (quote : String → List Char) : Datum → List Char
  | scalar x => x.chars quote
  | list items => '[' :: charsOf quote items ++ [']']

/-- A comma and a blank part each two of the items. -/
def charsOf (quote : String → List Char) : List Datum → List Char
  | [] => []
  | d :: ds => d.chars quote ++ (if ds.isEmpty then [] else [',', ' ']) ++ charsOf quote ds

end

def text (d : Datum) : String := String.ofList (d.chars fun t ↦ (Text.quote t).toList)

mutual

def tree : Datum → Tree
  | scalar x => x.tree
  | list items => .list (treesOf items)

def treesOf : List Datum → List Tree
  | [] => []
  | d :: ds => d.tree :: treesOf ds

end

mutual

def depth : Datum → Nat
  | scalar _ => 0
  | list items => depthOf items + 1

def depthOf : List Datum → Nat
  | [] => 0
  | d :: ds => max d.depth (depthOf ds)

end

theorem charsOf_cons_cons (quote : String → List Char) (d d' : Datum) (ds : List Datum) :
    charsOf quote (d :: d' :: ds) =
      d.chars quote ++ ',' :: ' ' :: charsOf quote (d' :: ds) := by
  rw [charsOf, List.append_assoc]
  rfl

theorem intercalate_texts (ds : List Datum) :
    (", ".intercalate (ds.map text)).toList = charsOf (fun t ↦ (Text.quote t).toList) ds := by
  induction ds with
  | nil => rw [List.map_nil, String.intercalate_nil, charsOf]; rfl
  | cons d ds ih =>
    cases ds with
    | nil =>
      rw [List.map_singleton, String.intercalate_singleton, text, String.toList_ofList, charsOf,
        charsOf]
      simp
    | cons d' ds =>
      rw [List.map_cons] at ih ⊢
      rw [List.map_cons, String.intercalate_cons_cons, charsOf_cons_cons, String.toList_append, ih,
        String.toList_append, text, String.toList_ofList]
      simp

theorem text_list (ds : List Datum) :
    (list ds).text = "[" ++ ", ".intercalate (ds.map text) ++ "]" := by
  rw [← String.toList_inj, text, String.toList_ofList, String.toList_append, String.toList_append,
    intercalate_texts, chars]
  rfl

end Datum

namespace State

mutual

def Holds (s : State) (v : Value) : Datum → Prop
  | .scalar x => v = .ofLiteral x.literal
  | .list ds => ∃ l items, v = .list l ∧ s.lists[l.index]? = some items ∧ s.HoldsAll items.toList ds

def HoldsAll (s : State) : List Value → List Datum → Prop
  | [], [] => True
  | v :: vs, d :: ds => s.Holds v d ∧ s.HoldsAll vs ds
  | _, _ => False

end

end State

end Quill

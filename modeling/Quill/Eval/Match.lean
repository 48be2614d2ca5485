import Quill.Eval.Fault
import Quill.Retention

/-!
# Matching patterns

Matching binds nothing: it collects names with values, and whoever asked for the match binds them
when all of it succeeded. It may send `==` and look up constants, so it may unwind.
-/

namespace Quill

/-- Names with the values they are to be bound to, the latest first. -/
abbrev Matched := List (String × Value)

namespace Matched

def values (m : Matched) : List Value := m.map (·.2)

end Matched

namespace Eval

def constant? (ctx : Context) (name : String) : Eval (Option Value) := do
  -- Modules around may have gone since code last looked there.
  modify (·.letGoAround name ctx.module)
  read (·.findConstant ctx.module name)

def constant (ctx : Context) (name : String) (span : Span) : Eval Value := do
  match ← constant? ctx name with
  | some v => return v
  | none => fault (.unknownConstant name) span

/-- The constants that the segments of a path lead to, from `v` on; `walked` is the path so far. -/
def followPath (v : Value) (walked : String) : List Ident → Eval Value
  | [] => return v
  | segment :: rest => do
    let walked := walked ++ "." ++ segment.name
    let found ← read fun s => v.type?.bind (s.types.constant? · segment.name)
    match found with
    | some v => followPath v walked rest
    | none => fault (.unknownConstant walked) segment.span

def constantAt (path : TypePath) (ctx : Context) : Eval Value := do
  match path.segments with
  | [] => return .nil
  | first :: rest => followPath (← constant ctx first.name first.span) first.name rest

def typeAt (path : TypePath) (ctx : Context) : Eval TypeId := do
  match ← constantAt path ctx with
  | .type t => return t
  | _ => fault (.noType path.text) path.span

/-- Whether a value fits a constant: it belongs to the type or module, or is equal to anything
else. -/
def fitsConstant (c v : Value) : Eval Bool :=
  match c with
  | .type t => read (·.isInstance v t)
  | c => valuesEqual c v

def fitsPath (path : TypePath) (v : Value) (ctx : Context) : Eval Bool := do
  fitsConstant (← constantAt path ctx) v

def countFits (ps : List Pattern) (given : Nat) : Bool :=
  let fixed := ps.countP (!·.isSplat)
  if ps.any (·.isSplat) then fixed ≤ given else given == fixed

/-- The items that a splat before `after` takes from `values`, and those it leaves. -/
def splatItems (after : List Pattern) (values : List Value) : List Value × List Value :=
  values.splitAt (values.length - after.length)

mutual

/-- Matches one value; `none` means that it does not fit. What was collected before comes with
`acc`. -/
def matchPattern (ctx : Context) (acc : Matched) : Pattern → Value → Eval (Option Matched)
  | .wildcard _, _ => return some acc
  | .bind name none, v => return some ((name.name, v) :: acc)
  | .bind name (some path), v => do
    let t ← holding acc.values (typeAt path ctx)
    if ← read (·.isInstance v t) then return some ((name.name, v) :: acc) else return none
  | .const path, v => do
    if ← holding acc.values (fitsPath path v ctx) then return some acc else return none
  | .literal value _, v => do
    if ← holding acc.values (valuesEqual (.ofLiteral value) v) then return some acc
    else return none
  | .list items _, .list l => do
    let found ← read fun s => (s.items l).toList
    if countFits items found.length then holding found (matchAll ctx acc items found)
    else return none
  | .list .., _ => return none
  | .splat (some name) _, v => return some ((name.name, v) :: acc)
  | .splat none _, _ => return some acc

def matchAll (ctx : Context) (acc : Matched) : List Pattern → List Value → Eval (Option Matched)
  | .splat name _ :: ps, values => do
    -- A splat takes what the patterns behind it leave, whose number is fixed.
    let (taken, left) := splatItems ps values
    match name with
    | some name => matchAll ctx ((name.name, ← newList taken) :: acc) ps left
    | none => matchAll ctx acc ps left
  | p :: ps, v :: values => do
    match ← matchPattern ctx acc p v with
    | some acc => matchAll ctx acc ps values
    | none => return none
  | _, _ => return some acc

end

def matchSequence (ctx : Context) (ps : List Pattern) (values : List Value) :
    Eval (Option Matched) :=
  if countFits ps values.length then matchAll ctx [] ps values else return none

def defineAll (scope : ScopeId) (m : Matched) : Eval Unit :=
  modify fun s => m.foldr (fun b s => s.define scope b.1 b.2) s

/-- Gives names new values where they are bound, or binds them in the scope. -/
def assignAll (scope : ScopeId) (m : Matched) : Eval Unit :=
  modify fun s => m.foldr (fun b s => s.assign scope b.1 b.2) s

def raiseNoMatch {α : Type} (p : Pattern) (v : Value) (span : Span) : Eval α := do
  fault (.noMatch (← inspectAnyway v) p.text) span

end Eval

end Quill

import Quill.Proofs.Evaluation
import Quill.Proofs.Grammar.Node
import Quill.Proofs.Token.Stream

/-!
# New interpreters

Main statement: `Interpreter.new_standard`. A new interpreter with the standard settings is there
once the prelude has run, which leaves what the language itself defines as it was. How the prelude
runs is calculated; so its text, which is a list of lines, is first taken apart into characters.
-/

namespace Quill

/-- Instances of `t` answer the message of the entry with its routine and nothing else. -/
def Types.offers (ts : Types) (t : CoreType) (e : Routine.Entry) : Bool :=
  match ts.firstWith e.name (ts.ancestors t.id) with
  | some (_, [.native n]) => n.signature == e.signature && n.routine == e.routine
  | _ => false

/-- The error of the language that this type stands for has its name and is an error. -/
def Types.knowsError (ts : Types) (t : CoreType) : Bool :=
  ts.name t.id == t.name && ts.descendsFrom t.id CoreType.error.id

def Routine.inspectEntry : CoreType → Entry
  | .string => fixed .string .string "inspect" [] (.text .inspect)
  | .symbol => fixed .symbol .symbol "inspect" [] (.text .inspect)
  | .list => fixed .list .list "inspect" [] (.list .inspect)
  | _ => fixed .object .any "inspect" [] (.object .inspect)

/-- Scalars without fractions and lists are shown as from the start. -/
def Types.showPlainly (ts : Types) : Bool :=
  [.nil, .bool, .int, .symbol, .string, .list].all fun t ↦ ts.offers t (Routine.inspectEntry t)

/-- The settings are the standard ones, numbers calculate and values are shown as from the start,
and the errors of the language are known. -/
structure State.Fresh (s : State) : Prop where
  config : s.config = .standard
  numbers : ∀ e ∈ Routine.numberEntries, s.types.offers .int e = true
  shows : s.types.showPlainly = true
  errors : ∀ t ∈ CoreType.all, t.superclass = some .error → s.types.knowsError t = true

def State.topNames (s : State) : List String :=
  ((s.types.get? CoreType.object.id).map (·.constants.names)).getD []

theorem State.Fresh.grows {s s' : State} (h : s.Fresh) (hs : s.Grows s') : s'.Fresh := by
  obtain ⟨hconfig, hnumbers, hshows, herrors⟩ := h
  rw [← hs.config] at hconfig
  rw [← hs.types] at hnumbers hshows herrors
  exact ⟨hconfig, hnumbers, hshows, herrors⟩

theorem State.Fresh.ticked {s : State} (h : s.Fresh) : Fresh { s with steps := s.steps + 1 } :=
  ⟨h.config, h.numbers, h.shows, h.errors⟩

theorem State.Fresh.held {s : State} {held : List Held} (h : s.Fresh) : Fresh { s with held } :=
  ⟨h.config, h.numbers, h.shows, h.errors⟩

theorem State.Grows.room {s s' : State} (hs : s.Grows s')
    (h : s.frames.size < s.config.maxCallDepth) : s'.frames.size < s'.config.maxCallDepth := by
  rw [hs.frames, hs.config]
  exact h

theorem State.answer_of_found {s : State} {t : TypeId} {name : String} {v : Value}
    {owner : TypeId} {clauses : List Clause} (ht : s.typeOf v = t) (hv : v.type? = none)
    (h : s.types.firstWith name (s.types.ancestors t) = some (owner, clauses)) (bare : Bool) :
    s.answer v name bare = .method ⟨name, owner, false, clauses⟩ := by
  have hown : s.ownMethod? v name = none := by rw [ownMethod?, hv, Option.bind_none]
  have hconstant : s.namedConstant? v name = none := by
    rw [namedConstant?, hv, Option.bind_none, ite_self]
  have hmethod : s.instanceMethod? v name = some ⟨name, owner, false, clauses⟩ := by
    rw [instanceMethod?, methodAmong, ht, h]
    rfl
  rw [answer, hown, hconstant, ite_self, hmethod]

theorem State.answer_of_offers {s : State} {t : CoreType} {e : Routine.Entry} {v : Value}
    (ht : s.typeOf v = t.id) (hv : v.type? = none) (h : s.types.offers t e = true) (bare : Bool) :
    ∃ m n, s.answer v e.name bare = .method m ∧ m.clauses = [.native n] ∧
      n.signature = e.signature ∧ n.routine = e.routine := by
  unfold Types.offers at h
  split at h
  · rename_i owner n hfirst
    rw [Bool.and_eq_true, beq_iff_eq, beq_iff_eq] at h
    exact ⟨_, n, answer_of_found ht hv hfirst bare, rfl, h.1, h.2⟩
  · cases h

theorem Task.Yields.offered {s : State} {P : State → Outcome Value → Prop} {t : CoreType}
    {e : Routine.Entry} {c : Call} (hP : Lasting P) (he : s.types.offers t e = true)
    (ht : s.typeOf c.receiver = t.id) (hv : c.receiver.type? = none)
    (hfits : e.signature.mismatch s.types.sort c.receiver c.args c.block.isSome = none)
    (hs : s.frames.size < s.config.maxCallDepth)
    (h : ∀ held frame, (e.routine.run c).Yields { s with held, frames := s.frames.push frame } P) :
    (Task.send e.name c).Yields s P := by
  obtain ⟨m, n, hanswer, hclauses, hsignature, hroutine⟩ :=
    State.answer_of_offers ht hv he (c.args.isEmpty && c.block.isNone)
  refine .send hP hanswer hclauses ?_ hs fun held frame ↦ ?_
  · rw [hsignature]
    exact hfits
  · rw [hroutine]
    exact h held frame

namespace Prelude

/-- The characters of the lines, with a newline after each line. -/
def Spells (lines : List String) (chars : List Char) : Prop :=
  (String.join (lines.map (· ++ "\n"))).toList = chars

theorem Spells.nil : Spells [] [] := rfl

theorem Spells.cons {lines : List String} {line chars : List Char} (h : Spells lines chars) :
    Spells (String.ofList line :: lines) (line ++ '\n' :: chars) := by
  unfold Spells at h ⊢
  rw [List.map_cons, String.join_cons, String.toList_append, String.toList_append, h,
    String.toList_ofList, List.append_assoc]
  rfl

/-- The tokens of a text that has no error, as a list: of an array, each of them takes a copy while
it is calculated. -/
def tokensOf? (p : Position) : Nat → List Char → Option (List Token)
  | 0, _ => none
  | _ + 1, [] => some [Token.endAt p]
  | fuel + 1, c :: rest =>
    if c = Token.nul then some [Token.endAt p]
    else match Token.scan c rest with
      | .ok s => (tokensOf? (p.after s.read) fuel s.rest).map
          (⟨s.kind, String.ofList s.read, .ofText p s.read⟩ :: ·)
      | .error _ => none

theorem tokenizes_of_tokensOf? {p : Position} {fuel : Nat} {chars : List Char} {ts : List Token}
    (h : tokensOf? p fuel chars = some ts) : Token.Tokenizes p chars ts none := by
  induction fuel generalizing p chars ts with
  | zero => cases h
  | succ fuel ih =>
    cases chars with
    | nil =>
      cases h
      exact .stop rfl
    | cons c rest =>
      unfold tokensOf? at h
      by_cases hc : c = Token.nul
      · rw [if_pos hc] at h
        cases h
        exact .stop (by simp [hc])
      rw [if_neg hc] at h
      cases hs : Token.scan c rest with
      | error f =>
        rw [hs] at h
        cases h
      | ok s =>
        rw [hs] at h
        obtain ⟨ts', hts, rfl⟩ := Option.map_eq_some_iff.mp h
        exact .token hc hs (ih hts)

/-- The program that some characters spell. -/
def programOf? (chars : List Char) : Option Program :=
  (tokensOf? .start (chars.length + 1) chars).bind fun ts ↦ (Program.ofTokens? ts).toOption

theorem of_programOf? {text : String} {p : Program} (h : programOf? text.toList = some p) :
    Program.ofText? text = .ok p := by
  obtain ⟨ts, hts, hp⟩ := Option.bind_eq_some_iff.mp h
  have htokens : Token.ofText? text = .ok ts.toArray :=
    Token.ofText?_iff.mpr (tokenizes_of_tokensOf? hts)
  rw [Program.ofText?, htokens]
  dsimp only
  cases hprogram : Program.ofTokens? ts with
  | ok p' =>
    rw [hprogram] at hp
    cases hp
    rfl
  | error e =>
    rw [hprogram] at hp
    cases hp

/-- What an interpreter keeps once it has run the program. -/
def stateAfter (fuel : Nat) (p : Program) : Option State :=
  match (Interpreter.machine ⟨.initial .standard⟩ p).run fuel with
  | some (.ok _, s) => some s
  | _ => none

theorem of_stateAfter {fuel : Nat} {p : Program} {s : State} (h : stateAfter fuel p = some s) :
    ∃ v, (Interpreter.machine ⟨.initial .standard⟩ p).run fuel = some (.ok v, s) := by
  unfold stateAfter at h
  split at h
  · rename_i v s' hrun
    cases h
    exact ⟨v, hrun⟩
  · cases h

def isFresh (s : State) : Bool :=
  s.config == .standard && Routine.numberEntries.all (s.types.offers .int) &&
    s.types.showPlainly &&
    CoreType.all.all fun t ↦ t.superclass != some .error || s.types.knowsError t

theorem fresh_of_isFresh {s : State} (h : isFresh s = true) : s.Fresh := by
  simp only [isFresh, Bool.and_eq_true, beq_iff_eq, List.all_eq_true, Bool.or_eq_true,
    bne_iff_ne] at h
  obtain ⟨⟨⟨hconfig, hnumbers⟩, hshows⟩, herrors⟩ := h
  exact ⟨hconfig, hnumbers, hshows, fun t ht hsuper ↦
    (herrors t ht).resolve_left (not_not_intro hsuper)⟩

/-- The constants at top level are the core types and those of the prelude. -/
def isBare (s : State) : Bool :=
  s.topNames == CoreType.all.map CoreType.name ++ ["AssertionFailure", "Assertion"]

theorem text_spelled : ∃ chars, Spells lines chars ∧
    (programOf? chars).any (fun p ↦ p.assignsNoConstants &&
      (stateAfter 100 p).any fun s ↦ isFresh s && isBare s) = true :=
  ⟨_, by
    repeat apply Spells.cons
    exact .nil, by decide +kernel⟩

/-- The prelude is a program, which assigns no constants and leaves the language as it was. -/
theorem program_read : ∃ p s, Prelude.program = .ok p ∧ p.AssignsNoConstants ∧
    stateAfter 100 p = some s ∧ s.Fresh ∧ isBare s = true := by
  obtain ⟨_, rfl, hcheck⟩ := text_spelled
  obtain ⟨p, hp, hchecked⟩ := (Option.any_eq_true _ _).mp hcheck
  obtain ⟨hnone, hafter⟩ := Bool.and_eq_true_iff.mp hchecked
  obtain ⟨s, hs, hstate⟩ := (Option.any_eq_true _ _).mp hafter
  obtain ⟨hfresh, hbare⟩ := Bool.and_eq_true_iff.mp hstate
  exact ⟨p, s, of_programOf? hp, Program.of_assignsNoConstants hnone, hs, fresh_of_isFresh hfresh,
    hbare⟩

end Prelude

namespace Interpreter

theorem run_of_machine {i : Interpreter} {p : Program} {n : Nat} {v : Value} {s : State}
    (h : (i.machine p).run n = some (.ok v, s)) (fuel : Nat) (hn : n ≤ fuel) :
    i.run p fuel = some (.ok v, ⟨{ s with frames := #[] }⟩) :=
  run_eq_some.mpr ⟨.ok v, s, ⟨s⟩, Machine.run_mono h hn, rfl, rfl⟩

/-- With enough fuel there is a new interpreter, which is the same for all fuel. It is as the
prelude left it. -/
theorem new_prelude : ∃ s : State, (s.Fresh ∧ Prelude.isBare s = true) ∧
    ∀ fuel, 100 ≤ fuel →
      new .standard fuel = some (.ok ⟨{ s with frames := #[], output := "" }⟩) := by
  obtain ⟨p, s, hprogram, -, hs, hfresh, hbare⟩ := Prelude.program_read
  obtain ⟨v, hrun⟩ := Prelude.of_stateAfter hs
  refine ⟨s, ⟨hfresh, hbare⟩, fun fuel hfuel ↦ ?_⟩
  rw [new, hprogram, withPrelude, run_of_machine hrun fuel hfuel]
  rfl

theorem new_standard : ∃ i : Interpreter, i.state.Fresh ∧
    ∃ least, ∀ fuel, least ≤ fuel → new .standard fuel = some (.ok i) := by
  obtain ⟨s, ⟨fresh, -⟩, hnew⟩ := new_prelude
  exact ⟨⟨{ s with frames := #[], output := "" }⟩,
    ⟨fresh.config, fresh.numbers, fresh.shows, fresh.errors⟩, 100, hnew⟩

theorem new_topNames : ∃ i : Interpreter, new .standard 100 = some (.ok i) ∧
    i.state.topNames = CoreType.all.map CoreType.name ++ ["AssertionFailure", "Assertion"] := by
  obtain ⟨s, ⟨-, hbare⟩, hnew⟩ := new_prelude
  exact ⟨⟨{ s with frames := #[], output := "" }⟩, hnew 100 (Nat.le_refl _), beq_iff_eq.mp hbare⟩

theorem fresh_rested {i : Interpreter} (h : i.state.Fresh) : i.rested.state.Fresh :=
  ⟨h.config, h.numbers, h.shows, h.errors⟩

theorem run_yields {i : Interpreter} {e : Expr} {P : State → Outcome Value → Prop}
    (h : (Task.eval e State.topContext).Yields i.rested.state P) (span : Span) :
    ∃ o s, i.rested.state.Grows s ∧ P s o ∧ ∃ least, ∀ fuel, least ≤ fuel → ∀ r j,
      result ⟨s⟩ o span fuel = some (r, j) →
        i.run ⟨[e], span⟩ fuel = some (r, ⟨{ j.state with frames := #[] }⟩) := by
  obtain ⟨o, s, hgives, hgrows, hP⟩ := h
  obtain ⟨least, hrun⟩ := hgives.statement
  refine ⟨o, s, hgrows, hP, least, fun fuel hfuel r j hr ↦ ?_⟩
  exact run_eq_some.mpr ⟨o, s, j, Machine.run_mono hrun hfuel, hr, rfl⟩

theorem result_raises {i : Interpreter} {f : Fault} {span : Span} {o : Outcome Value}
    (h : i.state.Raises f span o) (hf : i.state.types.knowsError f.type = true) :
    ∃ backtrace, ∀ whole fuel, i.result o whole fuel =
      some (.error (.uncaught f.type.name f.message span backtrace), i) := by
  obtain ⟨id, calls, rfl, hobj⟩ := h
  obtain ⟨hname, hdescends⟩ := Bool.and_eq_true_iff.mp hf
  have hobject : i.state.object id = ⟨f.type.id, ⟨[("message", .str f.message)]⟩⟩ := by
    rw [State.object, hobj]
  have htype : i.state.typeOf (.object id) = f.type.id := congrArg Object.type hobject
  have herror : i.state.isInstance (.object id) CoreType.error.id = true := by
    rw [State.isInstance, htype]
    exact hdescends
  have hmessage : i.state.attr (.object id) "message" = .str f.message := by
    rw [State.attr, hobject]
    rfl
  refine ⟨Raised.backtrace ⟨.object id, span, calls⟩, fun whole fuel ↦ ?_⟩
  have htext : i.uncaughtText (.object id) fuel = some (f.message, i) := by
    unfold uncaughtText
    rw [herror, hmessage]
    cases fuel <;> rfl
  rw [result, htext]
  have htypeName : i.state.typeName (.object id) = f.type.name := by
    rw [State.typeName, htype]
    exact beq_iff_eq.mp hname
  rw [← htypeName]
  rfl

end Interpreter

end Quill

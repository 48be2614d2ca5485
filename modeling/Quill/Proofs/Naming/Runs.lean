import Quill.Proofs.Calm
import Quill.Proofs.Naming
import Quill.Proofs.Regime.Run

/-!
# Programs that assign no constants

What a program defines is found under its name at all times, if neither it nor what ran before it
assigns a constant. Main statements: `Regime.naming` and `State.Arises.named`.
-/

namespace Quill

/-- A constant that the node makes is for a type or module, and its name has no dots. -/
structure Node.NamesPlainly (n : Node) : Prop where
  assigned : ∀ i, n.target? ≠ some (.constant i)
  defined : ∀ d, n = .type d → '.' ∉ d.name.name.toList

theorem Program.AssignsNoConstants.namesPlainly {p : Program} (h : p.AssignsNoConstants)
    {text : String} (hp : Program.ofText? text = .ok p) :
    (Node.program p).All Node.NamesPlainly := by
  intro n hn
  refine ⟨h n hn, ?_⟩
  rintro d rfl
  have hname : Token.Kind.IsRead (.constant d.name.name) := Program.ofText?_sound hp _ hn
  exact Token.dot_not_mem hname

def Clause.NamesPlainly (c : Clause) : Prop :=
  ∀ d, c = .user d → (Node.method d).All Node.NamesPlainly

theorem Clause.namesPlainly_user {d : MethodDef} (h : (Node.method d).All Node.NamesPlainly) :
    (user d).NamesPlainly := by
  rintro _ ⟨⟩
  exact h

structure TypeInfo.NamesPlainly (t : TypeInfo) : Prop where
  methods : ∀ name, MethodTable.AllUnder t.methods name Clause.NamesPlainly
  classMethods : ∀ name, MethodTable.AllUnder t.classMethods name Clause.NamesPlainly

namespace TypeInfo

variable {t : TypeInfo} {name : String} {c : Clause}

theorem namesPlainly_lasting : Lasting NamesPlainly where
  new _ _ _ _ := ⟨nofun, nofun⟩
  constant _ _ h := ⟨h.methods, h.classMethods⟩
  attr _ _ h := ⟨h.methods, h.classMethods⟩
  includes _ h := ⟨h.methods, h.classMethods⟩
  doc _ h := ⟨h.methods, h.classMethods⟩
  orphan h := ⟨h.methods, h.classMethods⟩

theorem NamesPlainly.method (h : t.NamesPlainly) (hc : c.NamesPlainly) :
    NamesPlainly { t with methods := MethodTable.insert t.methods name c } :=
  ⟨fun other ↦ (h.methods other).insert fun _ ↦ hc, h.classMethods⟩

theorem NamesPlainly.classMethod (h : t.NamesPlainly) (hc : c.NamesPlainly) :
    NamesPlainly { t with classMethods := MethodTable.insert t.classMethods name c } :=
  ⟨h.methods, fun other ↦ (h.classMethods other).insert fun _ ↦ hc⟩

end TypeInfo

theorem Types.standard_namesPlainly : standard.Every TypeInfo.NamesPlainly := by
  have native (n : NativeMethod) : Clause.NamesPlainly (.native n) := fun _ hd ↦ nomatch hd
  unfold standard
  exact (every_core TypeInfo.namesPlainly_lasting).foldl fun _ h e _ ↦
    h.addNative e.classSide (fun _ n ht _ ↦ ht.method (native n)) fun _ n ht _ ↦
      ht.classMethod (native n)

namespace State

variable {s s' s'' : State}

/-- Names tell where types and modules are, and no code that is kept would change that. -/
structure Named (s : State) : Prop where
  types : s.types.Named
  object : s.types.Made CoreType.object.id
  clauses : s.types.Every TypeInfo.NamesPlainly
  lambdas : ∀ (i : Nat) (l : Lambda), s.lambdas[i]? = some l →
    s.types.Made l.home.module ∧ (Node.block l.block).All Node.NamesPlainly

theorem letGoAround_of_named (h : s.types.Named) (name : String) (t : TypeId) :
    s.letGoAround name t = s := by
  have within (n : Nat) (t : TypeId) : letGoWithin name n t s = s := by
    induction n generalizing t with
    | zero => rfl
    | succ n ih =>
      unfold letGoWithin
      split
      · rfl
      · split
        · rfl
        · rename_i outer houter
          have retained : s.isRetained outer = true := by
            obtain ⟨info, hinfo, -⟩ := Option.bind_eq_some_iff.mp houter
            obtain ⟨container, short, hdef, -⟩ := h.placed t (Types.made_iff.mpr ⟨info, hinfo⟩)
            have hmade := Types.made_of_constant? hdef.constant
            have hparent := hdef.parent
            rw [houter] at hparent
            split at hparent
            · cases hparent
            · cases hparent
              have hfound := h.found hmade
              simp [isRetained, isFoundByName, hfound]
          rw [if_pos retained]
          exact ih outer
  exact within _ t

/-- Whatever becomes of a state has names, too, and all that it had. -/
structure KeepsNames (s s' : State) : Prop where
  named : s'.Named
  more : s.types.Extends s'.types

namespace KeepsNames

theorem refl (h : s.Named) : s.KeepsNames s := ⟨h, .refl _⟩

theorem trans (h : s.KeepsNames s') (h' : s'.KeepsNames s'') : s.KeepsNames s'' :=
  ⟨h'.named, h.more.trans h'.more⟩

theorem of_same (h : s.Named) (ht : s'.types = s.types) (hl : s'.lambdas = s.lambdas) :
    s.KeepsNames s' := by
  refine ⟨⟨?_, ?_, ?_, ?_⟩, ?_⟩
  · rw [ht]
    exact h.types
  · rw [ht]
    exact h.object
  · rw [ht]
    exact h.clauses
  · rw [ht, hl]
    exact h.lambdas
  · rw [ht]
    exact .refl _

theorem of_types (h : s.Named) {types : Types} (hnamed : types.Named)
    (hclauses : types.Every TypeInfo.NamesPlainly) (hext : s.types.Extends types) :
    s.KeepsNames { s with types } := by
  refine ⟨⟨hnamed, hext.made h.object, hclauses, fun i l hl ↦ ?_⟩, hext⟩
  obtain ⟨hhome, hblock⟩ := h.lambdas i l hl
  exact ⟨hext.made hhome, hblock⟩

theorem retype (h : s.Named) {types : Types}
    (ht : s.Retypes (·.All Node.NamesPlainly) s.types.Made types) :
    s.KeepsNames { s with types } := by
  have lasting := TypeInfo.namesPlainly_lasting
  cases ht with
  | attr t name v =>
    refine of_types h (h.types.alike ?_) (h.clauses.modify fun _ ↦ lasting.attr name v) ?_
    · exact Types.alikeNamed_modify (fun _ ↦ rfl) (fun _ ↦ rfl) fun _ ↦ rfl
    · exact (Change.extends (.setTypeAttr t name v) s).types
  | constant t v hn htarget => exact absurd htarget (hn.self.assigned _)
  | method t hd =>
    exact of_types h (h.types.alike (Types.alikeNamed_addMethod _ _))
      (h.clauses.modify fun _ ht ↦ ht.method (Clause.namesPlainly_user hd))
      (Types.extends_addMethod _ _)
  | classMethod t hd =>
    exact of_types h (h.types.alike (Types.alikeNamed_addClassMethod _ _))
      (h.clauses.modify fun _ ht ↦ ht.classMethod (Clause.namesPlainly_user hd))
      (Types.extends_addClassMethod _ _)
  | included t module =>
    exact of_types h (h.types.alike (Types.alikeNamed_includeModule module))
      (h.clauses.includeModule lasting module) (Types.extends_includeModule module)
  | documented t doc =>
    exact of_types h (h.types.alike (Types.alikeNamed_document doc))
      (h.clauses.document lasting doc) (Types.extends_document doc)
  | @declared d container superclass hd hc hnew =>
    exact of_types h (h.types.declare hc (hd.self.defined d rfl) hnew d.sort superclass)
      (h.clauses.declare lasting container d.sort d.name.name superclass)
      (Types.extends_declare container d.sort d.name.name superclass)
  | letGo name t =>
    rw [letGoAround_of_named h.types]
    exact refl h

theorem newLambda (h : s.Named) {l : Lambda} (hl : s.types.Made l.home.module)
    (hb : (Node.block l.block).All Node.NamesPlainly) : s.KeepsNames (s.newLambda l).2 := by
  refine ⟨⟨h.types, h.object, h.clauses, fun i found hi ↦ ?_⟩, .refl _⟩
  simp only [State.newLambda, Array.getElem?_push] at hi
  split at hi
  · cases hi
    exact ⟨hl, hb⟩
  · exact h.lambdas i found hi

end KeepsNames

theorem Named.method (h : s.Named) {t : TypeId} {name : String} {clauses : List Clause}
    (hfound : s.types.method? t name = some clauses ∨ s.types.classMethod? t name = some clauses) :
    s.types.Made t ∧ ∀ d, .user d ∈ clauses → (Node.method d).All Node.NamesPlainly := by
  obtain hfound | hfound := hfound
  all_goals
    obtain ⟨info, hinfo, hclauses⟩ := Option.bind_eq_some_iff.mp hfound
    refine ⟨Types.made_iff.mpr ⟨info, hinfo⟩, fun d hd ↦ ?_⟩
  · exact (h.clauses t info hinfo).methods name clauses hclauses _ hd d rfl
  · exact (h.clauses t info hinfo).classMethods name clauses hclauses _ hd d rfl

end State

/-- Code assigns no constants and runs inside of types and modules that have been made, in any
scope. -/
def Regime.naming : Regime where
  Fit := State.Named
  Becomes := State.KeepsNames
  Allows n := n.All Node.NamesPlainly
  Around s t := s.types.Made t
  Open _ _ := True
  Own _ _ := True
  Near _ _ := True
  refl := .refl
  trans := .trans
  fit h := h.named
  child h hm := h.child hm
  around_mono h ht := h.more.made ht
  open_mono _ _ := trivial
  own_mono _ _ := trivial
  near_mono _ _ := trivial
  open_of_own _ := trivial
  near_of_open _ := trivial
  same h ht _ hl := .of_same h ht hl
  define _ _ h _ := .of_same h rfl rfl
  assign _ _ h _ := .of_same h rfl rfl
  newScope h _ := .of_same h rfl rfl
  fresh _ := trivial
  root _ := trivial
  newLambda h _ ht hb := .newLambda h ht hb
  lambda h hl := ⟨⟨trivial, (h.lambdas _ _ hl).1⟩, (h.lambdas _ _ hl).2⟩
  retype h ht := .retype h ht
  declared _ _ _ _ _ := Types.made_declare.mpr (.inr rfl)
  opened h ht := by
    obtain ⟨t, heq, hdef⟩ := h.types.constants _ _ _ ht
    cases heq
    exact hdef.made
  method h hfound := h.method hfound

namespace State

variable {s s' : State}

theorem named_initial (config : Config) : (initial config).Named where
  types := Types.named_standard
  object := Types.standard_made .object
  clauses := Types.standard_namesPlainly
  lambdas i l h := by simp [initial] at h

theorem Named.top_open (h : s.Named) {p : Program}
    (hp : (Node.program p).All Node.NamesPlainly) :
    (Task.statements p.body topContext).Open .naming s :=
  ⟨⟨trivial, h.object⟩, fun _ he ↦ hp.child (List.mem_map_of_mem he)⟩

/-- What comes of a state by running a program that assigns no constants and by what is done between
programs: the host sends messages and calls blocks, and what else it does has nothing to do with
types and lambdas. -/
inductive Proceeds : State → State → Prop
  | runs {i : Interpreter} {text : String} {p : Program} {m : Machine} :
      Program.ofText? text = .ok p → p.AssignsNoConstants → (i.machine p).Reaches m →
      Proceeds i.state m.work.state
  | ran {i i' : Interpreter} {text : String} {p : Program} {fuel : Nat} {r : Result} :
      Program.ofText? text = .ok p → p.AssignsNoConstants → i.run p fuel = some (r, i') →
      Proceeds i.state i'.state
  | asked {s : State} {t : Task} {m : Machine} : t.kind ≠ .code →
      (Machine.start t s).Reaches m → Proceeds s m.work.state
  | host {s s' : State} : s'.types = s.types → s'.lambdas = s.lambdas → Proceeds s s'

theorem Proceeds.keepsNames (h : s.Proceeds s') (hs : s.Named) : s.KeepsNames s' := by
  cases h with
  | runs hp hnone hr =>
    exact Interpreter.machine_becomes (R := .naming) hs (hs.top_open (hnone.namesPlainly hp)) hr
  | ran hp hnone hrun =>
    exact Interpreter.run_becomes (R := .naming) hs (hs.top_open (hnone.namesPlainly hp)) hrun
  | asked ht hr => exact hr.becomes (R := .naming) hs (Task.open_of_kind _ _ ht)
  | host ht hl => exact .of_same hs ht hl

/-- What comes of a state by and by. -/
def Becomes : State → State → Prop := Relation.ReflTransGen Proceeds

theorem Becomes.keepsNames (h : s.Becomes s') (hs : s.Named) : s.KeepsNames s' := by
  induction h with
  | refl => exact .refl hs
  | tail _ hstep ih => exact ih.trans (hstep.keepsNames ih.named)

/-- The state comes of the one that every interpreter begins with. -/
def Arises (s : State) : Prop := ∃ config, (initial config).Becomes s

theorem Arises.becomes (h : s.Arises) (hs : s.Becomes s') : s'.Arises :=
  let ⟨config, h⟩ := h
  ⟨config, h.trans hs⟩

theorem Arises.named (h : s.Arises) : s.Named := by
  obtain ⟨config, h⟩ := h
  exact (h.keepsNames (named_initial config)).named

end State

theorem Interpreter.new_arises {config : Config} {fuel : Nat} {i : Interpreter}
    (h : new config fuel = some (.ok i)) : i.state.Arises := by
  obtain ⟨p, -, hp, hnone, -⟩ := Prelude.program_read
  rw [new, hp] at h
  obtain ⟨⟨r, j⟩, hrun, h⟩ := Option.bind_eq_some_iff.mp h
  cases r with
  | error e => cases h
  | ok v =>
    cases h
    have hran : (State.initial config).Proceeds j.state := .ran (i := ⟨_⟩) hp hnone hrun
    exact ⟨config, (Relation.ReflTransGen.single hran).tail (.host rfl rfl)⟩

theorem Interpreter.arises_of_check (text : String) (check : Program → Interpreter → Bool)
    (h : (Program.ofText? text).toOption.any (fun p ↦ p.assignsNoConstants &&
      ((mk (.initial .standard)).run p 100).any fun ran ↦ check p ran.2) = true) :
    ∃ p i, Program.ofText? text = .ok p ∧ p.AssignsNoConstants ∧ i.state.Arises ∧
      check p i = true := by
  cases hp : Program.ofText? text with
  | error e =>
    rw [hp] at h
    cases h
  | ok p =>
    rw [hp] at h
    obtain ⟨hnone, hafter⟩ := Bool.and_eq_true_iff.mp h
    have hnone : p.AssignsNoConstants := Program.of_assignsNoConstants hnone
    obtain ⟨⟨r, i⟩, hrun, hi⟩ := (Option.any_eq_true _ _).mp hafter
    exact ⟨p, i, rfl, hnone, ⟨.standard, .single (.ran (i := mk _) hp hnone hrun)⟩, hi⟩

end Quill

import Quill.Proofs.Code
import Quill.Proofs.Enclosing
import Quill.Proofs.Instances
import Quill.Proofs.Leniency

/-!
# Calls of methods of given code

A call of a method whose parameters are names has a scope of its own, which holds the arguments
whatever messages are sent meanwhile (`State.Secluded.sent`). It ends as the body of the method does
there (`State.Understands.call`).
-/

namespace Quill

open Eval

/-- The root scope has no variables, and no scope is around it. -/
structure State.Bare (s : State) : Prop where
  names : s.scopes.names Scopes.root = []
  parent : s.scopes.parent Scopes.root = none

/-- Code runs only in scopes that have been made, and not in the root scope. -/
structure State.Tidy (s : State) : Prop extends s.Housed, s.Bare

/-- The scope has these variables and is inside of the root scope, and no other code comes to it. -/
structure State.Secluded (s : State) (scope : ScopeId) (bs : Bindings Value) : Prop
    extends s.Bare where
  hides : s.Hides (· = scope)
  scope : s.scopes.all[scope.index]? = some ⟨bs, some Scopes.root⟩

section

variable {s s' : State} {scope : ScopeId} {bs : Bindings Value} {x : String} {v : Value}
  {o : Outcome Value}

theorem Task.Gives.sent_becomes {R : Regime} {name : String} {c : Call}
    (h : (Task.send name c).Gives s o s') (hs : R.Fit s) : R.Becomes s s' := by
  obtain ⟨n, hrun⟩ := h
  have hopen : (Task.send name c).Open R s := trivial
  exact Machine.run_becomes hs hopen hrun

namespace State

theorem Bare.of_encloses {n : Nat} {c : Option ScopeId} (h : s.Bare) (he : s.Encloses n c s')
    (hn : 0 < n) (hc : c ≠ some Scopes.root) : s'.Bare where
  names := (he.names _ hn hc).trans h.names
  parent := (he.parent _ (Nat.lt_of_lt_of_le hn he.made)).trans h.parent

theorem Bare.sent {name : String} {c : Call} (h : s.Bare) (hroot : 0 < s.scopes.all.size)
    (hsend : (Task.send name c).Gives s o s') : s'.Bare :=
  h.of_encloses (hsend.sent_becomes (R := .inside 1 none nofun) hroot) Nat.one_pos nofun

namespace Tidy

theorem initial (config : Config) : (initial config).Tidy :=
  ⟨housed_initial config, ⟨rfl, rfl⟩⟩

theorem sent {name : String} {c : Call} (h : s.Tidy)
    (hsend : (Task.send name c).Gives s o s') : s'.Tidy :=
  ⟨h.toHoused.of_spares (hsend.sent_becomes (R := .hiding fun _ ↦ False) h.toHides),
    h.toBare.sent h.root.1 hsend⟩

theorem ran {i i' : Interpreter} {p : Program} {fuel : Nat} {r : Result} (h : i.state.Tidy)
    (hrun : i.run p fuel = some (r, i')) : i'.state.Tidy := by
  have hmain (id : ScopeId) (hid : some mainScope = some id) : id.index < 2 :=
    Option.some.inj hid ▸ Nat.one_lt_two
  have hopen : (Task.statements p.body topContext).Open (.inside 2 (some mainScope) hmain)
      i.state := ⟨⟨.inr rfl, trivial⟩, fun _ _ ↦ trivial⟩
  have encloses := Interpreter.run_becomes (R := .inside 2 (some mainScope) hmain) h.main hopen hrun
  have spares := Interpreter.run_becomes h.toHides (h.top_open p) hrun
  exact ⟨h.toHoused.of_spares spares, h.toBare.of_encloses encloses Nat.two_pos (by decide)⟩

end Tidy

namespace Secluded

theorem of_same (h : s.Secluded scope bs) (hs : s'.scopes = s.scopes)
    (hl : s'.lambdas = s.lambdas) : s'.Secluded scope bs where
  names := by rw [hs, h.names]
  parent := by rw [hs, h.parent]
  hides := (Spares.of_same h.hides hs hl).hides
  scope := by rw [hs, h.scope]

theorem sent {asked : State} {name : String} {c : Call} (h : s.Secluded scope bs)
    (hsend : (Task.send name c).Gives asked o s') (hs : asked.scopes = s.scopes)
    (hl : asked.lambdas = s.lambdas) : s'.Secluded scope bs := by
  have hasked := h.of_same hs hl
  have spares := hsend.sent_becomes (R := .hiding (· = scope)) hasked.hides
  exact ⟨hasked.toBare.sent hasked.hides.root.1 hsend, spares.hides,
    (spares.same scope rfl).trans hasked.scope⟩

theorem bindings (h : s.Secluded scope bs) : s.scopes.bindings scope = bs := by
  rw [Scopes.bindings, h.scope]

theorem get?_some (h : s.Secluded scope bs) (hx : bs.get? x = some v) :
    s.scopes.get? scope x = some v := Scopes.get?_of_bindings (h.bindings ▸ hx)

theorem get?_none (h : s.Secluded scope bs) (hx : bs.get? x = none) :
    s.scopes.get? scope x = none := by
  have hroot : s.scopes.binds x Scopes.root = false := by
    rw [Bool.eq_false_iff, ne_eq, Scopes.binds_iff, h.names]
    exact List.not_mem_nil
  have hown : s.scopes.binds x scope = false := by
    rw [Scopes.binds, h.bindings, hx]
    rfl
  have howner : s.scopes.owner scope x = none := by
    have hparent : s.scopes.parent scope = some Scopes.root := by
      rw [Scopes.parent, h.scope]
    rw [Scopes.owner, Scopes.ownerWithin_succ, hown, hparent]
    cases scope.index with
    | zero => rfl
    | succ n =>
      simp only [Option.bind_some, Scopes.ownerWithin_succ, hroot, h.parent]
      rfl
  rw [Scopes.get?, howner]

end Secluded

/-- A new scope inside of the root scope has the parameters with the arguments. -/
def entering (s : State) (params : List String) (args : List Value) : State :=
  { s with scopes := (defined s.scopes.fresh (params.zip args).reverse
      (s.newScope Scopes.root).2).scopes }

theorem Hides.defined {hidden : ScopeId → Prop} (h : s.Hides hidden) (id : ScopeId)
    (found : Matched) : (defined id found s).Hides hidden := by
  induction found with
  | nil => exact h
  | cons b found ih => exact ih.define_any id b.1 b.2

variable {params : List String} {args : List Value}

theorem entering_scope : (s.entering params args).scopes.all[s.scopes.fresh.index]? =
    some ⟨(params.zip args).reverse.foldr (fun b bs ↦ bs.set b.1 b.2) .empty,
      some Scopes.root⟩ := by
  refine getElem?_defined ?_ _
  simp [newScope, Scopes.child, Scopes.fresh]

theorem entering_get? (h : (params.zip args).reverse.lookup x = some v) :
    (s.entering params args).scopes.get? s.scopes.fresh x = some v := by
  refine Scopes.get?_of_bindings ?_
  rw [Scopes.bindings, entering_scope]
  dsimp only
  rw [Bindings.get?_foldr_set, h]
  rfl

theorem Tidy.secluded (h : s.Tidy) : (s.entering params args).Secluded s.scopes.fresh
    ((params.zip args).reverse.foldr (fun b bs ↦ bs.set b.1 b.2) .empty) := by
  have hroot : 0 < s.scopes.all.size := h.root.1
  have made : 1 ≤ (s.newScope Scopes.root).2.scopes.all.size := by
    simp [newScope, Scopes.child]
  have encloses : s.Encloses 1 none (defined s.scopes.fresh (params.zip args).reverse
      (s.newScope Scopes.root).2) :=
    .trans (.newScope hroot _) (.defined made ⟨hroot, by simp⟩ _)
  have hides := ((h.toHoused.hides_fresh s.held).defined s.scopes.fresh (params.zip args).reverse)
  have bare := h.toBare.of_encloses encloses Nat.one_pos (Option.some_ne_none _).symm
  rw [defined_eq] at hides
  exact ⟨⟨bare.names, bare.parent⟩, ⟨hides.root, hides.made, hides.homes, hides.parents⟩,
    entering_scope⟩

end State

end

/-- The name of a parameter that takes every value. -/
def Pattern.plainName? : Pattern → Option String
  | .bind name none => some name.name
  | _ => none

/-- The method has these parameters and is this code. -/
structure MethodDef.Consists (d : MethodDef) (params : List String) (code : List Code) : Prop where
  items : d.params.items.map Pattern.plainName? = params.map some
  block : d.params.block = none
  guard : d.guard = none
  unprotected : d.body.isProtected = false
  statements : Code.AllSpanned code d.body.statements

def MethodDef.consists (d : MethodDef) (params : List String) (code : List Code) : Bool :=
  d.params.items.map Pattern.plainName? == params.map some && d.params.block.isNone &&
    d.guard.isNone && !d.body.isProtected && Code.spansAll code d.body.statements

theorem MethodDef.Consists.of_checked {d : MethodDef} {params : List String} {code : List Code}
    (h : d.consists params code = true) : d.Consists params code := by
  simp only [consists, Bool.and_eq_true, beq_iff_eq, Option.isNone_iff_eq_none,
    Bool.not_eq_true'] at h
  obtain ⟨⟨⟨⟨hitems, hblock⟩, hguard⟩, hbody⟩, hcode⟩ := h
  exact ⟨hitems, hblock, hguard, hbody, Code.allSpanned_of_spansAll hcode⟩

section

variable {s s' : State} {ctx : Context} {params : List String} {args : List Value}
  {code : List Code} {d : MethodDef} {m : Method} {c : Call}

theorem Eval.matchEach_names {ps : List Pattern} {acc : Matched}
    (h : ps.map Pattern.plainName? = params.map some) :
    matchEach ctx acc (ps.zip args) = return some ((params.zip args).reverse ++ acc) := by
  induction ps generalizing params args acc with
  | nil =>
    obtain rfl := List.map_eq_nil_iff.mp h.symm
    rfl
  | cons p ps ih =>
    obtain ⟨name, params, rfl, hname, hparams⟩ := List.map_eq_cons_iff.mp h.symm
    cases args with
    | nil => rfl
    | cons v args =>
      unfold Pattern.plainName? at hname
      split at hname
      · cases hname
        rw [List.zip_cons_cons, List.zip_cons_cons, List.reverse_cons, List.append_assoc]
        exact ih hparams.symm
      · cases hname

theorem State.defined_held (scope : ScopeId) (found : Matched) (s : State) (held : List Held) :
    defined scope found { s with held } = { defined scope found s with held } := by
  induction found with
  | nil => rfl
  | cons b found ih =>
    change (defined scope found { s with held }).define scope b.1 b.2 = _
    rw [ih]
    rfl

namespace MethodDef.Consists

theorem not_splat (h : d.Consists params code) : d.params.items.any (·.isSplat) = false := by
  rw [List.any_eq_false]
  intro p hp hsplat
  have hname := List.mem_map_of_mem (f := Pattern.plainName?) hp
  rw [h.items] at hname
  obtain ⟨name, -, hname⟩ := List.mem_map.mp hname
  cases p with
  | splat => cases hname
  | _ => cases hsplat

theorem length (h : d.Consists params code) : d.params.items.length = params.length := by
  have hlength := congrArg List.length h.items
  rwa [List.length_map, List.length_map] at hlength

theorem takes (h : d.Consists params code) : d.params.takes params.length = true := by
  rw [Params.takes, Params.isVariadic, h.not_splat, Params.required,
    countP_of_not_any h.not_splat, h.length]
  exact beq_self_eq_true _

theorem matches_ (h : d.Consists params code) (hlen : args.length = params.length) :
    matchSequence ctx d.params.items args = return some (params.zip args).reverse := by
  have hlen := hlen.trans h.length.symm
  rw [matchSequence, if_pos ((countFits_even h.not_splat _).mpr hlen),
    matchAll_eq_matchEach h.not_splat hlen, matchEach_names h.items, List.append_nil]

theorem binds (h : d.Consists params code) (hlen : c.args.length = params.length) :
    (bindClause d m c).Gives s
      (.ok (some ⟨s.scopes.fresh, c.receiver, m.owner, some (m.frame c.args c.block)⟩))
      (s.entering params c.args) := by
  let ctx : Context := ⟨s.scopes.fresh, c.receiver, m.owner, some (m.frame c.args c.block)⟩
  let bound : State := State.defined s.scopes.fresh (params.zip c.args).reverse
    { (s.newScope Scopes.root).2 with held := ⟨[], some ctx⟩ :: s.held }
  have hparams : (bindParams d c ctx).Gives
      { (s.newScope Scopes.root).2 with held := ⟨[], some ctx⟩ :: s.held } (.ok true) bound := by
    unfold bindParams defineBlock admits
    rw [h.matches_ hlen, h.block, h.guard]
    exact .bind (.pure _ _) (.bind (.change _ _) (.bind (.pure _ _) (.pure _ _)))
  have hbound : { bound with held := s.held } = s.entering params c.args := by
    rw [show bound = _ from State.defined_held _ _ _ _, State.defined_eq]
    rfl
  rw [bindClause, if_pos (hlen ▸ h.takes), ← hbound]
  exact .bind (.change (·.newScope Scopes.root) s) (.bind (.keeping _ hparams) (.pure _ _))

end MethodDef.Consists

/-- The value answers the message with a method that is this code, found at `owner`. -/
def State.Understands (s : State) (w : Value) (name : String) (owner : TypeId)
    (params : List String) (code : List Code) : Prop :=
  ∃ m d, (∀ bare, s.answer w name bare = .method m) ∧ m.owner = owner ∧ m.clauses = [.user d] ∧
    d.Consists params code

/-- So a body can end that the whole call ends like. -/
inductive Outcome.EndsCall : Outcome Value → Prop
  | value (v : Value) : EndsCall (.ok v)
  | raise (r : Raised) : EndsCall (.error (.raise r))

theorem State.Understands.call {w : Value} {name : String} {owner : TypeId}
    (h : s.Understands w name owner params code) (args : List Value)
    (hlen : args.length = params.length) (hroom : s.frames.size < s.config.maxCallDepth)
    (span : Span) :
    ∃ ctx es label, ctx.scope = s.scopes.fresh ∧ ctx.self = w ∧ ctx.module = owner ∧
      Code.AllSpanned code es ∧ ∀ o s', Outcome.EndsCall o →
        (Eval.statements ctx es).Gives
          { s.entering params args with
            held := ⟨[], some ctx⟩ :: s.held, frames := s.frames.push ⟨label, span⟩ } o s' →
        (Task.send name ⟨w, args, none, span⟩).Gives s o
          { s' with frames := s'.frames.pop, held := s.held } := by
  obtain ⟨m, d, hanswer, rfl, hclauses, hd⟩ := h
  let c : Call := ⟨w, args, none, span⟩
  let ctx : Context := ⟨s.scopes.fresh, w, m.owner, some (m.frame args none)⟩
  let label := (s.entering params args).methodLabel m
  refine ⟨ctx, d.body.statements, label, rfl, rfl, rfl, hd.statements, fun o s' ho hbody ↦ ?_⟩
  have hframed : (Task.framed ⟨label, span⟩ (.body d.body ctx)).Gives
      { s.entering params args with held := ⟨[], some ctx⟩ :: s.held } o
      { s' with frames := s'.frames.pop } := by
    refine .framed hroom (.of_work (.answering ?_))
    rw [Eval.body, if_neg (by rw [hd.unprotected]; exact Bool.false_ne_true)]
    exact hbody
  have hclause : (runClause d ctx label span).Gives
      (s.entering params args) o { s' with frames := s'.frames.pop, held := s.held } := by
    refine .bind (.attempt (.keeping _ (.perform hframed))) ?_
    cases ho <;> exact .ofOutcome _ _
  have hinvoke : (invoke m c).Gives s o { s' with frames := s'.frames.pop, held := s.held } := by
    rw [invoke, hclauses, runClauses]
    exact .bind (hd.binds (c := c) hlen) (.bind (.read _ _) hclause)
  refine .of_work (.answering (.bind (.read _ s) ?_))
  rw [hanswer]
  exact hinvoke

/-- The code of a method is about to run, with variables for its parameters. -/
structure State.Inside (s s' : State) (scope : ScopeId) (params : List String) (args : List Value) :
    Prop where
  config : s'.config = s.config
  types : s'.types = s.types
  objects : s'.objects = s.objects
  frames : s'.frames.size = s.frames.size + 1
  steps : s'.steps = s.steps
  get? : ∀ {x v}, (params.zip args).reverse.lookup x = some v → s'.scopes.get? scope x = some v

theorem State.Inside.attr {scope : ScopeId} (h : s.Inside s' scope params args) (id : ObjectId)
    (x : String) : s'.attr (.object id) x = s.attr (.object id) x := by
  simp only [State.attr, State.object, h.objects]

theorem State.Inside.allows {scope : ScopeId} {n : Nat} (h : s.Inside s' scope params args)
    (hs : s.Allows n) : s'.Allows n :=
  hs.later h.config (Nat.add_le_add_right (Nat.le_of_eq h.steps) n)

theorem State.Understands.inside {w : Value} {name : String} {owner : TypeId}
    (h : s.Understands w name owner params code) (args : List Value)
    (hlen : args.length = params.length) (hroom : s.frames.size < s.config.maxCallDepth)
    (span : Span) :
    ∃ ctx es s', s.Inside s' ctx.scope params args ∧ ctx.self = w ∧ ctx.module = owner ∧
      Code.AllSpanned code es ∧ ∀ o s₁, Outcome.EndsCall o →
        (Eval.statements ctx es).Gives s' o s₁ →
        (Task.send name ⟨w, args, none, span⟩).Gives s o
          { s₁ with frames := s₁.frames.pop, held := s.held } := by
  obtain ⟨ctx, es, label, hscope, hself, hmodule, hes, hcall⟩ := h.call args hlen hroom span
  refine ⟨ctx, es, { s.entering params args with
    held := ⟨[], some ctx⟩ :: s.held, frames := s.frames.push ⟨label, span⟩ },
    ⟨rfl, rfl, rfl, Array.size_push _, rfl, fun hx ↦ ?_⟩, hself, hmodule, hes, hcall⟩
  exact hscope ▸ State.entering_get? hx

/-- Instances of `t` find the method at `owner`, and it is this code. -/
def Types.Defines (ts : Types) (t : TypeId) (name : String) (owner : TypeId)
    (params : List String) (code : List Code) : Prop :=
  ∃ d, ts.firstWith name (ts.ancestors t) = some (owner, [.user d]) ∧ d.Consists params code

def Types.defines (ts : Types) (t : TypeId) (name : String) (owner : TypeId)
    (params : List String) (code : List Code) : Bool :=
  match ts.firstWith name (ts.ancestors t) with
  | some (u, [.user d]) => u == owner && d.consists params code
  | _ => false

theorem Types.Defines.of_checked {ts : Types} {t owner : TypeId} {name : String}
    (h : ts.defines t name owner params code = true) : ts.Defines t name owner params code := by
  unfold Types.defines at h
  split at h
  · rename_i d hfound
    obtain ⟨howner, hd⟩ := Bool.and_eq_true_iff.mp h
    exact ⟨d, beq_iff_eq.mp howner ▸ hfound, .of_checked hd⟩
  · cases h

theorem Types.Defines.understands {t owner : TypeId} {name : String} {id : ObjectId}
    (h : s.types.Defines t name owner params code) (ht : s.typeOf (.object id) = t) :
    s.Understands (.object id) name owner params code := by
  obtain ⟨d, hfound, hd⟩ := h
  exact ⟨_, d, State.answer_of_found ht rfl hfound, rfl, rfl, hd⟩

def Routine.newEntry : Entry :=
  withBlock (andMore (fixed .type .type "new" [] (.type .new))) .optional

/-- Instances of the type are made as from the start. -/
structure Types.Instantiable (ts : Types) (t : TypeId) : Prop where
  sort : ts.sort t = .type
  primitive : CoreType.isPrimitive t = false
  own : (ts.classSide? t "new").isNone = true
  new : ts.offers .type Routine.newEntry = true

def Types.instantiable (ts : Types) (t : TypeId) : Bool :=
  ts.sort t == .type && !CoreType.isPrimitive t && (ts.classSide? t "new").isNone &&
    ts.offers .type Routine.newEntry

theorem Types.Instantiable.of_checked {ts : Types} {t : TypeId} (h : ts.instantiable t = true) :
    ts.Instantiable t := by
  simp only [Types.instantiable, Bool.and_eq_true, beq_iff_eq, Bool.not_eq_true'] at h
  obtain ⟨⟨⟨hsort, hprimitive⟩, hown⟩, hnew⟩ := h
  exact ⟨hsort, hprimitive, hown, hnew⟩

theorem Types.Instantiable.calls {t : TypeId} (h : s.types.Instantiable t) (args : List Value)
    (hroom : s.frames.size < s.config.maxCallDepth) (span : Span) :
    (Task.send "new" ⟨.type t, args, none, span⟩).CallsFor
      (TypeRoutine.instantiate t ⟨.type t, args, none, span⟩) s := by
  have hown : s.ownMethod? (.type t) "new" = none := by
    change s.classMethod? t "new" = none
    rw [State.classMethod?, Option.isNone_iff_eq_none.mp h.own, Option.map_none]
  have htype : s.typeOf (.type t) = CoreType.type.id := by simp only [State.typeOf, h.sort]
  have hnew := h.new
  unfold Types.offers at hnew
  split at hnew
  · rename_i owner n hfound
    rw [Bool.and_eq_true, beq_iff_eq, beq_iff_eq] at hnew
    obtain ⟨m, hanswer, hclauses⟩ : ∃ m, s.answer (.type t) "new" (args.isEmpty && true) =
        .method m ∧ m.clauses = [.native n] :=
      State.answer_of_sole hown rfl
        (by rw [Types.soleNative?, htype, show s.types.firstWith "new" _ = _ from hfound])
    refine ⟨⟨[.type m.owner], none⟩ :: s.held, ⟨n.label, span⟩, fun o s' hmade ↦
      .send (c := ⟨.type t, args, none, span⟩) hanswer hclauses ?_ hroom ?_⟩
    · rw [hnew.1]
      exact Signature.mismatch_new s.types.sort h.sort args false
    · rw [hnew.2]
      exact hmade
  · cases hnew

theorem Types.Instantiable.gives {t : TypeId} {fields : List (String × String)} {vs : List Value}
    (h : s.types.Instantiable t)
    (hinit : s.types.Defines t "initialize" t params
      (fields.map fun f ↦ .set f.1 (.operand (.name f.2))))
    (args : List Value) (hlen : args.length = params.length)
    (hvs : List.Forall₂ (fun f v ↦ (params.zip args).reverse.lookup f.2 = some v) fields vs)
    (hroom : s.frames.size + 2 ≤ s.config.maxCallDepth) (hs : s.Allows (2 * fields.length))
    (span : Span) : ∃ s',
    (Task.send "new" ⟨.type t, args, none, span⟩).Gives s (.ok (.object ⟨s.objects.size⟩)) s' ∧
      s'.types = s.types ∧ s'.typeOf (.object ⟨s.objects.size⟩) = t ∧
      ∀ x, s'.attr (.object ⟨s.objects.size⟩) x =
        (((fields.map (·.1)).zip vs).reverse.lookup x).getD .nil := by
  obtain ⟨held, frame, hcall⟩ := h.calls args (by omega) span
  let id : ObjectId := ⟨s.objects.size⟩
  let made : State := { (s.newObject t .empty).2 with
    held := ⟨[.object id, .type t], none⟩ :: held, frames := s.frames.push frame }
  have hobject : made.object id = ⟨t, .empty⟩ := by
    simp [made, id, State.object, State.newObject]
  have htype : made.typeOf (.object id) = t := congrArg Object.type hobject
  have hinit : made.types.Defines t "initialize" t params _ := hinit
  -- The new instance is sent `initialize`, whose code runs where the parameters are variables.
  obtain ⟨ctx, es, label, hscope, hself, -, hes, hbody⟩ :=
    (hinit.understands htype).call args hlen (by simp only [made, Array.size_push]; exact hroom)
      span
  obtain ⟨s', hfills, -, v, hgives⟩ := Gives.fills (s := { made.entering params args with
      held := ⟨[], some ctx⟩ :: made.held, frames := made.frames.push ⟨label, span⟩ }) hs hself
    (by simp [made, id, State.entering, State.newObject]) hes
    (hvs.imp fun f v hv ↦ hscope ▸ State.entering_get? hv)
  have hmade : (TypeRoutine.instantiate t ⟨.type t, args, none, span⟩).Gives
      { s with held, frames := s.frames.push frame } (.ok (.object id))
      { s' with frames := s'.frames.pop, held } := by
    rw [TypeRoutine.instantiate, if_neg (by rw [h.primitive]; exact Bool.false_ne_true)]
    exact .bind (.change (·.newObject t .empty) _)
      (.bind (.keeping _ (.perform (hbody _ _ (.value v) hgives))) (.pure _ _))
  have htypes : s'.types = s.types := by
    rw [hfills.same]
    rfl
  refine ⟨_, hcall _ _ hmade, htypes, ?_, fun x ↦ ?_⟩
  · exact hfills.type.trans htype
  · have hempty : made.attr (.object id) x = .nil := by
      rw [State.attr, hobject]
      rfl
    exact (hfills.attr x).trans (congrArg _ hempty)

theorem State.Inside.makes {inner : State} {t module : TypeId} {x : String} {e : Expr}
    {inits : List String} {fields : List (String × String)} {ws vs : List Value} {n : Nat}
    (h : s.Inside inner ctx.scope params args) (ls : List Operand)
    (he : (Code.ask (.operand (.constant x)) "new" (ls.map .operand)).Spanned e)
    (hmodule : ctx.module = module) (hsees : s.types.Sees module x t) (ht : s.types.Instantiable t)
    (hinit : s.types.Defines t "initialize" t inits
      (fields.map fun f ↦ .set f.1 (.operand (.name f.2))))
    (hls : List.Forall₂ (fun l w ↦ l.value? { inner with steps := n } ctx = some w) ls ws)
    (hlen : ws.length = inits.length)
    (hvs : List.Forall₂ (fun f v ↦ (inits.zip ws).reverse.lookup f.2 = some v) fields vs)
    (hroom : s.frames.size + 3 ≤ s.config.maxCallDepth)
    (hallows : State.Allows { inner with steps := n } (ls.length + 2 + 2 * fields.length)) : ∃ s',
    (Task.eval e ctx).Gives { inner with steps := n } (.ok (.object ⟨s.objects.size⟩)) s' ∧
      s'.types = s.types ∧ s'.typeOf (.object ⟨s.objects.size⟩) = t ∧
      ∀ y, s'.attr (.object ⟨s.objects.size⟩) y =
        (((fields.map (·.1)).zip vs).reverse.lookup y).getD .nil := by
  obtain ⟨r, m, es, he, hm, hr, hes⟩ := he
  obtain ⟨s', hgives, htypes, htype, hattr⟩ := Types.Instantiable.gives
    (s := { inner with steps := n + 1 + 1 + ls.length }) (t := t) (h.types ▸ ht) (h.types ▸ hinit)
    ws hlen hvs (by rw [h.frames, h.config]; exact hroom) (hallows.later rfl (by dsimp only; omega))
    e.span
  rw [← h.objects]
  refine ⟨s', ?_, htypes.trans h.types, htype, hattr⟩
  exact .ask_operands ls (hallows.later rfl (by dsimp only; omega)) he hr hes
    (hsees.value? hmodule h.types) hls (hm ▸ hgives)

end

end Quill

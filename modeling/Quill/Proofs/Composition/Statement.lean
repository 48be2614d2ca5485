import Quill.Proofs.Composition.Simple

namespace Quill.Eval.Composed

variable {k : Kind} {α : Type}

theorem constant? (ctx : Context) (name : String) : Composed k (constant? ctx name) :=
  .bind (.change (.letGo name ctx.module)) fun _ ↦ .read (State.findConstant_limitFree _ name)

theorem constant (ctx : Context) (name : String) (span : Span) :
    Composed k (constant ctx name span) := by
  refine .bind (.constant? ctx name) fun v ↦ ?_
  cases v with
  | some v => exact .pure v
  | none => exact .fault _ span

theorem followPath (v : Value) (walked : String) (path : List Ident) :
    Composed k (followPath v walked path) := by
  induction path generalizing v walked with
  | nil => exact .pure v
  | cons segment rest ih =>
    refine .bind (.read fun _ _ ↦ rfl) fun found ↦ ?_
    cases found with
    | some v => exact ih v _
    | none => exact .fault _ _

theorem constantAt (path : TypePath) (ctx : Context) : Composed k (constantAt path ctx) := by
  unfold Eval.constantAt
  cases path.segments with
  | nil => exact .pure _
  | cons first rest => exact .bind (.constant ctx _ _) fun v ↦ .followPath v _ rest

theorem typeAt (path : TypePath) (ctx : Context) : Composed k (typeAt path ctx) := by
  refine .bind (.constantAt path ctx) fun v ↦ ?_
  cases v with
  | type t => exact .pure t
  | _ => exact .fault _ _

theorem fitsConstant (c v : Value) : Composed k (fitsConstant c v) := by
  unfold Eval.fitsConstant
  cases c with
  | type t => exact .read (State.isInstance_limitFree v t)
  | _ => exact .valuesEqual _ v

theorem fitsPath (path : TypePath) (v : Value) (ctx : Context) :
    Composed k (fitsPath path v ctx) :=
  .bind (.constantAt path ctx) fun c ↦ .fitsConstant c v

mutual

theorem matchPattern (ctx : Context) (acc : Matched) (p : Pattern) (v : Value) :
    Composed k (matchPattern ctx acc p v) := by
  cases p with
  | wildcard span => unfold Eval.matchPattern; exact .pure _
  | bind name path =>
    cases path with
    | none => unfold Eval.matchPattern; exact .pure _
    | some path =>
      unfold Eval.matchPattern
      refine .bind (.holding _ (.typeAt path ctx)) fun t ↦
        .bind (.read (State.isInstance_limitFree v t)) fun fits ↦ ?_
      split <;> exact .pure _
  | const path =>
    unfold Eval.matchPattern
    refine .bind (.holding _ (.fitsPath path v ctx)) fun fits ↦ ?_
    split <;> exact .pure _
  | literal value span =>
    unfold Eval.matchPattern
    refine .bind (.holding _ (.valuesEqual _ v)) fun fits ↦ ?_
    split <;> exact .pure _
  | list items span =>
    cases v with
    | list l =>
      unfold Eval.matchPattern
      refine .bind (.read fun _ _ ↦ rfl) fun found ↦ ?_
      split
      · exact .holding _ (matchAll ctx acc items found)
      · exact .pure _
    | _ => unfold Eval.matchPattern; exact .pure _
  | splat name span => cases name <;> (unfold Eval.matchPattern; exact .pure _)

theorem matchAll (ctx : Context) (acc : Matched) (ps : List Pattern) (vs : List Value) :
    Composed k (matchAll ctx acc ps vs) := by
  cases ps with
  | nil => unfold Eval.matchAll; exact .pure _
  | cons p ps =>
    cases p with
    | splat name span =>
      unfold Eval.matchAll
      cases name with
      | some name => exact .bind (.newList _) fun v ↦ matchAll ctx _ ps _
      | none => exact matchAll ctx acc ps _
    | _ =>
      cases vs with
      | nil => unfold Eval.matchAll; exact .pure _
      | cons v vs =>
        unfold Eval.matchAll
        refine .bind (matchPattern ctx acc _ v) fun found ↦ ?_
        cases found with
        | some acc => exact matchAll ctx acc ps vs
        | none => exact .pure _

end

theorem matchSequence (ctx : Context) (ps : List Pattern) (vs : List Value) :
    Composed k (matchSequence ctx ps vs) := by
  unfold Eval.matchSequence
  split
  · exact .matchAll ctx [] ps vs
  · exact .pure _

theorem defineAll (scope : ScopeId) (m : Matched) : Composed k (defineAll scope m) := by
  induction m with
  | nil => exact .pure ()
  | cons b m ih => exact .bind ih fun _ ↦ .define scope b.1 b.2

theorem assignAll (scope : ScopeId) (m : Matched) : Composed k (assignAll scope m) := by
  induction m with
  | nil => exact .pure ()
  | cons b m ih => exact .bind ih fun _ ↦ .assign scope b.1 b.2

theorem raiseNoMatch (p : Pattern) (v : Value) (span : Span) :
    Composed k (raiseNoMatch p v span : Eval α) :=
  .bind (.inspectAnyway v) fun _ ↦ .fault _ span

theorem statementsAfter (ctx : Context) (last : Value) (es : List Expr) :
    Composed .code (statementsAfter ctx last es) := by
  induction es generalizing last with
  | nil => exact .pure last
  | cons e rest ih =>
    cases rest with
    | nil => exact .holding _ (.eval e ctx)
    | cons => exact .bind (.holding _ (.eval e ctx)) fun v ↦ ih v

theorem statements (ctx : Context) (es : List Expr) : Composed .code (statements ctx es) := by
  match es with
  | [] => exact .pure _
  | [e] => exact .eval e ctx
  | e :: e' :: rest => exact .bind (.eval e ctx) fun v ↦ .statementsAfter ctx v (e' :: rest)

theorem valuesOnto (ctx : Context) (done : List Value) (es : List Expr) :
    Composed .code (valuesOnto ctx done es) := by
  induction es generalizing done with
  | nil => exact .pure _
  | cons e rest ih => exact .bind (.holding _ (.eval e ctx)) fun v ↦ ih (v :: done)

theorem values (es : List Expr) (ctx : Context) : Composed .code (values es ctx) :=
  .valuesOnto ctx [] es

theorem optional (e : Option Expr) (ctx : Context) : Composed .code (optional e ctx) := by
  cases e with
  | some e => exact .eval e ctx
  | none => exact .pure _

theorem guardHolds (guard : Option Expr) (ctx : Context) :
    Composed .code (guardHolds guard ctx) := by
  cases guard with
  | some e => exact .bind (.eval e ctx) fun v ↦ .pure _
  | none => exact .pure true

theorem inNewScope (ctx : Context) : Composed k (inNewScope ctx) :=
  .bind (.newScope ctx.scope) fun _ ↦ .pure _

theorem rescueMatch (p : Option Pattern) (ctx : Context) (v : Value) :
    Composed k (rescueMatch p ctx v) := by
  cases p with
  | some p => exact .matchPattern ctx [] p v
  | none => exact .pure _

theorem bindsRescued (clause : Rescue) (v : Value) (ctx : Context) :
    Composed .code (bindsRescued clause v ctx) := by
  refine .bind (.rescueMatch clause.pattern ctx v) fun found ↦ ?_
  cases found with
  | none => exact .pure false
  | some found => exact .bind (.defineAll ctx.scope found) fun _ ↦ .guardHolds clause.guard ctx

theorem rescue (ctx : Context) (r : Raised) (clauses : List Rescue) :
    Composed .code (rescue ctx r clauses) := by
  induction clauses with
  | nil => exact .unwind rfl fun _ ↦ rfl
  | cons clause rest ih =>
    refine .bind (.inNewScope ctx) fun inner ↦
      .bind (.within inner _ (.bindsRescued clause r.value inner)) fun meant ↦ ?_
    split
    · exact .within inner _ (.perform rfl)
    · exact ih

theorem afterStatements_ok (b : Body) (ctx : Context) (v : Value) :
    Composed .code (afterStatements b ctx (.ok v)) := by
  unfold Eval.afterStatements
  cases b.elseBody with
  | some es => exact .holding _ (.statements ctx es)
  | none => exact .pure v

theorem afterStatements_error (b : Body) (ctx : Context) (u : Unwind) (h : u.isHalt = false) :
    Composed .code (afterStatements b ctx (.error u)) := by
  cases u with
  | raise r => exact .rescue ctx r b.rescues
  | halt l => cases h
  | _ => exact .unwind rfl (absurd rfl)

theorem ensuring (ensure : Option (List Expr)) (ctx : Context) (o : Outcome Value)
    (h : ∀ l, o ≠ .error (.halt l)) : Composed .code (ensuring ensure ctx o) := by
  cases ensure with
  | none => exact .ofOutcome h (absurd rfl)
  | some es =>
    have hs : Composed .code (do
        let _ ← Eval.holding (outcomeValues o) (Eval.statements ctx es)
        Eval.ofOutcome o) :=
      .bind (.holding _ (.statements ctx es)) fun _ ↦ .ofOutcome h (absurd rfl)
    cases o with
    | ok v => exact hs
    | error u =>
      cases u with
      | halt l => exact absurd rfl (h l)
      | _ => exact hs

theorem ensuring_halt (ensure : Option (List Expr)) (ctx : Context) (l : Limit) :
    Eval.ensuring ensure ctx (.error (.halt l)) = Eval.unwind (.halt l) := by
  cases ensure <;> rfl

theorem body (b : Body) (ctx : Context) : Composed .code (body b ctx) := by
  unfold Eval.body
  split
  · refine .caught (.inl rfl) (.statements ctx _) (fun v ↦ ?_) (fun u hu ↦ ?_) fun l ↦ ?_
    · exact .caught (.inl rfl) (.afterStatements_ok b ctx v) (fun w ↦ .ensuring _ ctx (.ok w) nofun)
        (fun u hu ↦ .ensuring _ ctx (.error u) (by rintro l ⟨⟩; cases hu))
        fun l ↦ ensuring_halt _ ctx l
    · exact .caught (.inl rfl) (.afterStatements_error b ctx u hu)
        (fun w ↦ .ensuring _ ctx (.ok w) nofun)
        (fun u hu ↦ .ensuring _ ctx (.error u) (by rintro l ⟨⟩; cases hu))
        fun l ↦ ensuring_halt _ ctx l
    · exact ensuring_halt b.ensure ctx l
  · exact .statements ctx b.statements

theorem setAttr (target : Value) (name : String) (v : Value) (span : Span) :
    Composed k (setAttr target name v span) := by
  unfold Eval.setAttr
  cases target with
  | object o => exact .change (.setObjectAttr o name v)
  | type t => exact .change (.setTypeAttr t name v)
  | _ => exact .bind (.read fun _ _ ↦ rfl) fun _ ↦ .fault _ span

theorem place (t : Target) (ctx : Context) : Composed .code (place t ctx) := by
  cases t with
  | index receiver args =>
    exact .bind (.eval receiver ctx) fun v ↦ .bind (.holding _ (.values args ctx)) fun _ ↦ .pure _
  | member receiver name => exact .bind (.eval receiver ctx) fun v ↦ .pure _
  | _ => exact .pure _

theorem readPlace (p : Place) (ctx : Context) (span : Span) :
    Composed k (readPlace p ctx span) := by
  cases p with
  | variable_ name => exact .bind (.read fun _ _ ↦ rfl) fun v ↦ .pure _
  | attr name => exact .read (State.attr_limitFree ctx.self name)
  | constant name => exact .bind (.constant? ctx name) fun v ↦ .pure _
  | index receiver args => exact .send _ _ _ _ _
  | member receiver name => exact .send _ _ _ _ _

theorem writePlace (p : Place) (v : Value) (ctx : Context) (span : Span) :
    Composed k (writePlace p v ctx span) := by
  cases p with
  | variable_ name => exact .assign ctx.scope name v
  | attr name => exact .setAttr ctx.self name v span
  | constant name => exact .change (.setConstant ctx.module name v)
  | index receiver args => exact .bind (.send _ _ _ _ _) fun _ ↦ .pure ()
  | member receiver name => exact .bind (.send _ _ _ _ _) fun _ ↦ .pure ()

theorem assignment (t : Target) (value : Expr) (ctx : Context) (span : Span) :
    Composed .code (assignment t value ctx span) :=
  .bind (.place t ctx) fun p ↦ .bind (.holding _ (.eval value ctx)) fun v ↦
    .bind (.holding _ (.writePlace p v ctx span)) fun _ ↦ .pure v

theorem compoundAssignment (op : Compound) (t : Target) (value : Expr) (ctx : Context)
    (span : Span) : Composed .code (compoundAssignment op t value ctx span) := by
  refine .bind (.place t ctx) fun p ↦ .bind (.holding _ (.readPlace p ctx span)) fun old ↦ ?_
  cases op with
  | arith op =>
    exact .bind (.holding _ (.eval value ctx)) fun right ↦
      .bind (.holding _ (.send _ _ _ _ _)) fun new ↦
        .bind (.holding _ (.writePlace p new ctx span)) fun _ ↦ .pure new
  | logic op =>
    dsimp only
    split
    · exact .pure old
    · exact .bind (.holding _ (.eval value ctx)) fun new ↦
        .bind (.holding _ (.writePlace p new ctx span)) fun _ ↦ .pure new

theorem superclass (e : Expr) (ctx : Context) : Composed .code (superclass e ctx) := by
  refine .bind (.eval e ctx) fun v ↦ .bind (.read fun _ _ ↦ rfl) fun t ↦ ?_
  cases t with
  | some t => exact .pure t
  | none => exact .bind (.inspectAnyway v) fun _ ↦ .fault _ _

theorem superclass? (e : Option Expr) (ctx : Context) : Composed .code (superclass? e ctx) := by
  cases e with
  | some e => exact .bind (.superclass e ctx) fun t ↦ .pure _
  | none => exact .pure none

theorem openAgain (d : TypeDef) (superclass : Option TypeId) (v : Value) :
    Composed k (openAgain d superclass v) := by
  cases v with
  | type t =>
    refine .bind (.read fun _ _ ↦ rfl) fun (sort, current) ↦ ?_
    dsimp only
    split
    · exact .fault _ _
    · split
      · exact .bind (.read fun _ _ ↦ rfl) fun _ ↦ .fault _ _
      · exact .pure t
  | _ => exact .fault _ _

/-- Opens a type, or makes one whose superclass is a type that is there. -/
def openDerived (d : TypeDef) (superclass : Option TypeId) (container : TypeId) :
    Eval TypeId := do
  match ← Eval.read (·.types.constant? container d.name.name) with
  | none => modifyGet fun s ↦
    let (t, types) := s.types.derive container d.sort d.name.name superclass
    (t, { s with types })
  | some v => Eval.openAgain d superclass v

theorem openDerived_bind {d : TypeDef} {superclass : Option TypeId} {s : State}
    (h : superclass.filter s.types.isType = superclass) (container : TypeId)
    (f : TypeId → Eval α) :
    (Eval.openType d superclass container >>= f) s =
      (openDerived d superclass container >>= f) s := by
  suffices hopen : Eval.openType d superclass container s = openDerived d superclass container s by
    rw [Eval.bind_apply, Eval.bind_apply, hopen]
  unfold Eval.openType openDerived
  rw [Eval.read_bind, Eval.read_bind]
  cases s.types.constant? container d.name.name with
  | some v => rfl
  | none =>
    have hderive : s.types.derive container d.sort d.name.name superclass =
        s.types.declare container d.sort d.name.name superclass := by
      rw [Types.derive, h]
    exact congrArg (fun made : TypeId × Types ↦ Step.done (.ok made.1) { s with types := made.2 })
      hderive.symm

theorem superclass_bind {f g : TypeId → Eval α} (e : Expr) (ctx : Context)
    (h : ∀ s t, s.types.isType t = true → f t s = g t s) :
    Eval.superclass e ctx >>= f = Eval.superclass e ctx >>= g := by
  unfold Eval.superclass
  rw [Eval.bind_bind, Eval.bind_bind]
  refine congrArg (Eval.eval e ctx >>= ·) (funext fun v ↦ ?_)
  rw [Eval.bind_bind, Eval.bind_bind]
  funext s
  rw [Eval.read_bind, Eval.read_bind]
  cases ht : v.type?.filter s.types.isType with
  | some t => exact h s t (Option.filter_eq_some_iff.mp ht).2
  | none =>
    rw [Eval.bind_bind, Eval.bind_bind]
    rfl

theorem defineType_eq (d : TypeDef) (ctx : Context) : Eval.defineType d ctx = (do
    let superclass ← Eval.superclass? d.superclass ctx
    let t ← openDerived d superclass ctx.module
    modify fun s ↦ { s with types := s.types.document t d.doc }
    let scope ← Eval.newScope Scopes.root
    let inner : Context := ⟨scope, .type t, t, none⟩
    let _ ← Eval.within inner [] (Eval.statements inner d.body)
    return .type t) := by
  unfold Eval.defineType
  cases d.superclass with
  | none => exact funext fun s ↦ openDerived_bind rfl ctx.module _
  | some e =>
    rw [Eval.superclass?, Eval.bind_bind, Eval.bind_bind]
    refine superclass_bind e ctx fun s t ht ↦ ?_
    exact openDerived_bind (Option.filter_some_pos ht) ctx.module _

theorem defineType (d : TypeDef) (ctx : Context) : Composed .code (defineType d ctx) := by
  have opened (superclass : Option TypeId) :
      Composed .code (openDerived d superclass ctx.module) := by
    refine .bind (.read fun _ _ ↦ rfl) fun found ↦ ?_
    cases found with
    | none => exact .change (.derive ctx.module d.sort d.name.name superclass)
    | some v => exact .openAgain d superclass v
  rw [defineType_eq]
  exact .bind (.superclass? d.superclass ctx) fun superclass ↦ .bind (opened superclass) fun t ↦
    .bind (.change (.document t d.doc)) fun _ ↦ .bind (.newScope _) fun _ ↦
      .bind (.within _ _ (.statements _ d.body)) fun _ ↦ .pure _

theorem defineMethod (d : MethodDef) (ctx : Context) : Composed k (defineMethod d ctx) := by
  unfold Eval.defineMethod
  dsimp only
  split
  · cases ctx.self with
    | type t =>
      exact .bind (.change (.addClassMethod t d.name.name d)) fun _ ↦ .pure _
    | _ => exact .bind (.fault _ _) fun _ ↦ .pure _
  · exact .bind (.change (.addMethod ctx.module d.name.name d)) fun _ ↦ .pure _

theorem includeInto_eq (e : Expr) (ctx : Context) : Eval.includeInto e ctx = (do
    let v ← Eval.eval e ctx
    match ← Eval.read fun s ↦ v.type?.filter (s.types.sort · == .module) with
    | some m =>
      modify fun s ↦ { s with types := s.types.mixIn ctx.module m }
      return v
    | none => Eval.fault (.badInclude (← Eval.inspectAnyway v)) e.span) := by
  refine congrArg (Eval.eval e ctx >>= ·) (funext fun v ↦ funext fun s ↦ ?_)
  rw [Eval.read_bind, Eval.read_bind]
  cases hm : v.type?.filter (s.types.sort · == .module) with
  | none => rfl
  | some m =>
    have hsort : s.types.sort m = .module := beq_iff_eq.mp (Option.filter_eq_some_iff.mp hm).2
    have hmixed : s.types.mixIn ctx.module m = s.types.includeModule ctx.module m := if_pos hsort
    exact congrArg (fun types ↦ Step.done (.ok v) { s with types }) hmixed.symm

theorem includeInto (e : Expr) (ctx : Context) : Composed .code (includeInto e ctx) := by
  rw [includeInto_eq]
  refine .bind (.eval e ctx) fun v ↦ .bind (.read fun _ _ ↦ rfl) fun t ↦ ?_
  cases t with
  | some t => exact .bind (.change (.includeModule ctx.module t)) fun _ ↦ .pure v
  | none => exact .bind (.inspectAnyway v) fun _ ↦ .fault _ _

end Quill.Eval.Composed

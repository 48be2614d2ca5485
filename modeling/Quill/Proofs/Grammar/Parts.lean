import Quill.Proofs.Grammar.Node

/-!
# What the grammar makes of its tokens

Every span in a tree or an error is one of those of the tokens, or the merge of two that the grammar
made before. So what holds of the spans of all tokens, and is kept by merging, holds of the span of
a failure. In the same way all that literals, patterns and the heads of definitions say stands in
tokens, and every node of the tree has the shape that the grammar checks when it reads one.
-/

namespace Quill

/-! ## Trees of certain tokens -/

structure TypePath.Spelled (K : Token.Kind → Prop) (p : TypePath) : Prop where
  ne_nil : p.segments ≠ []
  constants : ∀ i ∈ p.segments, K (.constant i.name)

/-- The value of a token of `K`, or the negative of that. -/
def Literal.Spelled (K : Token.Kind → Prop) (value : Literal) : Prop :=
  ∃ k, K k ∧ (Grammar.literalOf k = some value ∨ Grammar.negatedLiteral k = some value)

namespace Pattern

/-- All names and values in the pattern are those of tokens of `K`. The name that stands for no
name is not bound, and a list has one splat at most. -/
def Spelled (K : Token.Kind → Prop) : Pattern → Prop
  | wildcard _ | splat none _ => True
  | bind name none | splat (some name) _ => K (.identifier name.name) ∧ name.name ≠ "_"
  | bind name (some path) => K (.identifier name.name) ∧ path.Spelled K
  | const path => path.Spelled K
  | literal value _ => value.Spelled K
  | list items _ => all K items ∧ items.countP (·.isSplat) ≤ 1
where
  /-- Those in all items are. -/
  all (K : Token.Kind → Prop) : List Pattern → Prop
    | [] => True
    | p :: ps => Spelled K p ∧ all K ps

theorem Spelled.all_iff {K : Token.Kind → Prop} {ps : List Pattern} :
    Spelled.all K ps ↔ ∀ p ∈ ps, p.Spelled K := by
  induction ps with
  | nil => simp [Spelled.all]
  | cons p ps ih => rw [Spelled.all, ih, List.forall_mem_cons]

structure Items (K : Token.Kind → Prop) (ps : List Pattern) : Prop where
  spelled : ∀ p ∈ ps, p.Spelled K
  splats : ps.countP (·.isSplat) ≤ 1

theorem spelled_list {K : Token.Kind → Prop} {ps : List Pattern} {s : Span} :
    (list ps s).Spelled K ↔ Items K ps :=
  ⟨fun h ↦ ⟨Spelled.all_iff.mp h.1, h.2⟩, fun h ↦ ⟨Spelled.all_iff.mpr h.spelled, h.splats⟩⟩

namespace Items

variable {K : Token.Kind → Prop} {ps : List Pattern} {p : Pattern}

theorem nil : Items K [] := ⟨nofun, Nat.zero_le 1⟩

theorem cons (h : Items K ps) (hp : p.Spelled K) (hs : p.isSplat = false) : Items K (p :: ps) :=
  ⟨List.forall_mem_cons.mpr ⟨hp, h.spelled⟩, by simpa [hs] using h.splats⟩

theorem cons_splat (h : Items K ps) (hp : p.Spelled K) (hs : ps.any (·.isSplat) = false) :
    Items K (p :: ps) := by
  have hnone : ps.countP (·.isSplat) = 0 := by simpa [List.countP_eq_zero] using hs
  refine ⟨List.forall_mem_cons.mpr ⟨hp, h.spelled⟩, ?_⟩
  rw [List.countP_cons, hnone]
  split <;> decide

theorem perm {qs : List Pattern} (h : Items K ps) (hp : ps.Perm qs) : Items K qs :=
  ⟨fun q hq ↦ h.spelled q (hp.mem_iff.mpr hq), hp.countP_eq _ ▸ h.splats⟩

end Items

end Pattern

/-- All names and values in the parameters are those of tokens of `K`. -/
structure Params.Spelled (K : Token.Kind → Prop) (p : Params) : Prop where
  items : Pattern.Items K p.items
  block : ∀ b ∈ p.block, K (.identifier b.name)

theorem Params.Spelled.none {K : Token.Kind → Prop} : Params.none.Spelled K := ⟨.nil, nofun⟩

/-- A name that a method can be called by. -/
inductive Ident.Called (K : Token.Kind → Prop) (i : Ident) : Prop
  | identifier : K (.identifier i.name) → i.Called K
  | constant : K (.constant i.name) → i.Called K
  | word {w : Keyword} : i.name = w.text → i.Called K
  | operator {m : Mark} : Grammar.namesMethod m = true → i.name = m.text → i.Called K
  | index : i.name = "[]" → i.Called K

/-- What is assigned to through a method has a name that an assignment can be defined for. -/
def Target.Sound (K : Token.Kind → Prop) : Target → Prop
  | .member _ name => Grammar.hasSetter name.name = true ∧ name.Called K
  | _ => True

def Expr.Kind.Sound (K : Token.Kind → Prop) : Expr.Kind → Prop
  | .literal value => value.Spelled K
  | .call _ m _ _ => m.Called K
  | .fits _ p | .destructure p _ => p.isSplat = false
  | .assign t _ | .compound _ t _ => t.Sound K
  | _ => True

/-- What the grammar grants of the node itself: where splats are, which names are bound, and that
names and values are those of tokens of `K`. -/
def Node.Sound (K : Token.Kind → Prop) : Node → Prop
  | expr e => e.kind.Sound K
  | forEach _ p _ _ => p.isSplat = false
  | select _ _ arms _ => arms ≠ []
  | block b => b.params.Spelled K
  | arm a => a.pattern.isSplat = false
  | rescue r => ∀ p ∈ r.pattern, p.isSplat = false
  | method d => d.params.Spelled K
  | type d => K (.constant d.name.name)
  | pattern p => p.Spelled K
  | path p => p.Spelled K
  | _ => True

section

variable {K : Token.Kind → Prop}

theorem Pattern.Spelled.inside {p : Pattern} (h : p.Spelled K) :
    (Node.pattern p).All (Node.Sound K) := by
  -- Inside a pattern there are patterns, paths and names only.
  let Small (n : Node) : Prop := n.Sound K ∧ match n with
    | .pattern _ | .path _ | .ident _ => True
    | _ => False
  refine Node.All.of_closed (P := Small) ⟨h, trivial⟩ (fun n m hn hm ↦ ?_) fun m hm ↦ hm.1
  cases n with
  | pattern p =>
    have hp : p.Spelled K := hn.1
    cases p with
    | wildcard | literal => cases hm
    | bind i path =>
      cases path with
      | none =>
        obtain rfl := List.mem_singleton.mp hm
        exact ⟨trivial, trivial⟩
      | some path =>
        obtain rfl | hm := List.mem_cons.mp hm
        · exact ⟨trivial, trivial⟩
        · obtain rfl := List.mem_singleton.mp hm
          exact ⟨hp.2, trivial⟩
    | const path =>
      obtain rfl := List.mem_singleton.mp hm
      exact ⟨hp, trivial⟩
    | list items s =>
      obtain ⟨q, hq, rfl⟩ := List.mem_map.mp hm
      exact ⟨(Pattern.spelled_list.mp hp).spelled q hq, trivial⟩
    | splat i s =>
      obtain ⟨j, -, rfl⟩ := List.mem_map.mp hm
      exact ⟨trivial, trivial⟩
  | path p =>
    obtain ⟨i, -, rfl⟩ := List.mem_map.mp hm
    exact ⟨trivial, trivial⟩
  | ident i => cases hm
  | _ => exact hn.2.elim

theorem Node.all_ident {i : Ident} : (Node.ident i).All (Node.Sound K) := .intro trivial nofun

theorem Params.Spelled.inside {p : Params} (h : p.Spelled K) :
    ∀ n ∈ Node.ofParams p, n.All (Node.Sound K) := by
  intro n hn
  obtain hn | hn := List.mem_append.mp hn
  · obtain ⟨q, hq, rfl⟩ := List.mem_map.mp hn
    exact (h.items.spelled q hq).inside
  · obtain ⟨i, -, rfl⟩ := List.mem_map.mp hn
    exact Node.all_ident

end

mutual

/-- The parameters and the names of types in the outline of the expression are those of tokens of
`K`. -/
def Expr.Declares (K : Token.Kind → Prop) : Expr → Prop
  | ⟨.method d, _⟩ => d.params.Spelled K
  | ⟨.type ⟨_, name, _, body, _, _⟩, _⟩ => K (.constant name.name) ∧ Expr.AllDeclare K body
  | _ => True

def Expr.AllDeclare (K : Token.Kind → Prop) : List Expr → Prop
  | [] => True
  | e :: es => e.Declares K ∧ Expr.AllDeclare K es

end

theorem Expr.allDeclare_iff {K : Token.Kind → Prop} {es : List Expr} :
    Expr.AllDeclare K es ↔ ∀ e ∈ es, e.Declares K := by
  induction es with
  | nil => simp [Expr.AllDeclare]
  | cons e es ih => rw [Expr.AllDeclare, ih, List.forall_mem_cons]

mutual

theorem Expr.declares_of_sound {K : Token.Kind → Prop} (e : Expr)
    (h : (Node.expr e).All (Node.Sound K)) : e.Declares K := by
  obtain ⟨k, s⟩ := e
  cases k with
  | method d => exact (h.child (m := .method d) List.mem_cons_self).self
  | type d =>
    have hd := h.child (m := .type d) List.mem_cons_self
    obtain ⟨sort, name, superclass, body, doc, span⟩ := d
    refine ⟨hd.self, Expr.allDeclare_of_sound body fun e he ↦ hd.child ?_⟩
    exact List.mem_cons_of_mem _ (List.mem_append_right _ (List.mem_map_of_mem he))
  | _ => trivial

theorem Expr.allDeclare_of_sound {K : Token.Kind → Prop} (es : List Expr)
    (h : ∀ e ∈ es, (Node.expr e).All (Node.Sound K)) : Expr.AllDeclare K es := by
  cases es with
  | nil => trivial
  | cons e es =>
    obtain ⟨he, hes⟩ := List.forall_mem_cons.mp h
    exact ⟨Expr.declares_of_sound e he, Expr.allDeclare_of_sound es hes⟩

end

namespace Grammar

/-- What is known of the tokens of a program: what kinds they are of and where they stand. -/
structure Stock where
  kind : Token.Kind → Prop
  span : Span → Prop
  merge {a b : Span} : span a → span b → span (a.merge b)

namespace Stock

variable (S : Stock)

/-- What holds of the kinds of all tokens, or their end. -/
def Sees (k : Token.Kind) : Prop := k = .eof ∨ S.kind k

structure Matches (p : Pattern) : Prop where
  span : S.span p.span
  spelled : p.Spelled S.kind
  single : p.isSplat = false

def Grants (n : Node) : Prop := n.All (Node.Sound S.kind)

def GrantsAll (es : List Expr) : Prop := ∀ e ∈ es, S.Grants (.expr e)

structure Gives (e : Expr) : Prop where
  span : S.span e.span
  sound : S.Grants (.expr e)

variable {S}

theorem Gives.of_kind {k : Expr.Kind} {s : Span} (hs : S.span s) (hk : k.Sound S.kind)
    (hc : ∀ n ∈ Node.ofKind k, S.Grants n) : S.Gives ⟨k, s⟩ := ⟨hs, .intro hk hc⟩

theorem Gives.respan {e : Expr} (h : S.Gives e) {s : Span} (hs : S.span s) :
    S.Gives { e with span := s } :=
  .of_kind hs (h.sound.self) fun _ hn ↦ h.sound.child hn

theorem GrantsAll.nodes {es : List Expr} (h : S.GrantsAll es) :
    ∀ n ∈ es.map Node.expr, S.Grants n := by
  intro n hn
  obtain ⟨e, he, rfl⟩ := List.mem_map.mp hn
  exact h e he

theorem GrantsAll.nil : S.GrantsAll [] := nofun

theorem GrantsAll.cons {e : Expr} {es : List Expr} (he : S.Grants (.expr e))
    (hes : S.GrantsAll es) : S.GrantsAll (e :: es) := List.forall_mem_cons.mpr ⟨he, hes⟩

theorem GrantsAll.reverse {es : List Expr} (h : S.GrantsAll es) : S.GrantsAll es.reverse :=
  fun e he ↦ h e (List.mem_reverse.mp he)

theorem GrantsAll.toList {e : Option Expr} (h : ∀ v ∈ e, S.Grants (.expr v)) :
    S.GrantsAll e.toList := fun v hv ↦ h v (Option.mem_toList.mp hv)

theorem GrantsAll.getD {es : Option (List Expr)} (h : ∀ vs ∈ es, S.GrantsAll vs) :
    S.GrantsAll (es.getD []) := by
  cases es with
  | none => exact nil
  | some vs => exact h vs rfl

theorem Matches.grants {p : Pattern} (h : S.Matches p) : S.Grants (.pattern p) := h.spelled.inside

end Stock

/-! ## Skipping tokens -/

namespace Cursor

variable {c c' d : Cursor} {skips passes : Token.Kind → Prop}

/-- From a cursor past all tokens of some kinds that come next. -/
inductive Skips (skips : Token.Kind → Prop) : Cursor → Cursor → Prop
  | stop {c : Cursor} : ¬ skips c.kind → Skips skips c c
  | next {c c' : Cursor} : skips c.kind → Skips skips c.next c' → Skips skips c c'

theorem skipNewlines_skips (c : Cursor) : c.Skips (· = .newline) c.skipNewlines := by
  have go (rest : List Cell) (previous : Span) :
      Skips (· = .newline) { c with rest, previous } (skipNewlines.go c rest previous) := by
    fun_induction skipNewlines.go c rest previous with
    | case1 previous => exact .stop nofun
    | case2 previous t more hk ih => exact .next hk ih
    | case3 previous t more hk => exact .stop hk
  exact go c.rest c.previous

theorem skipSeparators_skips (c : Cursor) : c.Skips (isSeparator · = true) c.skipSeparators := by
  have go (rest : List Cell) (previous : Span) :
      Skips (isSeparator · = true) { c with rest, previous }
        (skipSeparators.go c rest previous) := by
    fun_induction skipSeparators.go c rest previous with
    | case1 previous => exact .stop nofun
    | case2 previous t more hk ih => exact .next hk ih
    | case3 previous t more hk => exact .stop hk
  exact go c.rest c.previous

namespace Skips

theorem eq_of_not (h : c.Skips skips c') (hc : ¬ skips c.kind) : c' = c := by
  cases h with
  | stop => rfl
  | next hk _ => exact absurd hk hc

theorem of_next (h : c.Skips skips c') (hc : skips c.kind) : c.next.Skips skips c' := by
  cases h with
  | stop hk => exact absurd hc hk
  | next _ h => exact h

theorem not_kind (h : c.Skips skips c') : ¬ skips c'.kind := by
  induction h with
  | stop hk => exact hk
  | next _ _ ih => exact ih

theorem unique (h : c.Skips skips c') (hd : c.Skips skips d) : c' = d := by
  induction h with
  | stop hk => exact (hd.eq_of_not hk).symm
  | next hk _ ih => exact ih (hd.of_next hk)

theorem after (h : c.Skips skips c') (hd : c.Skips passes d) (hp : ∀ k, passes k → skips k) :
    d.Skips skips c' := by
  induction hd with
  | stop => exact h
  | next hk _ ih => exact ih (h.of_next (hp _ hk))

end Skips

end Cursor

theorem beq_newline_iff {k : Token.Kind} : (k == .newline) = true ↔ k = .newline := by
  cases k with
  | newline => exact ⟨fun _ ↦ rfl, fun _ ↦ rfl⟩
  | _ => exact ⟨nofun, nofun⟩

theorem skipNewlines_rest (c : Cursor) :
    c.skipNewlines.rest = c.rest.dropWhile (·.kind == .newline) := by
  have hskips := c.skipNewlines_skips
  generalize c.skipNewlines = c' at hskips
  induction hskips with
  | @stop c hk =>
    obtain ⟨rest, previous, stop, limit⟩ := c
    cases rest with
    | nil => rfl
    | cons t more =>
      have hne : ¬ (t.kind == .newline) = true := fun h ↦ hk (beq_newline_iff.mp h)
      change t :: more = (t :: more).dropWhile (·.kind == .newline)
      rw [List.dropWhile_cons, if_neg hne]
  | @next c c' hk _ ih =>
    obtain ⟨rest, previous, stop, limit⟩ := c
    cases rest with
    | nil => cases hk
    | cons t more =>
      have hnewline : (t.kind == .newline) = true := beq_newline_iff.mpr hk
      change c'.rest = (t :: more).dropWhile (·.kind == .newline)
      rw [List.dropWhile_cons, if_pos hnewline]
      exact ih

theorem chainContinues_eq (c : Cursor) :
    chainContinues c = (c.skipNewlines.kind == .mark .dot) := by
  rw [chainContinues, ← skipNewlines_rest]
  unfold Cursor.kind
  cases c.skipNewlines.rest <;> rfl

theorem kind_of_chainContinues {c : Cursor} (h : chainContinues c = true) :
    c.skipNewlines.kind = .mark .dot := eq_of_beq_mark ((chainContinues_eq c).symm.trans h)

variable {S : Stock}

structure Cursor.Within (S : Stock) (c : Cursor) : Prop where
  rest : ∀ t ∈ c.rest, S.kind t.kind ∧ S.span t.span
  previous : S.span c.previous
  stop : S.span c.stop

namespace Cursor.Within

variable {c : Cursor}

theorem span (h : c.Within S) : S.span c.span := by
  unfold Cursor.span
  split
  · exact h.stop
  · rename_i t rest hr
    exact (h.rest t (hr ▸ List.mem_cons_self)).2

theorem kind (h : c.Within S) : S.Sees c.kind := by
  unfold Cursor.kind
  split
  · exact .inl rfl
  · rename_i t rest hr
    exact .inr (h.rest t (hr ▸ List.mem_cons_self)).1

theorem next (h : c.Within S) : c.next.Within S := by
  unfold Cursor.next
  split
  · exact h
  · rename_i t rest hr
    have ht := List.forall_mem_cons.mp (hr ▸ h.rest)
    exact ⟨ht.2, ht.1.2, h.stop⟩

theorem skips {c' : Cursor} {skips : Token.Kind → Prop} (hs : c.Skips skips c')
    (h : c.Within S) : c'.Within S := by
  induction hs with
  | stop => exact h
  | next _ _ ih => exact ih h.next

theorem skipNewlines (h : c.Within S) : c.skipNewlines.Within S := skips c.skipNewlines_skips h

theorem skipSeparators (h : c.Within S) : c.skipSeparators.Within S :=
  skips c.skipSeparators_skips h

end Cursor.Within

namespace Parse

variable {α β : Type} {P Q : α → Prop} {R : β → Prop}

/-- Among tokens of `S`, the parser fails at a span of `S` or has a result as `P` says. -/
def Keeps (S : Stock) (P : α → Prop) (x : Parse α) : Prop :=
  ∀ c, c.Within S → match x c with
    | .ok (a, c') => P a ∧ c'.Within S
    | .error e => S.span e.span

namespace Keeps

theorem pure {a : α} (h : P a) : Keeps S P (Pure.pure a) := fun _ hc ↦ ⟨h, hc⟩

theorem bind {x : Parse α} {f : α → Parse β} (hx : Keeps S P x)
    (hf : ∀ a, P a → Keeps S R (f a)) : Keeps S R (x >>= f) := by
  intro c hc
  have h := hx c hc
  change match (x c >>= fun p ↦ f p.1 p.2) with
    | .ok (b, c') => R b ∧ c'.Within S
    | .error e => S.span e.span
  cases hr : x c with
  | error e =>
    rw [hr] at h
    exact h
  | ok p =>
    rw [hr] at h
    exact hf p.1 h.1 p.2 h.2

theorem get : Keeps S (·.Within S) get := fun _ hc ↦ ⟨hc, hc⟩

theorem fail {e : ParseError} (h : S.span e.span) : Keeps S P (throw e) := fun _ _ ↦ h

theorem failAt {expected : Expected} {found : Found} {span : Span} (h : S.span span) :
    Keeps S P (failAt expected found span) := fail h

theorem unexpected (expected : Expected) : Keeps S P (unexpected expected) :=
  bind get fun _ hc ↦ fail hc.span

theorem kind : Keeps S S.Sees kind := bind get fun _ hc ↦ pure hc.kind

theorem span : Keeps S S.span span := bind get fun _ hc ↦ pure hc.span

theorem previous : Keeps S S.span previous := bind get fun _ hc ↦ pure hc.previous

theorem advance : Keeps S S.span advance := fun _ hc ↦ ⟨hc.span, hc.next⟩

theorem eat (k : Token.Kind) : Keeps S (fun _ ↦ True) (eat k) := by
  intro c hc
  unfold Parse.eat
  cases c.kind == k with
  | true => exact ⟨trivial, hc.next⟩
  | false => exact ⟨trivial, hc⟩

theorem eatMark (m : Mark) : Keeps S (fun _ ↦ True) (eatMark m) := eat _

theorem eatKeyword (k : Keyword) : Keeps S (fun _ ↦ True) (eatKeyword k) := eat _

theorem skipNewlines : Keeps S (fun _ ↦ True) skipNewlines :=
  fun _ hc ↦ ⟨trivial, hc.skipNewlines⟩

theorem skipSeparators : Keeps S (fun _ ↦ True) skipSeparators :=
  fun _ hc ↦ ⟨trivial, hc.skipSeparators⟩

theorem ite_of {b : Bool} {x y : Parse α} (hx : b = true → Keeps S P x)
    (hy : b = false → Keeps S P y) : Keeps S P (if b = true then x else y) := by
  cases b with
  | true => exact hx rfl
  | false => exact hy rfl

theorem ite {b : Bool} {x y : Parse α} (hx : Keeps S P x) (hy : Keeps S P y) :
    Keeps S P (if b = true then x else y) := ite_of (fun _ ↦ hx) fun _ ↦ hy

theorem join {b : Bool} {x y : Parse α} {f : α → Parse β} (hx : Keeps S P x) (hy : Keeps S P y)
    (hf : ∀ a, P a → Keeps S R (f a)) : Keeps S R (if b = true then x >>= f else y >>= f) :=
  ite (bind hx hf) (bind hy hf)

theorem expect (m : Mark) : Keeps S S.span (expect m) :=
  bind kind fun _ _ ↦ ite advance (unexpected _)

theorem atMark (m : Mark) : Keeps S (fun _ ↦ True) (atMark m) :=
  bind kind fun _ _ ↦ pure trivial

theorem atKeyword (k : Keyword) : Keeps S (fun _ ↦ True) (atKeyword k) :=
  bind kind fun _ _ ↦ pure trivial

theorem separator : Keeps S (fun _ ↦ True) separator :=
  bind kind fun _ _ ↦ ite skipSeparators (unexpected _)

theorem identifier : Keeps S (fun i ↦ S.kind (.identifier i.name) ∧ S.span i.span)
    identifier := by
  refine bind kind fun k hk ↦ ?_
  cases k with
  | identifier name =>
    have hname : S.kind (.identifier name) := hk.resolve_left nofun
    exact bind advance fun _ h ↦ pure ⟨hname, h⟩
  | _ => exact unexpected _

theorem constantName : Keeps S (fun i ↦ S.kind (.constant i.name) ∧ S.span i.span)
    constantName := by
  refine bind kind fun k hk ↦ ?_
  cases k with
  | constant name =>
    have hname : S.kind (.constant name) := hk.resolve_left nofun
    exact bind advance fun _ h ↦ pure ⟨hname, h⟩
  | _ => exact unexpected _

theorem endOf (construct : Keyword) : Keeps S S.span (endOf construct) :=
  bind (atKeyword _) fun _ _ ↦ ite advance (unexpected _)

theorem repeatUpTo {step : α → Parse (α ⊕ β)} (h : ∀ a, P a → Keeps S (Sum.elim P R) (step a))
    (n : Nat) {a : α} (ha : P a) : Keeps S R (repeatUpTo step n a) := by
  induction n generalizing a with
  | zero => exact unexpected _
  | succ n ih =>
    refine bind (h a ha) fun r hr ↦ ?_
    cases r with
    | inl a => exact ih hr
    | inr b => exact pure hr

theorem iterate {step : α → Parse (α ⊕ β)} (h : ∀ a, P a → Keeps S (Sum.elim P R) (step a))
    {a : α} (ha : P a) : Keeps S R (iterate step a) :=
  bind get fun _ _ ↦ repeatUpTo h _ ha

end Keeps

end Parse

open Parse

/-! ## Patterns -/

theorem typePath_keeps : Keeps S (fun p ↦ p.Spelled S.kind ∧ S.span p.span) typePath := by
  have step (p : TypePath) (hp : p.Spelled S.kind ∧ S.span p.span) :
      Keeps S (Sum.elim (fun p ↦ p.Spelled S.kind ∧ S.span p.span)
        fun p ↦ p.Spelled S.kind ∧ S.span p.span) (typePathStep p) := by
    obtain ⟨hp, hs⟩ := hp
    refine .bind .get fun c hc ↦ .bind .get fun c' hc' ↦ ?_
    split
    · refine .bind .advance fun _ _ ↦ .bind .constantName fun i hi ↦ .pure ⟨⟨by simp, ?_⟩, ?_⟩
      · exact List.forall_mem_append.mpr ⟨hp.constants, List.forall_mem_singleton.mpr hi.1⟩
      · exact S.merge hs hi.2
    · exact .pure ⟨hp, hs⟩
  refine .bind .constantName fun i hi ↦ .iterate step ⟨⟨List.cons_ne_nil _ _, ?_⟩, hi.2⟩
  exact List.forall_mem_singleton.mpr hi.1

theorem splat_keeps :
    Keeps S (fun p ↦ p.Spelled S.kind ∧ p.isSplat = true ∧ S.span p.span) splat := by
  refine .bind .advance fun star hs ↦ .bind .kind fun k _ ↦ ?_
  cases k with
  | identifier name =>
    refine .bind .identifier fun i hi ↦ .pure ⟨?_, rfl, S.merge hs hi.2⟩
    split
    · trivial
    · exact ⟨hi.1, ne_of_beq_false (Bool.eq_false_iff.mpr ‹_›)⟩
  | _ => exact .pure ⟨trivial, rfl, hs⟩

theorem comma_keeps {α β : Type} {P : α → Prop} {R : β → Prop} {more : α} {done : β} (hm : P more)
    (hd : R done) : Keeps S (Sum.elim P R) (comma more done) :=
  .bind .skipNewlines fun _ _ ↦ .bind (.eatMark _) fun _ _ ↦
    .ite (.bind .skipNewlines fun _ _ ↦ .pure hm) (.pure hd)

theorem listPattern_keeps {pattern : Parse Pattern} (hp : Keeps S S.Matches pattern) :
    Keeps S S.Matches (listPattern pattern) := by
  have step (items : List Pattern) (hi : Pattern.Items S.kind items) :
      Keeps S (Sum.elim (Pattern.Items S.kind) (Pattern.Items S.kind))
        (listPatternStep pattern items) := by
    refine .bind (.atMark _) fun _ _ ↦ .ite (.pure hi) ?_
    refine .bind (.atMark _) fun _ _ ↦ .ite (.ite_of (fun _ ↦ .unexpected _) fun hnone ↦ ?_) ?_
    · exact .bind splat_keeps fun p hp ↦
        comma_keeps (hi.cons_splat hp.1 hnone) (hi.cons_splat hp.1 hnone)
    · exact .bind hp fun p hp ↦
        comma_keeps (hi.cons hp.spelled hp.single) (hi.cons hp.spelled hp.single)
  exact .bind .advance fun _ hs ↦ .bind .skipNewlines fun _ _ ↦
    .bind (.iterate step .nil) fun items hi ↦ .bind (.expect _) fun _ hc ↦
      .pure ⟨S.merge hs hc, Pattern.spelled_list.mpr (hi.perm items.reverse_perm.symm), rfl⟩

theorem patternWith_keeps {pattern : Parse Pattern} (hp : Keeps S S.Matches pattern) :
    Keeps S S.Matches (patternWith pattern) := by
  refine .bind .kind fun k hk ↦ .bind .span fun here hh ↦ ?_
  split
  · rename_i name
    have hname : S.kind (.identifier name) := hk.resolve_left nofun
    refine .bind .advance fun _ _ ↦ .bind (.eatMark _) fun _ _ ↦ .ite ?_ (.ite_of ?_ ?_)
    · exact .bind typePath_keeps fun path hpath ↦
        .pure ⟨S.merge hh hpath.2, ⟨hname, hpath.1⟩, rfl⟩
    · exact fun _ ↦ .pure ⟨hh, trivial, rfl⟩
    · exact fun hne ↦ .pure ⟨hh, ⟨hname, ne_of_beq_false hne⟩, rfl⟩
  · exact .bind typePath_keeps fun path hpath ↦ .pure ⟨hpath.2, hpath.1, rfl⟩
  · refine .bind .advance fun _ _ ↦ .bind .kind fun k hk ↦ ?_
    split
    · rename_i number hn
      have hk : S.kind k := hk.resolve_left (by rintro rfl; cases hn)
      exact .bind .advance fun _ hs ↦ .pure ⟨S.merge hh hs, ⟨k, hk, .inr hn⟩, rfl⟩
    · exact .unexpected _
  · exact listPattern_keeps hp
  · exact .failAt hh
  · split
    · rename_i value hv
      have hk : S.kind k := hk.resolve_left (by rintro rfl; cases hv)
      exact .bind .advance fun _ _ ↦ .pure ⟨hh, ⟨k, hk, .inl hv⟩, rfl⟩
    · exact .unexpected _

theorem pattern_keeps : Keeps S S.Matches pattern := by
  have upTo (n : Nat) : Keeps S S.Matches (patternUpTo n) := by
    induction n with
    | zero => exact .unexpected _
    | succ n ih => exact patternWith_keeps ih
  exact .bind .get fun c _ ↦ upTo _

theorem paramList_keeps (closing : Mark) :
    Keeps S (Params.Spelled S.kind) (paramList closing) := by
  have step (params : Params) (h : params.Spelled S.kind) :
      Keeps S (Sum.elim (Params.Spelled S.kind) (Params.Spelled S.kind))
        (paramStep closing params) := by
    have added {p : Pattern} (hp : Pattern.Items S.kind (p :: params.items)) :
        Params.Spelled S.kind { params with items := params.items ++ [p] } :=
      ⟨hp.perm (List.perm_append_singleton p params.items).symm, h.block⟩
    refine .bind (.atMark _) fun _ _ ↦ .ite (.pure h) (.ite (.unexpected _) ?_)
    refine .bind (.eatMark _) fun _ _ ↦ .ite ?_ ?_
    · refine .bind .identifier fun i hi ↦ ?_
      have hblock : Params.Spelled S.kind { params with block := some i } :=
        ⟨h.items, by rintro _ ⟨⟩; exact hi.1⟩
      exact comma_keeps hblock hblock
    · refine .bind (.atMark _) fun _ _ ↦ .ite (.ite_of (fun _ ↦ .unexpected _) fun hnone ↦ ?_) ?_
      · refine .bind splat_keeps fun p hp ↦ ?_
        have hadded := added (h.items.cons_splat hp.1 hnone)
        exact comma_keeps hadded hadded
      · refine .bind pattern_keeps fun p hp ↦ ?_
        have hadded := added (h.items.cons hp.spelled hp.single)
        exact comma_keeps hadded hadded
  exact .bind .skipNewlines fun _ _ ↦ .iterate step .none

/-! ## Calls -/

namespace Stock

variable (S) in
structure Passes (a : Arguments) : Prop where
  args : S.GrantsAll a.args
  block : ∀ b ∈ a.block, S.Grants (.ofBlockArg b)

theorem Passes.none : S.Passes .none := ⟨.nil, nofun⟩

theorem Passes.nodes {a : Arguments} (h : S.Passes a) :
    ∀ n ∈ a.args.map Node.expr ++ a.block.toList.map Node.ofBlockArg, S.Grants n := by
  refine List.forall_mem_append.mpr ⟨h.args.nodes, fun n hn ↦ ?_⟩
  obtain ⟨b, hb, rfl⟩ := List.mem_map.mp hn
  exact h.block b (Option.mem_toList.mp hb)

theorem Gives.call {receiver : Option Expr} {m : Ident} {a : Arguments} {s : Span}
    (hs : S.span s) (hr : ∀ e ∈ receiver, S.Grants (.expr e)) (hm : m.Called S.kind)
    (ha : S.Passes a) : S.Gives ⟨.call receiver m a.args a.block, s⟩ := by
  refine .of_kind hs hm (List.forall_mem_append.mpr ⟨(GrantsAll.toList hr).nodes, ?_⟩)
  exact List.forall_mem_cons.mpr ⟨Node.all_ident, ha.nodes⟩

end Stock

section

variable {nested : Nested} (hn : ∀ entry, Keeps S S.Gives (nested entry))

include hn

theorem statements_keeps : Keeps S S.GrantsAll (statements nested) := by
  have step (done : List Expr) (hd : S.GrantsAll done) :
      Keeps S (Sum.elim S.GrantsAll S.GrantsAll) (statementStep nested done) :=
    .bind .skipSeparators fun _ _ ↦ .bind .kind fun k _ ↦ .ite (.pure hd) <|
      .bind (hn _) fun e he ↦ .bind .kind fun k _ ↦
        .ite (.pure (Stock.GrantsAll.cons he.sound hd)) (.unexpected _)
  exact .bind (.iterate step .nil) fun done hd ↦ .pure hd.reverse

theorem arguments_keeps (closing : Mark) : Keeps S S.Passes (arguments nested closing) := by
  have step (done : Arguments) (hd : S.Passes done) :
      Keeps S (Sum.elim S.Passes S.Passes) (argumentStep nested closing done) := by
    refine .bind (.atMark _) fun _ _ ↦ .ite (.pure hd) (.ite (.unexpected _) ?_)
    refine .bind (.eatMark _) fun _ _ ↦ .ite (.bind (hn _) fun e he ↦ ?_)
      (.bind (hn _) fun e he ↦ ?_)
    · have hpass : S.Passes { done with block := some (.pass e) } :=
        ⟨hd.args, by rintro _ ⟨⟩; exact he.sound⟩
      exact comma_keeps hpass hpass
    · have hadded : S.Passes { done with args := e :: done.args } :=
        ⟨.cons he.sound hd.args, hd.block⟩
      exact comma_keeps hadded hadded
  exact .bind .skipNewlines fun _ _ ↦ .bind (.iterate step .none) fun _ hd ↦
    .bind (.expect _) fun _ _ ↦ .pure ⟨hd.args.reverse, hd.block⟩

theorem plainArguments_keeps (closing : Mark) (expected : Expected) {place : Span}
    (hp : S.span place) :
    Keeps S S.GrantsAll (plainArguments nested closing expected place) := by
  refine .bind (arguments_keeps hn closing) fun a ha ↦ ?_
  cases a.block with
  | some b => exact .failAt hp
  | none => exact .pure ha.args

theorem block_keeps : Keeps S (fun b ↦ S.span b.span ∧ S.Grants (.block b)) (block nested) := by
  have params : Keeps S (Params.Spelled S.kind) blockParams :=
    .bind (.eatMark _) fun _ _ ↦ .ite (.pure .none) <| .bind (.eatMark _) fun _ _ ↦
      .ite (.bind (paramList_keeps _) fun _ hp ↦ .bind (.expect _) fun _ _ ↦ .pure hp)
        (.pure .none)
  exact .bind (.atMark _) fun braced _ ↦ .bind .advance fun _ hs ↦ .bind params fun _ hp ↦
    .bind (statements_keeps hn) fun _ hb ↦ .join (.expect _) (.endOf _) fun _ hc ↦
      .pure ⟨S.merge hs hc, .intro hp (List.forall_mem_append.mpr ⟨hp.inside, hb.nodes⟩)⟩

theorem callSuffix_keeps : Keeps S S.Passes (callSuffix nested) := by
  refine .bind (.eatMark _) fun _ _ ↦ .join (arguments_keeps hn _)
    (.pure .none) fun a ha ↦ .bind .kind fun k _ ↦ .ite ?_ (.pure ha)
  refine .bind .span fun here hh ↦ .bind (block_keeps hn) fun b hb ↦ ?_
  cases a.block with
  | some b => exact .failAt hh
  | none => exact .pure ⟨ha.args, by rintro _ ⟨⟩; exact hb.2⟩

end

theorem methodName_keeps : Keeps S (fun i ↦ S.span i.span ∧ i.Called S.kind) methodName := by
  refine .bind .kind fun k hk ↦ ?_
  split
  · exact .bind .advance fun _ hs ↦ .pure ⟨hs, .identifier (hk.resolve_left nofun)⟩
  · exact .bind .advance fun _ hs ↦ .pure ⟨hs, .constant (hk.resolve_left nofun)⟩
  · exact .bind .advance fun _ hs ↦ .pure ⟨hs, .word rfl⟩
  · refine .bind .get fun c _ ↦ ?_
    split
    · exact .bind .advance fun _ hs ↦ .bind .advance fun _ hc ↦ .pure ⟨S.merge hs hc, .index rfl⟩
    · exact .unexpected _
  · exact .ite_of (fun hm ↦ .bind .advance fun _ hs ↦ .pure ⟨hs, .operator hm rfl⟩)
      fun _ ↦ .unexpected _
  · exact .unexpected _

theorem definedName_keeps : Keeps S (fun i ↦ S.span i.span) definedName := by
  refine .bind .get fun c _ ↦ ?_
  split
  · exact .bind .advance fun _ hs ↦ .bind .advance fun _ hc ↦ .pure (S.merge hs hc)
  · exact .bind .advance fun _ hs ↦ .bind .advance fun _ _ ↦ .bind .advance fun _ hc ↦
      .pure (S.merge hs hc)
  · intro c hc
    have hname := methodName_keeps c hc
    cases hr : methodName c with
    | ok r =>
      rw [hr] at hname
      exact ⟨hname.1.1, hname.2⟩
    | error e =>
      rw [hr] at hname
      exact hname

/-! ## Operators -/

section

variable {nested : Nested} (hn : ∀ entry, Keeps S S.Gives (nested entry))

include hn

theorem postfixOps_keeps {e : Expr} (he : S.Gives e) : Keeps S S.Gives (postfixOps nested e) := by
  refine .iterate (P := S.Gives) (fun e he ↦ .bind .kind fun k _ ↦ ?_) he
  have receiver : ∀ v ∈ some e, S.Grants (.expr v) := by
    rintro _ ⟨⟩
    exact he.sound
  split
  · exact .bind .advance fun _ _ ↦ .bind .skipNewlines fun _ _ ↦
      .bind methodName_keeps fun _ hm ↦ .bind (callSuffix_keeps hn) fun _ ha ↦
        .bind .previous fun _ hp ↦ .pure (.call (S.merge he.span hp) receiver hm.2 ha)
  · exact .bind .advance fun _ hh ↦ .bind (plainArguments_keeps hn _ _ hh) fun args ha ↦
      .bind .previous fun _ hp ↦ .pure
        (.call (a := ⟨args, none⟩) (S.merge he.span hp) receiver (.index rfl) ⟨ha, nofun⟩)
  · exact .bind .get fun c _ ↦ .ite (.bind .skipNewlines fun _ _ ↦ .pure he) (.pure he)
  · exact .pure he

omit hn in
theorem underPrefixes_gives {e : Expr} (he : S.Gives e) {ops : List (PrefixOp × Span)}
    (ho : ∀ op ∈ ops, S.span op.2) : S.Gives (underPrefixes e ops) := by
  induction ops generalizing e with
  | nil => exact he
  | cons op ops ih =>
    have hops := List.forall_mem_cons.mp ho
    exact ih (.of_kind (S.merge hops.1 he.span) trivial
      (List.forall_mem_singleton.mpr he.sound)) hops.2

theorem unary_keeps : Keeps S S.Gives (unary nested) := by
  refine .iterate (P := fun ops ↦ ∀ op ∈ ops, S.span op.2) (fun ops ho ↦ ?_) nofun
  refine .bind .kind fun k _ ↦ ?_
  split
  · exact .bind (hn _) fun e he ↦ .pure (underPrefixes_gives he ho)
  · rename_i op _
    refine .bind .advance fun here hh ↦ .bind .get fun c hc ↦ ?_
    split
    · exact .pure (List.forall_mem_cons.mpr ⟨hh, ho⟩)
    · rename_i number hnumber
      have hspelled : number.Spelled S.kind := by
        have hk : negatedLiteral c.kind = some number := by
          unfold touchingNumber at hnumber
          split at hnumber
          · split at hnumber
            · exact hnumber
            · cases hnumber
          · cases hnumber
        refine ⟨c.kind, hc.kind.resolve_left fun heof ↦ ?_, .inr hk⟩
        rw [heof] at hk
        cases hk
      refine .bind .advance fun _ hs ↦ .bind (postfixOps_keeps hn ?_) fun e he ↦
        .pure (underPrefixes_gives he ho)
      exact .of_kind (S.merge hh hs) hspelled nofun

theorem infixFrom_keeps (n floor : Nat) :
    Keeps S S.Gives (infixFrom nested n floor) := by
  induction n generalizing floor with
  | zero => exact unary_keeps hn
  | succ n ih =>
    have joined (op : Infix) {l r : Expr} (hl : S.Gives l) (hr : S.Gives r) :
        S.Gives (op.join l r) := by
      have hboth := Stock.GrantsAll.cons hl.sound (.cons hr.sound .nil)
      cases op with
      | fits => exact hl
      | _ => exact .of_kind (S.merge hl.span hr.span) trivial hboth.nodes
    refine .bind (unary_keeps hn) fun e he ↦
      .iterate (P := fun l : Left ↦ S.Gives l.expr) (fun l hl ↦ ?_) he
    refine .bind .kind fun k _ ↦ ?_
    split
    · exact .pure hl
    · rename_i op _
      refine .ite (.pure hl) (.bind .advance fun _ _ ↦ .bind .skipNewlines fun _ _ ↦ ?_)
      split
      · exact .bind pattern_keeps fun p hp ↦ .pure (.of_kind (S.merge hl.span hp.span) hp.single
          (List.forall_mem_cons.mpr ⟨hl.sound, List.forall_mem_singleton.mpr hp.grants⟩))
      · refine .bind (ih _) fun r hr ↦ ?_
        split
        · refine .bind .kind fun k _ ↦ ?_
          split
          · exact .unexpected _
          · exact .pure (joined op hl hr)
        · exact .pure (joined op hl hr)

theorem assigned_keeps : Keeps S S.Gives (assigned nested) :=
  .bind .advance fun _ _ ↦ .bind .skipNewlines fun _ _ ↦ hn _

omit hn in
theorem target_keeps {e : Expr} (he : S.Gives e) :
    Keeps S (fun t ↦ t.Sound S.kind ∧ ∀ n ∈ Node.ofTarget t, S.Grants n) (target e) := by
  obtain ⟨k, s⟩ := e
  have named (i : Ident) : ∀ n ∈ [Node.ident i], S.Grants n :=
    List.forall_mem_singleton.mpr Node.all_ident
  unfold target
  dsimp only
  split
  · exact .pure ⟨trivial, named _⟩
  · exact .pure ⟨trivial, named _⟩
  · exact .pure ⟨trivial, named _⟩
  · rename_i receiver method args
    have hreceiver : S.Grants (.expr receiver) := he.sound.child List.mem_cons_self
    have hargs : S.GrantsAll args := fun e he' ↦ he.sound.child <| List.mem_cons_of_mem _ <|
      List.mem_cons_of_mem _ <| List.mem_append_left _ (List.mem_map_of_mem he')
    refine .ite (.pure ⟨trivial, (Stock.GrantsAll.cons hreceiver hargs).nodes⟩)
      (.ite_of (fun hm ↦ ?_) fun _ ↦ .failAt he.span)
    exact .pure ⟨⟨(Bool.and_eq_true_iff.mp hm).2, he.sound.self⟩,
      List.forall_mem_cons.mpr ⟨hreceiver, named _⟩⟩
  · exact .failAt he.span
  · exact .failAt he.span

omit hn in
theorem destructured_keeps : Keeps S (fun p ↦ ∀ q ∈ p, S.Matches q) destructured := by
  intro c hc
  have hp := pattern_keeps c hc
  obtain ⟨p, c', hr, -, h⟩ | ⟨-, -, -, -, h⟩ | ⟨e, hr, ⟨-, h⟩ | ⟨-, h⟩⟩ := destructured_cases c
  · rw [hr] at hp
    rw [h]
    exact ⟨by rintro _ ⟨⟩; exact hp.1, hp.2⟩
  · rw [h]
    exact ⟨nofun, hc⟩
  · rw [hr] at hp
    rw [h]
    exact hp
  · rw [h]
    exact ⟨nofun, hc⟩

theorem expression_keeps : Keeps S S.Gives (expression nested) := by
  have simple : Keeps S S.Gives (simpleAssignment nested) := by
    refine .bind (infixFrom_keeps hn _ _) fun left hl ↦ .bind .kind fun k _ ↦ ?_
    split
    · exact .pure hl
    · refine .bind .advance fun _ _ ↦ .bind .skipNewlines fun _ _ ↦
        .bind (target_keeps hl) fun t ht ↦ .bind (hn _) fun value hv ↦ ?_
      have hnodes : ∀ n ∈ Node.ofTarget t ++ [.expr value], S.Grants n :=
        List.forall_mem_append.mpr ⟨ht.2, List.forall_mem_singleton.mpr hv.sound⟩
      split
      · exact .pure (.of_kind (S.merge hl.span hv.span) ht.1 hnodes)
      · exact .pure (.of_kind (S.merge hl.span hv.span) ht.1 hnodes)
  refine .bind .span fun here hh ↦ .bind (.atMark _) fun _ _ ↦
    .join destructured_keeps (.pure nofun) fun p hp ↦ ?_
  cases p with
  | some p =>
    have hp := hp p rfl
    exact .bind (assigned_keeps hn) fun value hv ↦ .pure (.of_kind (S.merge hh hv.span) hp.single
      (List.forall_mem_cons.mpr ⟨hp.grants, List.forall_mem_singleton.mpr hv.sound⟩))
  | none => exact simple

end

/-! ## Constructs -/

namespace Stock

variable (S) in
structure Branches (b : Branch) : Prop where
  first : S.span b.first
  condition : S.Grants (.expr b.condition)
  body : S.GrantsAll b.body

theorem Grants.cond {c : Expr} {es : List Expr} {elseBody : Option (List Expr)} {s s' : Span}
    (hc : S.Grants (.expr c)) (hes : S.GrantsAll es) (ho : ∀ vs ∈ elseBody, S.GrantsAll vs) :
    S.Grants (.expr ⟨.cond s' c es elseBody, s⟩) := by
  refine .intro trivial (List.forall_mem_singleton.mpr (.intro trivial ?_))
  exact List.forall_mem_cons.mpr
    ⟨hc, List.forall_mem_append.mpr ⟨hes.nodes, (GrantsAll.getD ho).nodes⟩⟩

theorem Branches.chain {bs : List Branch} (h : ∀ b ∈ bs, S.Branches b) {last : Span}
    {otherwise : Option (List Expr)} (ho : ∀ vs ∈ otherwise, S.GrantsAll vs) :
    ∀ vs ∈ Grammar.chain last otherwise bs, S.GrantsAll vs := by
  induction bs generalizing otherwise with
  | nil => exact ho
  | cons b bs ih =>
    obtain ⟨hb, hbs⟩ := List.forall_mem_cons.mp h
    refine ih hbs ?_
    rintro _ ⟨⟩
    exact .cons (.cond hb.condition hb.body ho) .nil

end Stock

section

variable {nested : Nested} (hn : ∀ entry, Keeps S S.Gives (nested entry))

include hn

theorem guard_keeps : Keeps S (fun g ↦ ∀ e ∈ g, S.Grants (.expr e)) (guard? nested) :=
  .bind (.eatKeyword _) fun _ _ ↦
    .ite (.bind (hn _) fun _ he ↦ .pure (by rintro _ ⟨⟩; exact he.sound)) (.pure nofun)

theorem part_keeps (word : Keyword) :
    Keeps S (fun es ↦ ∀ vs ∈ es, S.GrantsAll vs) (part? nested word) :=
  .bind (.eatKeyword _) fun _ _ ↦
    .ite (.bind (statements_keeps hn) fun _ hes ↦ .pure (by rintro _ ⟨⟩; exact hes)) (.pure nofun)

theorem branch_keeps : Keeps S S.Branches (branch nested) :=
  .bind .advance fun _ hs ↦ .bind (hn _) fun _ he ↦ .bind .separator fun _ _ ↦
    .bind (statements_keeps hn) fun _ hes ↦ .pure ⟨hs, he.sound, hes⟩

theorem conditional_keeps : Keeps S S.Gives (conditional nested) := by
  let Done (done : List Branch) : Prop := ∀ b ∈ done, S.Branches b
  let Ended (r : List Branch × Option (List Expr)) : Prop :=
    Done r.1 ∧ ∀ vs ∈ r.2, S.GrantsAll vs
  have step (done : List Branch) (hd : Done done) :
      Keeps S (Sum.elim Done Ended) (branchStep nested done) :=
    .bind (.atKeyword _) fun _ _ ↦
      .ite (.bind (branch_keeps hn) fun _ hb ↦ .pure (List.forall_mem_cons.mpr ⟨hb, hd⟩))
        (.bind (part_keeps hn _) fun _ ho ↦ .pure ⟨hd, ho⟩)
  exact .bind (branch_keeps hn) fun _ hb ↦ .bind (.iterate step nofun) fun _ hr ↦
    .bind .previous fun _ hl ↦ .bind (.endOf _) fun _ hc ↦
      .pure ⟨S.merge (S.merge hb.first hl) hc,
        .cond hb.condition hb.body (Stock.Branches.chain hr.1 hr.2)⟩

theorem loop_keeps : Keeps S S.Gives (loop nested) :=
  .bind .advance fun _ hs ↦ .bind (hn _) fun _ he ↦ .bind .separator fun _ _ ↦
    .bind (statements_keeps hn) fun _ hes ↦ .bind (.endOf _) fun _ hc ↦
      .pure (.of_kind (S.merge hs hc) trivial (List.forall_mem_singleton.mpr
        (.intro trivial (Stock.GrantsAll.cons he.sound hes).nodes)))

theorem forEach_keeps : Keeps S S.Gives (forEach nested) :=
  .bind .advance fun _ hs ↦ .bind pattern_keeps fun _ hp ↦ .bind (.eatKeyword _) fun _ _ ↦
    .join (P := fun _ : Unit ↦ True) (.pure (a := ()) trivial) (.unexpected _) fun _ _ ↦
      .bind (hn _) fun _ he ↦ .bind .separator fun _ _ ↦ .bind (statements_keeps hn) fun _ hes ↦
        .bind (.endOf _) fun _ hc ↦ .pure (.of_kind (S.merge hs hc) trivial
          (List.forall_mem_singleton.mpr (.intro hp.single (List.forall_mem_cons.mpr
            ⟨hp.grants, (Stock.GrantsAll.cons he.sound hes).nodes⟩))))

theorem select_keeps : Keeps S S.Gives (select nested) := by
  let Done (done : List Arm) : Prop := ∀ a ∈ done, S.Grants (.arm a)
  have step (done : List Arm) (hd : Done done) :
      Keeps S (Sum.elim Done Done) (armStep nested done) := by
    refine .bind (.atKeyword _) fun _ _ ↦ .ite ?_ (.pure hd)
    refine .bind .advance fun _ _ ↦ .bind pattern_keeps fun _ hp ↦
      .bind (guard_keeps hn) fun _ hg ↦ .bind .separator fun _ _ ↦
        .bind (statements_keeps hn) fun _ hes ↦ .bind .previous fun _ _ ↦
          .pure (List.forall_mem_cons.mpr ⟨.intro hp.single ?_, hd⟩)
    exact List.forall_mem_cons.mpr
      ⟨hp.grants, List.forall_mem_append.mpr ⟨(Stock.GrantsAll.toList hg).nodes, hes.nodes⟩⟩
  refine .bind .advance fun _ hs ↦ .bind (hn _) fun _ he ↦ .bind .separator fun _ _ ↦
    .bind (.iterate step nofun) fun arms ha ↦ .ite_of (fun _ ↦ .unexpected _) fun hempty ↦
      .bind (part_keeps hn _) fun _ ho ↦ .bind (.endOf _) fun _ hc ↦
        .pure (.of_kind (S.merge hs hc) trivial (List.forall_mem_singleton.mpr (.intro ?_ ?_)))
  · rw [List.isEmpty_eq_false_iff] at hempty
    exact fun hnil ↦ hempty (List.reverse_eq_nil_iff.mp hnil)
  · refine List.forall_mem_cons.mpr ⟨he.sound, List.forall_mem_append.mpr
      ⟨fun n hn ↦ ?_, (Stock.GrantsAll.getD ho).nodes⟩⟩
    obtain ⟨a, ha', rfl⟩ := List.mem_map.mp hn
    exact ha a (List.mem_reverse.mp ha')

theorem protectedBody_keeps {start : Span} (hs : S.span start) (construct : Keyword) :
    Keeps S (fun b ↦ S.span b.span ∧ S.Grants (.body b))
      (protectedBody nested start construct) := by
  have pattern? : Keeps S (fun p ↦ ∀ q ∈ p, S.Matches q) rescuePattern :=
    .bind .kind fun _ _ ↦ .ite (.pure nofun)
      (.bind pattern_keeps fun _ hp ↦ .pure (by rintro _ ⟨⟩; exact hp))
  let Done (done : List Rescue) : Prop := ∀ r ∈ done, S.Grants (.rescue r)
  have step (done : List Rescue) (hd : Done done) :
      Keeps S (Sum.elim Done Done) (rescueStep nested done) := by
    refine .bind (.atKeyword _) fun _ _ ↦ .ite ?_ (.pure hd)
    refine .bind .advance fun _ _ ↦ .bind pattern? fun p hp ↦
      .bind (guard_keeps hn) fun _ hg ↦ .bind .separator fun _ _ ↦
        .bind (statements_keeps hn) fun _ hes ↦ .bind .previous fun _ _ ↦
          .pure (List.forall_mem_cons.mpr ⟨.intro (fun q hq ↦ (hp q hq).single) ?_, hd⟩)
    refine List.forall_mem_append.mpr
      ⟨fun n hn ↦ ?_, List.forall_mem_append.mpr ⟨(Stock.GrantsAll.toList hg).nodes, hes.nodes⟩⟩
    obtain ⟨q, hq, rfl⟩ := List.mem_map.mp hn
    exact (hp q (Option.mem_toList.mp hq)).grants
  refine .bind (statements_keeps hn) fun _ hes ↦ .bind (.iterate step nofun) fun rs hr ↦
    .bind (part_keeps hn _) fun _ ho ↦ .bind (part_keeps hn _) fun _ he ↦
      .bind (.endOf _) fun _ hc ↦ .pure ⟨S.merge hs hc, .intro trivial ?_⟩
  refine List.forall_mem_append.mpr ⟨hes.nodes, List.forall_mem_append.mpr ⟨fun n hn ↦ ?_,
    List.forall_mem_append.mpr ⟨(Stock.GrantsAll.getD ho).nodes, (Stock.GrantsAll.getD he).nodes⟩⟩⟩
  obtain ⟨r, hr', rfl⟩ := List.mem_map.mp hn
  exact hr r (List.mem_reverse.mp hr')

theorem methodDef_keeps : Keeps S S.Gives (methodDef nested) := by
  have params : Keeps S (Params.Spelled S.kind) methodParams :=
    .bind (.eatMark _) fun _ _ ↦ .ite (.bind (paramList_keeps _) fun _ hp ↦
      .bind (.expect _) fun _ _ ↦ .pure hp) (.pure .none)
  have self : Keeps S (fun _ ↦ True) singleton := by
    refine .bind .get fun c _ ↦ .bind .get fun c _ ↦ ?_
    split
    · exact .bind .advance fun _ _ ↦ .bind .advance fun _ _ ↦ .pure trivial
    · exact .pure trivial
  refine .bind .get fun _ _ ↦ .bind .advance fun _ hs ↦ .bind self fun _ _ ↦
    .bind definedName_keeps fun _ _ ↦ .bind params fun _ hp ↦ .bind (guard_keeps hn) fun _ hg ↦
      .bind .separator fun _ _ ↦ .bind (protectedBody_keeps hn hs _) fun _ hb ↦
        .pure (.of_kind hb.1 trivial (List.forall_mem_singleton.mpr (.intro hp ?_)))
  refine List.forall_mem_append.mpr ⟨List.forall_mem_cons.mpr ⟨Node.all_ident, ?_⟩,
    List.forall_mem_singleton.mpr hb.2⟩
  exact List.forall_mem_append.mpr ⟨hp.inside, (Stock.GrantsAll.toList hg).nodes⟩

theorem typeDef_keeps (sort : TypeSort) : Keeps S S.Gives (typeDef nested sort) := by
  have super : Keeps S (fun e ↦ ∀ v ∈ e, S.Grants (.expr v)) (superclass nested sort) := by
    cases sort with
    | module => exact .pure nofun
    | type =>
      exact .bind (.eatMark _) fun _ _ ↦
        .ite (.bind (hn _) fun _ he ↦ .pure (by rintro _ ⟨⟩; exact he.sound)) (.pure nofun)
  refine .bind .get fun _ _ ↦ .bind .advance fun _ hs ↦ .bind .constantName fun _ hname ↦
    .bind super fun _ he ↦ .bind .separator fun _ _ ↦ .bind (statements_keeps hn) fun _ hbody ↦
      .bind (.endOf _) fun _ hc ↦ .pure (.of_kind (S.merge hs hc) trivial
        (List.forall_mem_singleton.mpr (.intro hname.1 ?_)))
  exact List.forall_mem_cons.mpr ⟨Node.all_ident,
    List.forall_mem_append.mpr ⟨(Stock.GrantsAll.toList he).nodes, hbody.nodes⟩⟩

/-! ## Operands and programs -/

theorem jump_keeps (j : Jump) : Keeps S S.Gives (jump nested j) :=
  .bind .advance fun _ hs ↦ .bind .kind fun _ _ ↦
    .ite (.pure (.of_kind hs trivial nofun)) (.bind (hn _) fun _ hv ↦
      .pure (.of_kind (S.merge hs hv.span) trivial (List.forall_mem_singleton.mpr hv.sound)))

omit hn in
theorem atom_keeps {kind : Expr.Kind} (hk : kind.Sound S.kind) (hc : Node.ofKind kind = []) :
    Keeps S S.Gives (atom kind) :=
  .bind .advance fun _ hs ↦ .pure (.of_kind hs hk (hc ▸ nofun))

theorem nameOrCall_keeps {name : String} (hname : S.kind (.identifier name)) :
    Keeps S S.Gives (nameOrCall nested name) :=
  .bind .advance fun _ hs ↦ .bind .kind fun _ _ ↦ .ite
    (.bind (callSuffix_keeps hn) fun _ ha ↦ .bind .previous fun _ hp ↦
      .pure (.call (S.merge hs hp) nofun (.identifier hname) ha))
    (.pure (.of_kind hs trivial nofun))

theorem blockValue_keeps : Keeps S S.Gives (blockValue nested) :=
  .bind (block_keeps hn) fun _ hb ↦
    .pure (.of_kind hb.1 trivial (List.forall_mem_singleton.mpr hb.2))

theorem yieldCall_keeps : Keeps S S.Gives (yieldCall nested) :=
  .bind .advance fun _ hs ↦ .bind (.eatMark _) fun _ _ ↦
    .join (plainArguments_keeps hn _ _ hs) (.pure .nil) fun _ ha ↦
      .bind .previous fun _ hp ↦ .pure (.of_kind (S.merge hs hp) trivial ha.nodes)

theorem superCall_keeps : Keeps S S.Gives (superCall nested) := by
  refine .bind .advance fun _ hs ↦ .bind (.atMark _) fun explicit _ ↦
    .bind (callSuffix_keeps hn) fun a ha ↦ .bind .previous fun _ hp ↦
      .pure (.of_kind (S.merge hs hp) trivial ?_)
  obtain ⟨hargs, hblock⟩ := List.forall_mem_append.mp ha.nodes
  refine List.forall_mem_append.mpr ⟨?_, hblock⟩
  cases explicit with
  | true => exact hargs
  | false => exact nofun

theorem keywordOperand_keeps (k : Keyword) (hk : S.kind (.keyword k)) :
    Keeps S S.Gives (keywordOperand nested k) := by
  cases k with
  | nil => exact atom_keeps ⟨_, hk, .inl rfl⟩ rfl
  | true_ => exact atom_keeps ⟨_, hk, .inl rfl⟩ rfl
  | false_ => exact atom_keeps ⟨_, hk, .inl rfl⟩ rfl
  | self => exact atom_keeps trivial rfl
  | do_ => exact blockValue_keeps hn
  | if_ => exact conditional_keeps hn
  | while_ => exact loop_keeps hn
  | for_ => exact forEach_keeps hn
  | case => exact select_keeps hn
  | begin_ =>
    exact .bind .advance fun _ hs ↦ .bind (protectedBody_keeps hn hs _) fun _ hb ↦
      .pure (.of_kind hb.1 trivial (List.forall_mem_singleton.mpr hb.2))
  | raise => exact jump_keeps hn _
  | return_ => exact jump_keeps hn _
  | break_ => exact jump_keeps hn _
  | next => exact jump_keeps hn _
  | yield => exact yieldCall_keeps hn
  | super => exact superCall_keeps hn
  | def_ => exact methodDef_keeps hn
  | type => exact typeDef_keeps hn _
  | module => exact typeDef_keeps hn _
  | include_ =>
    exact .bind .advance fun _ hs ↦ .bind (hn _) fun _ hm ↦
      .pure (.of_kind (S.merge hs hm.span) trivial (List.forall_mem_singleton.mpr hm.sound))
  | _ => exact .unexpected _

theorem primary_keeps : Keeps S S.Gives (primary nested) := by
  refine .bind .kind fun k hk ↦ ?_
  split
  · exact atom_keeps ⟨_, hk.resolve_left nofun, .inl rfl⟩ rfl
  · exact atom_keeps ⟨_, hk.resolve_left nofun, .inl rfl⟩ rfl
  · exact atom_keeps ⟨_, hk.resolve_left nofun, .inl rfl⟩ rfl
  · exact atom_keeps ⟨_, hk.resolve_left nofun, .inl rfl⟩ rfl
  · exact nameOrCall_keeps hn (hk.resolve_left nofun)
  · exact atom_keeps trivial rfl
  · exact atom_keeps trivial rfl
  · exact .bind .advance fun _ hs ↦ .bind (plainArguments_keeps hn _ _ hs) fun _ ha ↦
      .bind .previous fun _ hp ↦ .pure (.of_kind (S.merge hs hp) trivial ha.nodes)
  · exact .bind .advance fun _ hs ↦ .bind .skipNewlines fun _ _ ↦ .bind (hn _) fun e he ↦
      .bind .skipNewlines fun _ _ ↦ .bind (.expect _) fun _ hc ↦
        .pure (he.respan (S.merge hs hc))
  · exact blockValue_keeps hn
  · exact keywordOperand_keeps hn _ (hk.resolve_left nofun)
  · exact .unexpected _

end

theorem parser_keeps (entry : Entry) :
    Keeps S S.Gives (parser entry) := by
  have upTo (n : Nat) : ∀ entry, Keeps S S.Gives (parserUpTo n entry) := by
    induction n with
    | zero => exact fun _ ↦ .unexpected _
    | succ n ih =>
      intro entry
      cases entry with
      | expression => exact expression_keeps ih
      | operand => exact .bind (primary_keeps ih) fun e he ↦ postfixOps_keeps ih he
  exact .bind .get fun c _ ↦ upTo _ entry

theorem program_keeps : Keeps S (fun p ↦ S.Grants (.program p)) program := by
  refine .bind .span fun start hs ↦ .bind (statements_keeps parser_keeps) fun body hb ↦
    .bind .kind fun k _ ↦ .ite ?_ (.unexpected _)
  split
  · exact .pure (.intro trivial hb.nodes)
  · exact .pure (.intro trivial hb.nodes)

theorem mem_cellsOnto {done : List Cell} {m : Margin} {tokens : List Token} {c : Cell}
    (h : c ∈ cellsOnto done m tokens) :
    c ∈ done ∨ ∃ t ∈ tokens, t.kind = c.kind ∧ t.span = c.span := by
  induction tokens generalizing done m with
  | nil => exact .inl (List.mem_reverse.mp h)
  | cons t tokens ih =>
    have later {done' : List Cell} {m' : Margin} (hc : c ∈ cellsOnto done' m' tokens)
        (hdone : c ∈ done' → c ∈ done ∨ t.kind = c.kind ∧ t.span = c.span) :
        c ∈ done ∨ ∃ u ∈ t :: tokens, u.kind = c.kind ∧ u.span = c.span := by
      obtain hc | ⟨u, hu, hc⟩ := ih hc
      · exact (hdone hc).imp_right fun ht ↦ ⟨t, List.mem_cons_self, ht⟩
      · exact .inr ⟨u, List.mem_cons_of_mem t hu, hc⟩
    unfold cellsOnto at h
    split at h
    · exact later h .inl
    · exact later h .inl
    · refine later h fun hc ↦ (List.mem_cons.mp hc).symm.imp_right ?_
      rintro rfl
      exact ⟨rfl, rfl⟩
    · refine later h fun hc ↦ (List.mem_cons.mp hc).symm.imp_right ?_
      rintro rfl
      exact ⟨rfl, rfl⟩

theorem mem_cells {tokens : List Token} {c : Cell} (h : c ∈ cells tokens) :
    ∃ t ∈ tokens, t.kind = c.kind ∧ t.span = c.span :=
  (mem_cellsOnto h).resolve_left List.not_mem_nil

theorem kind_of_mem_cells {P : Token.Kind → Prop} {tokens : List Token}
    (h : ∀ t ∈ tokens, P t.kind) {c : Cell} (hc : c ∈ cells tokens) : P c.kind := by
  obtain ⟨t, ht, hk, -⟩ := mem_cells hc
  exact hk ▸ h t ht

theorem mem_of_stop {cs : List Cell} {c : Cell}
    (h : (cs.find? (·.kind == .eof)).or cs.getLast? = some c) : c ∈ cs := by
  obtain h | ⟨-, h⟩ := Option.or_eq_some_iff.mp h
  · exact List.mem_of_find?_eq_some h
  · exact List.mem_of_getLast? h

theorem Cursor.ofTokens_within {tokens : List Token} (ho : S.span .origin)
    (ht : ∀ t ∈ tokens, S.kind t.kind ∧ S.span t.span) : (Cursor.ofTokens tokens).Within S := by
  have hcells : ∀ c ∈ cells tokens, S.kind c.kind ∧ S.span c.span := fun c hc ↦ by
    obtain ⟨t, hmem, hk, hs⟩ := mem_cells hc
    exact hk ▸ hs ▸ ht t hmem
  refine ⟨fun c hc ↦ hcells c ((List.takeWhile_prefix _).subset hc), ho, ?_⟩
  unfold ofTokens
  dsimp only
  split
  · rename_i c hc
    exact (hcells c (mem_of_stop hc)).2
  · exact ho

theorem ofTokens?_keeps (S : Stock) {tokens : List Token} (ho : S.span .origin)
    (ht : ∀ t ∈ tokens, S.kind t.kind ∧ S.span t.span) :
    match Program.ofTokens? tokens with
    | .ok p => S.Grants (.program p)
    | .error e => S.span e.span := by
  have hp := program_keeps _ (Cursor.ofTokens_within ho ht)
  unfold Program.ofTokens?
  cases hr : program (Cursor.ofTokens tokens) with
  | ok p =>
    rw [hr] at hp
    exact hp.1
  | error e =>
    rw [hr] at hp
    exact hp

end Grammar

end Quill

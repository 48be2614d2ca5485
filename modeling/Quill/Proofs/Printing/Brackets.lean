import Quill.Proofs.Grammar.Progress
import Quill.Proofs.Printing.Reading

/-!
# Brackets

An expression that starts with a bracket is first tried as a list pattern before an equals sign. A
pattern that is read from a written tree ends at the bracket that closes the first one, and no
equals sign follows there, so the attempt is given up and nothing is read.
-/

namespace Quill

open Piece

namespace Grammar

variable {α β : Type}

/-- What follows the bracket that closes the current list, in which `depth` more lists are open. -/
def afterClosing (depth : Nat) : List Token.Kind → List Token.Kind
  | [] => []
  | k :: ks =>
    match k, depth with
    | .mark .lBracket, d => afterClosing (d + 1) ks
    | .mark .rBracket, 0 => ks
    | .mark .rBracket, d + 1 => afterClosing d ks
    | _, d => afterClosing d ks

def isBracket : Token.Kind → Bool
  | .mark .lBracket | .mark .rBracket => true
  | _ => false

theorem afterClosing_cons {k : Token.Kind} (h : isBracket k = false) (d : Nat)
    (ks : List Token.Kind) : afterClosing d (k :: ks) = afterClosing d ks := by
  rw [afterClosing]
  all_goals
    intros
    subst_vars
    cases h

/-- Between the two places every bracket is closed that is opened, and no other. -/
def Passes (ks ks' : List Token.Kind) : Prop := ∀ d, afterClosing d ks = afterClosing d ks'

namespace Cursor

def kinds (c : Cursor) : List Token.Kind := c.rest.map (·.kind)

theorem kinds_eq_cons {c : Cursor} {m : Mark} (h : (c.kind == .mark m) = true) :
    c.kinds = .mark m :: c.kinds.tail := by
  unfold kind at h
  unfold kinds
  cases hr : c.rest with
  | nil =>
    rw [hr] at h
    cases h
  | cons t rest =>
    rw [hr] at h
    exact congrArg (· :: rest.map (·.kind)) (eq_of_beq_mark h)

theorem kinds_next (c : Cursor) : c.next.kinds = c.kinds.tail := by
  unfold next kinds
  split
  · rename_i h
    rw [h]
    rfl
  · rename_i h
    rw [h]
    rfl

theorem next_passes {c : Cursor} (h : isBracket c.kind = false) : Passes c.kinds c.next.kinds := by
  rw [kinds_next]
  unfold kinds
  unfold kind at h
  cases hr : c.rest with
  | nil => exact fun _ ↦ rfl
  | cons t rest =>
    rw [hr] at h
    exact fun d ↦ afterClosing_cons h d _

theorem skipNewlines_passes (c : Cursor) : Passes c.kinds c.skipNewlines.kinds := by
  have hskips := c.skipNewlines_skips
  generalize c.skipNewlines = c' at hskips ⊢
  induction hskips with
  | stop => exact fun _ ↦ rfl
  | next hk _ ih => exact fun d ↦ (next_passes (by rw [hk]; rfl) d).trans (ih d)

end Cursor

namespace Parse

theorem bind_eq_ok {x : Parse α} {f : α → Parse β} {b : β} {c d : Cursor}
    (h : (x >>= f) c = .ok (b, d)) : ∃ a c', x c = .ok (a, c') ∧ f a c' = .ok (b, d) := by
  cases hr : x c with
  | error e =>
    change (x c >>= fun p ↦ f p.1 p.2) = _ at h
    rw [hr] at h
    cases h
  | ok p =>
    rw [bind_ok hr] at h
    exact ⟨p.1, p.2, rfl, h⟩

theorem expect_kinds {m : Mark} {s : Span} {c d : Cursor} (h : expect m c = .ok (s, d)) :
    c.kinds = .mark m :: d.kinds := by
  obtain ⟨k, c', hk, h⟩ := bind_eq_ok h
  cases hk
  split at h
  · rename_i hm
    cases h
    rw [Cursor.kinds_next]
    exact Cursor.kinds_eq_cons hm
  · cases h

/-- A parser that starts at a token as `pre` says closes the brackets that it opens. -/
def Closes (pre : Token.Kind → Prop) (x : Parse α) : Prop :=
  ∀ c a d, pre c.kind → x c = .ok (a, d) → Passes c.kinds d.kinds

namespace Closes

variable {pre : Token.Kind → Prop}

theorem still {x : Parse α} (h : ∀ c a d, x c = .ok (a, d) → d = c) : Closes pre x := by
  intro c a d _ hx
  obtain rfl := h c a d hx
  exact fun _ ↦ rfl

theorem pure (a : α) : Closes pre (Pure.pure a : Parse α) :=
  still fun c b d h ↦ by
    cases h
    rfl

theorem unexpected (e : Expected) : Closes pre (unexpected e : Parse α) := fun _ _ _ _ h ↦ nomatch h

theorem failAt {e : Expected} {f : Found} {s : Span} : Closes pre (failAt e f s : Parse α) :=
  fun _ _ _ _ h ↦ nomatch h

theorem bind {x : Parse α} {f : α → Parse β} (hx : Closes pre x)
    (hf : ∀ a, Closes (fun _ ↦ True) (f a)) : Closes pre (x >>= f) := by
  intro c b d hc h
  obtain ⟨a, c', hxc, hfc⟩ := bind_eq_ok h
  exact fun k ↦ (hx c a c' hc hxc k).trans (hf a c' b d trivial hfc k)

theorem bind_kind {f : Token.Kind → Parse β} (hf : ∀ k, pre k → Closes (· = k) (f k)) :
    Closes pre (kind >>= f) := fun c b d hc h ↦ hf c.kind hc c b d rfl h

theorem bind_get {f : Cursor → Parse β} (hf : ∀ c, pre c.kind → Closes (· = c.kind) (f c)) :
    Closes pre (get >>= f) := fun c b d hc h ↦ hf c hc c b d rfl h

theorem bind_span {f : Span → Parse β} (hf : ∀ s, Closes pre (f s)) :
    Closes pre (span >>= f) := fun c b d hc h ↦ hf c.span c b d hc h

theorem bind_atMark {m : Mark} {f : Bool → Parse β}
    (hf : ∀ b, Closes (fun k ↦ (k == .mark m) = b) (f b)) : Closes pre (atMark m >>= f) :=
  fun c b d _ h ↦ hf (c.kind == .mark m) c b d rfl h

theorem advance (h : ∀ k, pre k → isBracket k = false) : Closes pre advance := by
  intro c a d hc hx
  cases hx
  exact Cursor.next_passes (h c.kind hc)

theorem skipNewlines : Closes pre skipNewlines := by
  intro c a d _ hx
  cases hx
  exact c.skipNewlines_passes

theorem isBracket_of_beq {m : Mark} (hm : isBracket (.mark m) = false) {k : Token.Kind}
    (h : (k == .mark m) = true) : isBracket k = false := by
  rwa [eq_of_beq_mark h]

theorem eatMark {m : Mark} (hm : isBracket (.mark m) = false) : Closes pre (eatMark m) := by
  intro c a d _ hx
  unfold Parse.eatMark eat at hx
  split at hx
  · rename_i hk
    cases hx
    exact Cursor.next_passes (isBracket_of_beq hm hk)
  · cases hx
    exact fun _ ↦ rfl

theorem ite {b : Bool} {x y : Parse α} (hx : b = true → Closes pre x)
    (hy : b = false → Closes pre y) : Closes pre (if b = true then x else y) := by
  cases b with
  | true => exact hx rfl
  | false => exact hy rfl

theorem weaken {x : Parse α} (h : Closes (fun _ ↦ True) x) : Closes pre x :=
  fun c a d _ hx ↦ h c a d trivial hx

theorem iterate {step : α → Parse (α ⊕ β)} (h : ∀ a, Closes (fun _ ↦ True) (step a)) (a : α) :
    Closes pre (iterate step a) := by
  have upTo (n : Nat) : ∀ a, Closes (fun _ ↦ True) (repeatUpTo step n a) := by
    induction n with
    | zero => exact fun _ ↦ unexpected _
    | succ n ih =>
      refine fun a ↦ bind (h a) fun r ↦ ?_
      cases r with
      | inl a => exact ih a
      | inr b => exact pure b
  exact fun c b d _ hx ↦ upTo c.limit a c b d trivial hx

end Closes

end Parse

open Parse

theorem comma_closes (more : α) (done : β) (pre : Token.Kind → Prop) :
    Closes pre (comma more done) :=
  .bind .skipNewlines fun _ ↦ .bind (.eatMark rfl) fun _ ↦
    .ite (fun _ ↦ .bind .skipNewlines fun _ ↦ .pure _) fun _ ↦ .pure _

theorem identifier_closes (pre : Token.Kind → Prop) : Closes pre identifier := by
  refine .bind_kind fun k _ ↦ ?_
  cases k with
  | identifier name => exact .bind (.advance fun _ h ↦ h ▸ rfl) fun _ ↦ .pure _
  | _ => exact .unexpected _

theorem constantName_closes (pre : Token.Kind → Prop) : Closes pre constantName := by
  refine .bind_kind fun k _ ↦ ?_
  cases k with
  | constant name => exact .bind (.advance fun _ h ↦ h ▸ rfl) fun _ ↦ .pure _
  | _ => exact .unexpected _

theorem typePath_closes (pre : Token.Kind → Prop) : Closes pre typePath := by
  have step (path : TypePath) : Closes (fun _ ↦ True) (typePathStep path) := by
    refine .bind_get fun c _ ↦ .bind_get fun c' hc ↦ ?_
    split
    · rename_i hdot _
      refine .bind (.advance fun k hk ↦ ?_) fun _ ↦ .bind (constantName_closes _) fun _ ↦ .pure _
      rw [hk, hc, hdot]
      rfl
    · exact .pure _
  exact .bind (constantName_closes _) fun first ↦ .iterate step _

theorem splat_closes : Closes (fun k ↦ (k == .mark .star) = true) splat := by
  refine .bind (.advance fun k ↦ Closes.isBracket_of_beq rfl) fun _ ↦ .bind_kind fun k _ ↦ ?_
  split
  · exact .bind (identifier_closes _) fun _ ↦ .pure _
  · exact .pure _

theorem isBracket_of_negatedLiteral {k : Token.Kind} {l : Literal}
    (h : negatedLiteral k = some l) : isBracket k = false := by
  cases k <;> first | rfl | cases h

theorem isBracket_of_literalOf {k : Token.Kind} {l : Literal} (h : literalOf k = some l) :
    isBracket k = false := by
  cases k <;> first | rfl | cases h

section

variable {pattern : Parse Pattern} (hp : Closes (fun _ ↦ True) pattern)

include hp

theorem listPatternStep_closes (items : List Pattern) :
    Closes (fun _ ↦ True) (listPatternStep pattern items) := by
  refine .bind_atMark fun b ↦ .ite (fun _ ↦ .pure _) fun _ ↦ .bind_atMark fun b ↦
    .ite (fun hb ↦ .ite (fun _ ↦ .unexpected _) fun _ ↦ ?_) fun _ ↦ ?_
  · subst hb
    exact .bind splat_closes fun _ ↦ comma_closes _ _ _
  · exact .bind hp.weaken fun _ ↦ comma_closes _ _ _

theorem listPattern_ends {c d : Cursor} {a : Pattern} (h : listPattern pattern c = .ok (a, d)) :
    Passes c.next.kinds (.mark .rBracket :: d.kinds) := by
  obtain ⟨s, c₁, hadvance, h⟩ := bind_eq_ok h
  cases hadvance
  obtain ⟨u, c₂, hskip, h⟩ := bind_eq_ok h
  obtain ⟨items, c₃, hitems, h⟩ := bind_eq_ok h
  obtain ⟨close, c₄, hclose, h⟩ := bind_eq_ok h
  cases h
  rw [← expect_kinds hclose]
  have hlines : Closes (fun _ ↦ True) skipNewlines := .skipNewlines
  have hlist : Closes (fun _ ↦ True) (iterate (listPatternStep pattern) []) :=
    .iterate (listPatternStep_closes hp) []
  exact fun k ↦ (hlines _ _ _ trivial hskip k).trans (hlist _ _ _ trivial hitems k)

theorem listPattern_closes : Closes (· = .mark .lBracket) (listPattern pattern) := by
  intro c a d hc h k
  have hkinds : c.kinds = .mark .lBracket :: c.next.kinds := by
    rw [Cursor.kinds_next]
    exact Cursor.kinds_eq_cons (by rw [hc]; rfl)
  rw [hkinds, afterClosing, listPattern_ends hp h, afterClosing]

theorem patternWith_closes : Closes (fun _ ↦ True) (patternWith pattern) := by
  refine .bind_kind fun k _ ↦ .bind_span fun s ↦ ?_
  split
  · refine .bind (.advance fun k h ↦ h ▸ rfl) fun _ ↦ .bind (.eatMark rfl) fun _ ↦ ?_
    refine .ite (fun _ ↦ .bind (typePath_closes _) fun _ ↦ .pure _) fun _ ↦ ?_
    exact .ite (fun _ ↦ .pure _) fun _ ↦ .pure _
  · exact .bind (typePath_closes _) fun _ ↦ .pure _
  · refine .bind (.advance fun k h ↦ h ▸ rfl) fun _ ↦ .bind_kind fun k _ ↦ ?_
    split
    · rename_i number hk
      exact .bind (.advance fun k h ↦ h ▸ isBracket_of_negatedLiteral hk) fun _ ↦ .pure _
    · exact .unexpected _
  · exact listPattern_closes hp
  · exact .failAt
  · split
    · rename_i value hk
      exact .bind (.advance fun k h ↦ h ▸ isBracket_of_literalOf hk) fun _ ↦ .pure _
    · exact .unexpected _

end

theorem patternUpTo_closes (n : Nat) : Closes (fun _ ↦ True) (patternUpTo n) := by
  induction n with
  | zero => exact .unexpected _
  | succ n ih => exact patternWith_closes ih

theorem pattern_ends {c d : Cursor} {a : Pattern} (hc : c.kind = .mark .lBracket)
    (h : pattern c = .ok (a, d)) : Passes c.next.kinds (.mark .rBracket :: d.kinds) := by
  obtain ⟨c', c'', hget, h⟩ := bind_eq_ok h
  cases hget
  cases hl : c.limit with
  | zero =>
    rw [hl] at h
    cases h
  | succ n =>
    rw [hl] at h
    obtain ⟨k, c₁, hk, h⟩ := bind_eq_ok h
    cases hk
    obtain ⟨s, c₂, hs, h⟩ := bind_eq_ok h
    cases hs
    rw [hc] at h
    exact listPattern_ends (patternUpTo_closes n) h

/-- Every bracket among the pieces is closed by another, and none closes one before them. -/
def Balanced (qs : List Piece) : Prop := ∀ ks, Passes (kinds qs ++ ks) ks

namespace Balanced

variable {qs rs : List Piece}

theorem nil : Balanced [] := fun _ _ ↦ rfl

theorem append (hq : Balanced qs) (hr : Balanced rs) : Balanced (qs ++ rs) := by
  intro ks d
  rw [kinds_append, List.append_assoc]
  exact (hq _ d).trans (hr ks d)

theorem cons {q : Piece} (h : isBracket q.kind = false) (hr : Balanced rs) :
    Balanced (q :: rs) := by
  intro ks d
  rw [kinds]
  by_cases hq : q.visible = true
  · rw [List.filter_cons_of_pos hq]
    exact (afterClosing_cons h d _).trans (hr ks d)
  · rw [List.filter_cons_of_neg hq]
    exact hr ks d

theorem parens (h : Balanced qs) : Balanced (Tree.parens qs) :=
  (cons rfl h).append (cons rfl nil)

theorem brackets (h : Balanced qs) : Balanced (Tree.brackets qs) := by
  intro ks d
  rw [Tree.brackets, kinds_append, List.append_assoc]
  exact (h (.mark .rBracket :: ks) (d + 1))

theorem grouped (floor precedence : Nat) (h : Balanced qs) :
    Balanced (Tree.grouped floor precedence qs) := by
  unfold Tree.grouped
  split
  · exact h.parens
  · exact h

theorem spaced {m : Mark} (hm : isBracket (.mark m) = false) (h : Balanced qs) :
    Balanced (Tree.spaced m ++ qs) := cons rfl (cons hm (cons rfl h))

end Balanced

theorem isBracket_of_not_mark {k : Token.Kind} (h : ∀ m, k ≠ .mark m) : isBracket k = false := by
  cases k with
  | mark m => exact absurd rfl (h m)
  | _ => rfl

theorem isBracket_nameKind (text : List Char) : isBracket (Token.nameKind text) = false :=
  isBracket_of_not_mark (nameKind_not_mark text)

theorem isBracket_method (m : MethodName) : isBracket m.piece.kind = false := by
  cases m with
  | word name => exact isBracket_nameKind _
  | constant name => rfl
  | operator mark names => cases mark <;> first | rfl | cases names

theorem intPieces_balanced (n : Int64) : Balanced (Tree.intPieces n) := by
  unfold Tree.intPieces
  split
  · exact .cons rfl (.cons rfl .nil)
  · exact .cons rfl .nil

theorem isBracket_assignment (op : Assignment) : isBracket (.mark op.mark) = false := by
  cases op <;> rfl

theorem isBracket_operator (op : Operator) : isBracket (.mark op.mark) = false := by
  cases op <;> rfl

theorem isBracket_connective (op : Connective) : isBracket (.mark op.mark) = false := by
  cases op <;> rfl

end Grammar

namespace Tree

open Grammar

mutual

theorem balanced : (t : Tree) → Balanced t.pieces
  | int n => intPieces_balanced n
  | atom a => .cons (isBracket_of_not_mark a.not_mark) .nil
  | list items => (separated_balanced items).brackets
  | call r m args => (r.balanced.grouped _ _).append
      (.cons rfl (.cons (isBracket_method m) (separated_balanced args).parens))
  | callSelf _ args => .cons (isBracket_nameKind _) (separated_balanced args).parens
  | index r args => (r.balanced.grouped _ _).append (separated_balanced args).brackets
  | unary .neg t => .cons rfl (.cons rfl (t.balanced.grouped _ _))
  | unary .not t => .cons rfl (t.balanced.grouped _ _)
  | binary op l r => (l.balanced.grouped _ _).append
      (.spaced (isBracket_operator op) (r.balanced.grouped _ _))
  | logical op l r => (l.balanced.grouped _ _).append
      (.spaced (isBracket_connective op) (r.balanced.grouped _ _))
  | assign op x v =>
    .cons (isBracket_of_not_mark x.not_mark) (.spaced (isBracket_assignment op) v.balanced)
  | assignIndex op r args v => (r.balanced.grouped _ _).append
      ((separated_balanced args).brackets.append (.spaced (isBracket_assignment op) v.balanced))
  | assignMember op r _ v => (r.balanced.grouped _ _).append (.cons rfl
      (.cons (isBracket_nameKind _) (.spaced (isBracket_assignment op) v.balanced)))

theorem separated_balanced : (ts : List Tree) → Balanced (separated ts)
  | [] => .nil
  | t :: ts => by
    have hcomma : Balanced (if ts.isEmpty then [] else [.mark .comma, .blank]) := by
      split
      · exact .nil
      · exact .cons rfl (.cons rfl .nil)
    rw [separated]
    exact (t.balanced.append hcomma).append (separated_balanced ts)

end

end Tree

namespace Grammar

/-- After the first bracket, if the pieces start with one, and the one that closes it no equals sign
follows. -/
def Opens (qs : List Piece) : Prop :=
  ∀ ps, first (qs ++ ps) = .mark .lBracket → first ps ≠ .mark .assign →
    ∃ inner rest, Balanced inner ∧ first rest ≠ .mark .assign ∧
      kinds (qs ++ ps) = .mark .lBracket :: (kinds inner ++ .mark .rBracket :: kinds rest)

namespace Opens

variable {qs rs : List Piece}

theorem of_first (h : ∀ ps, first (qs ++ ps) ≠ .mark .lBracket) : Opens qs :=
  fun ps hp _ ↦ absurd hp (h ps)

theorem cons {q : Piece} (hq : q.visible = true) (h : isBracket q.kind = false) :
    Opens (q :: qs) := of_first fun ps hp ↦ by
  rw [List.cons_append, first_cons hq] at hp
  rw [hp] at h
  cases h

theorem append (hq : Opens qs) (hr : ∀ ps, first (rs ++ ps) ≠ .mark .assign) :
    Opens (qs ++ rs) := by
  intro ps hp _
  rw [List.append_assoc] at hp ⊢
  exact hq (rs ++ ps) hp (hr ps)

theorem grouped (floor precedence : Nat) (h : Opens qs) :
    Opens (Tree.grouped floor precedence qs) := by
  unfold Tree.grouped
  split
  · exact of_first fun ps hp ↦ nomatch hp
  · exact h

end Opens

end Grammar

namespace Tree

open Grammar

theorem opens : (t : Tree) → Opens t.pieces
  | int n => by
    rw [pieces]
    unfold intPieces
    split
    · exact .cons rfl rfl
    · exact .cons rfl rfl
  | atom a => .cons a.visible (isBracket_of_not_mark a.not_mark)
  | list items => fun ps _ hps ↦ by
    refine ⟨separated items, ps, separated_balanced items, hps, ?_⟩
    rw [pieces, brackets_append, kinds, List.filter_cons_of_pos rfl]
    change _ :: kinds (separated items ++ .mark .rBracket :: ps) = _
    rw [kinds_append]
    rfl
  | call r _ _ => (r.opens.grouped _ _).append fun _ h ↦ by cases h
  | callSelf _ _ => .cons rfl (isBracket_nameKind _)
  | index r _ => (r.opens.grouped _ _).append fun _ h ↦ by cases h
  | unary .neg _ => .cons rfl rfl
  | unary .not _ => .cons rfl rfl
  | binary op l _ => (l.opens.grouped _ _).append fun _ h ↦ by cases op <;> cases h
  | logical op l _ => (l.opens.grouped _ _).append fun _ h ↦ by cases op <;> cases h
  | assign _ x _ => .cons x.visible (isBracket_of_not_mark x.not_mark)
  | assignIndex _ r _ _ => (r.opens.grouped _ _).append fun _ h ↦ by cases h
  | assignMember _ r _ _ => (r.opens.grouped _ _).append fun _ h ↦ by cases h

end Tree

namespace Grammar

theorem destructured_reads {n : Nat} {t : Tree} {ps : List Piece}
    (h : first (t.pieces ++ ps) = .mark .lBracket) (hps : first ps ≠ .mark .assign) :
    Parse.Reads n destructured (t.pieces ++ ps) (t.pieces ++ ps) (· = none) := by
  intro c hc
  have hbounded : c.Bounded := by
    rw [Cursor.Bounded, hc.length, hc.limit]
    exact hc.bound
  refine ⟨none, c, ?_, hc, rfl⟩
  obtain ⟨p, d, hp, hd, -⟩ | ⟨-, -, -, -, hd⟩ | ⟨e, he, ⟨hprogress, -⟩ | ⟨-, hd⟩⟩ :=
    destructured_cases c
  · -- The pattern ends where the first list does.
    obtain ⟨inner, rest, hinner, hrest, hkinds⟩ := t.opens ps h hps
    have hnext : c.next.kinds = kinds inner ++ .mark .rBracket :: kinds rest := by
      rw [Cursor.kinds_next, Cursor.kinds, hc.kinds, hkinds]
      rfl
    have hends := pattern_ends (hc.kind.trans h) hp 0
    rw [hnext, hinner _ 0] at hends
    have hlast : d.kind = first rest := by
      rw [first, show kinds rest = d.kinds from hends, Cursor.kinds, Cursor.kind]
      cases d.rest <;> rfl
    exact absurd (hlast.symm.trans hd) hrest
  · exact hd
  · exact absurd hprogress (Parse.Ends.pattern.error hbounded he)
  · exact hd

end Grammar

end Quill

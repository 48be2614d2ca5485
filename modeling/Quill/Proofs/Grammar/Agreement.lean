import Mathlib.Logic.Relation
import Quill.Proofs.Grammar.Parts
import Quill.Proofs.Grammar.View

/-!
# Reading the same twice

Two cursors are alike when they stand before tokens of the same kinds that look the same, whatever
else differs. Parsers agree when from cursors that are alike they both fail in the same way, or have
results that look the same and go on alike. One rule for each way to put parsers together.
-/

namespace Quill.Grammar

/-- A minus that touches the number after it. -/
def Cell.folds (t : Cell) : List Cell → Bool
  | [] => false
  | u :: _ => prefixOp? t.kind == some .neg && (negatedLiteral u.kind).isSome &&
      decide (u.span.first = t.span.last.nextColumn)

/-- What the grammar looks at in the tokens. -/
def sight (v : View) : List Cell → List (Token.Kind × Span × Option String × Bool)
  | [] => []
  | t :: rest => (t.kind, v.span t.span, v.doc t.doc, t.folds rest) :: sight v rest

theorem sight_length (v : View) (ts : List Cell) : (sight v ts).length = ts.length := by
  induction ts with
  | nil => rfl
  | cons t ts ih => exact congrArg (· + 1) ih

theorem Cell.folds_takeWhile (t : Cell) (ts : List Cell) :
    t.folds (ts.takeWhile (·.kind != .eof)) = t.folds ts := by
  cases ts with
  | nil => rfl
  | cons u us =>
    rw [List.takeWhile_cons]
    split
    · rfl
    · rename_i hk
      have heof : u.kind = .eof := Classical.byContradiction fun hne ↦ hk (bne_eof_iff.mpr hne)
      rw [folds, folds, heof]
      simp [negatedLiteral]

theorem takeWhile_concat_eof (ts : List Cell) {t : Cell} (ht : t.kind = .eof) :
    (ts ++ [t]).takeWhile (·.kind != .eof) = ts.takeWhile (·.kind != .eof) := by
  have hlast : [t].takeWhile (·.kind != .eof) = [] :=
    List.takeWhile_cons_of_neg fun h ↦ bne_eof_iff.mp h ht
  rw [List.takeWhile_append]
  split
  · rename_i hall
    rw [hlast, List.append_nil, (List.takeWhile_prefix _).eq_of_length hall]
  · rfl

theorem sight_takeWhile (v : View) (ts : List Cell) :
    sight v (ts.takeWhile (·.kind != .eof)) = (sight v ts).takeWhile (·.1 != .eof) := by
  induction ts with
  | nil => rfl
  | cons t ts ih =>
    rw [sight, List.takeWhile_cons, List.takeWhile_cons]
    split
    · rw [sight, ih, Cell.folds_takeWhile]
    · rfl

namespace Cursor

/-- The tokens before the end of the file, which may have others behind it. -/
def unread (c : Cursor) : List Cell := c.rest.takeWhile (·.kind != .eof)

/-- Tokens are read one by one, and never the end of the file. -/
def Advances : Cursor → Cursor → Prop :=
  Relation.ReflTransGen fun c c' ↦ c.kind ≠ .eof ∧ c' = c.next

section

variable {c c' : Cursor}

theorem unread_length_le (c : Cursor) : c.unread.length ≤ c.rest.length :=
  (List.takeWhile_prefix _).length_le

theorem unread_of_eof (h : c.kind = .eof) : c.unread = [] := by
  unfold Cursor.kind at h
  unfold unread
  cases hc : c.rest with
  | nil => rfl
  | cons t ts =>
    rw [hc] at h
    exact List.takeWhile_cons_of_neg (by rw [show t.kind = .eof from h]; exact Bool.false_ne_true)

theorem unread_next (h : c.kind ≠ .eof) : ∃ t ts, c.rest = t :: ts ∧ c.next.rest = ts ∧
    c.kind = t.kind ∧ c.span = t.span ∧ c.doc = t.doc ∧ c.next.previous = t.span ∧
      c.unread = t :: c.next.unread := by
  obtain ⟨rest, previous, stop, limit⟩ := c
  cases rest with
  | nil => exact absurd rfl h
  | cons t ts =>
    refine ⟨t, ts, rfl, rfl, rfl, rfl, rfl, rfl, ?_⟩
    exact List.takeWhile_cons_of_pos (bne_eof_iff.mpr h)

theorem next_lt (h : c.kind ≠ .eof) : c.next.unread.length < c.unread.length := by
  obtain ⟨t, ts, -, -, -, -, -, -, hunread⟩ := unread_next h
  rw [hunread]
  exact Nat.lt_succ_self _

theorem kind_eof_iff : c.kind = .eof ↔ c.unread = [] := by
  refine ⟨unread_of_eof, fun hnil ↦ Classical.byContradiction fun hk ↦ ?_⟩
  have hlt := next_lt hk
  rw [hnil] at hlt
  exact Nat.not_lt_zero _ hlt

theorem Advances.refl : c.Advances c := Relation.ReflTransGen.refl

theorem Advances.trans {c'' : Cursor} (h : c.Advances c') (h' : c'.Advances c'') :
    c.Advances c'' := Relation.ReflTransGen.trans h h'

theorem Advances.next (h : c.kind ≠ .eof) : c.Advances c.next := .single ⟨h, rfl⟩

theorem Advances.exists_read (h : c.Advances c') : ∃ read, c.rest = read ++ c'.rest ∧
    c.unread = read ++ c'.unread ∧ c'.limit = c.limit := by
  induction h with
  | refl => exact ⟨[], rfl, rfl, rfl⟩
  | tail _ hn ih =>
    obtain ⟨hk, rfl⟩ := hn
    obtain ⟨read, hrest, hunread, hlimit⟩ := ih
    obtain ⟨t, ts, hc, hnext, -, -, -, -, hfront⟩ := unread_next hk
    refine ⟨read ++ [t], ?_, ?_, ?_⟩
    · rw [hrest, hc, hnext, List.append_assoc]
      rfl
    · rw [hunread, hfront, List.append_assoc]
      rfl
    · unfold Cursor.next
      rw [hc]
      exact hlimit

theorem Advances.le (h : c.Advances c') : c'.unread.length ≤ c.unread.length := by
  obtain ⟨read, -, hunread, -⟩ := h.exists_read
  rw [hunread, List.length_append]
  exact Nat.le_add_left _ _

theorem Advances.fewer (h : c.Advances c') (hlt : c'.unread.length < c.unread.length) :
    c'.rest.length < c.rest.length := by
  obtain ⟨read, hrest, hunread, -⟩ := h.exists_read
  rw [hunread, List.length_append] at hlt
  rw [hrest, List.length_append]
  omega

theorem Skips.advances {skips : Token.Kind → Prop} (h : c.Skips skips c') (heof : ¬ skips .eof) :
    c.Advances c' := by
  induction h with
  | stop => exact .refl
  | next hk _ ih => exact ih.head ⟨fun h ↦ heof (h ▸ hk), rfl⟩

theorem skipNewlines_advances (c : Cursor) : c.Advances c.skipNewlines :=
  c.skipNewlines_skips.advances nofun

theorem skipSeparators_advances (c : Cursor) : c.Advances c.skipSeparators :=
  c.skipSeparators_skips.advances nofun

theorem skipNewlines_lt (h : c.kind = .newline) :
    c.skipNewlines.unread.length < c.unread.length := by
  have hrest : c.next.Advances c.skipNewlines :=
    (c.skipNewlines_skips.of_next h).advances nofun
  exact Nat.lt_of_le_of_lt hrest.le (next_lt (by rw [h]; nofun))

end

/-- Both cursors stand before the same, as far as the grammar can tell. What is behind the end of
the file does not matter. -/
structure Alike (v : View) (c d : Cursor) : Prop where
  unread : sight v c.unread = sight v d.unread
  previous : v.span c.previous = v.span d.previous
  limit : c.rest.length < c.limit
  limit' : d.rest.length < d.limit

variable {v : View} {c d : Cursor}

namespace Alike

theorem of_rest (hrest : sight v c.rest = sight v d.rest)
    (hprevious : v.span c.previous = v.span d.previous) (hc : c.rest.length < c.limit)
    (hd : d.rest.length < d.limit) : c.Alike v d := by
  refine ⟨?_, hprevious, hc, hd⟩
  rw [Cursor.unread, Cursor.unread, sight_takeWhile, sight_takeWhile, hrest]

variable (h : c.Alike v d)

include h

theorem length : c.unread.length = d.unread.length := by
  rw [← sight_length v, h.unread, sight_length]

theorem unread_lt : c.unread.length < c.limit := Nat.lt_of_le_of_lt c.unread_length_le h.limit

theorem unread_lt' : c.unread.length < d.limit :=
  h.length ▸ Nat.lt_of_le_of_lt d.unread_length_le h.limit'

theorem eof_iff : c.kind = .eof ↔ d.kind = .eof := by
  rw [kind_eof_iff, kind_eof_iff, ← List.length_eq_zero_iff, h.length, List.length_eq_zero_iff]

theorem unread_cases (hk : c.kind ≠ .eof) : ∃ t u, c.unread = t :: c.next.unread ∧
    d.unread = u :: d.next.unread ∧ c.kind = t.kind ∧ d.kind = u.kind ∧ c.span = t.span ∧
    d.span = u.span ∧ t.kind = u.kind ∧ v.span t.span = v.span u.span ∧ v.doc c.doc = v.doc d.doc ∧
    v.span c.next.previous = v.span d.next.previous ∧
    t.folds c.next.unread = u.folds d.next.unread ∧
    sight v c.next.unread = sight v d.next.unread := by
  obtain ⟨t, ts, -, -, hkind, hspan, hdoc, hprevious, hunread⟩ := unread_next hk
  obtain ⟨u, us, -, -, hkind', hspan', hdoc', hprevious', hunread'⟩ :=
    unread_next (mt h.eof_iff.mpr hk)
  have hsight := h.unread
  rw [hunread, hunread', sight, sight] at hsight
  obtain ⟨hhead, htail⟩ := List.cons.inj hsight
  simp only [Prod.mk.injEq] at hhead
  obtain ⟨hk, hs, hd, hfolds⟩ := hhead
  refine ⟨t, u, hunread, hunread', hkind, hkind', hspan, hspan', hk, hs, ?_, ?_, hfolds, htail⟩
  · rw [hdoc, hdoc', hd]
  · rw [hprevious, hprevious', hs]

theorem kind : c.kind = d.kind := by
  by_cases hk : c.kind = .eof
  · exact hk.trans (h.eof_iff.mp hk).symm
  · obtain ⟨t, u, -, -, hc, hd, -, -, heq, -⟩ := h.unread_cases hk
    exact hc.trans (heq.trans hd.symm)

theorem span (hk : c.kind ≠ .eof) : v.span c.span = v.span d.span := by
  obtain ⟨t, u, -, -, -, -, hc, hd, -, hs, -⟩ := h.unread_cases hk
  rw [hc, hd, hs]

theorem doc (hk : c.kind ≠ .eof) : v.doc c.doc = v.doc d.doc := by
  obtain ⟨t, u, -, -, -, -, -, -, -, -, hdoc, -⟩ := h.unread_cases hk
  exact hdoc

theorem next (hk : c.kind ≠ .eof) : c.next.Alike v d.next := by
  obtain ⟨t, u, -, -, -, -, -, -, -, -, -, hprevious, -, hrest⟩ := h.unread_cases hk
  obtain ⟨read, hc, -, hlimit⟩ := (Advances.next hk).exists_read
  obtain ⟨read', hd, -, hlimit'⟩ := (Advances.next (mt h.eof_iff.mpr hk)).exists_read
  have hl := h.limit
  have hl' := h.limit'
  rw [hc, List.length_append] at hl
  rw [hd, List.length_append] at hl'
  exact ⟨hrest, hprevious, by omega, by omega⟩

theorem second (hk : c.kind ≠ .eof) : c.second = d.second := by
  rw [← c.next_kind, ← d.next_kind]
  exact (h.next hk).kind

theorem third (hk : c.kind ≠ .eof) (hs : c.second ≠ .eof) : c.third = d.third := by
  rw [← c.next_kind] at hs
  rw [← c.next_second, ← d.next_second]
  exact (h.next hk).second hs

theorem skips {c' d' : Cursor} {skips : Token.Kind → Prop} (heof : ¬ skips .eof)
    (hc : c.Skips skips c') (hd : d.Skips skips d') : c'.Alike v d' := by
  induction hc generalizing d with
  | stop hk =>
    obtain rfl := hd.eq_of_not (h.kind ▸ hk)
    exact h
  | next hk _ ih => exact ih (h.next fun h ↦ heof (h ▸ hk)) (hd.of_next (h.kind ▸ hk))

theorem skipNewlines : c.skipNewlines.Alike v d.skipNewlines :=
  h.skips nofun c.skipNewlines_skips d.skipNewlines_skips

theorem skipSeparators : c.skipSeparators.Alike v d.skipSeparators :=
  h.skips nofun c.skipSeparators_skips d.skipSeparators_skips

theorem touchingNumber {op : PrefixOp} (hop : prefixOp? c.kind = some op) :
    touchingNumber op c.span c.next = touchingNumber op d.span d.next := by
  cases op with
  | not => rfl
  | neg =>
    have hk : c.kind ≠ .eof := fun heof ↦ by
      rw [heof] at hop
      cases hop
    obtain ⟨t, u, -, -, hc, hd, hspan, hspan', heq, -, -, -, hfolds, -⟩ := h.unread_cases hk
    have hnext := (h.next hk).kind
    unfold Grammar.touchingNumber
    rw [← hnext, hspan, hspan']
    cases hn : negatedLiteral c.next.kind with
    | none => simp only [ite_self]
    | some number =>
      have hnumber : c.next.kind ≠ .eof := fun heof ↦ by
        rw [heof] at hn
        cases hn
      obtain ⟨t', u', hcells, hcells', hc', -, hs, hs', heq', -⟩ :=
        (h.next hk).unread_cases hnumber
      rw [hcells, hcells', Cell.folds, Cell.folds, ← heq, ← heq', ← hc, ← hc', hop, hn] at hfolds
      simp only [Option.isSome_some, beq_self_eq_true, Bool.true_and, decide_eq_decide] at hfolds
      simp only [hs, hs', hfolds]

end Alike

end Cursor

/-- Both fail where the same was expected and the same was found, or both have results, which are
related by `R`. -/
inductive SameOutcome {α : Type} (R : α → α → Prop) :
    Except ParseError α → Except ParseError α → Prop
  | ok {a b : α} : R a b → SameOutcome R (.ok a) (.ok b)
  | error {e f : ParseError} : e.expected = f.expected → e.found = f.found →
      SameOutcome R (.error e) (.error f)

theorem SameOutcome.mono {α : Type} {R S : α → α → Prop} {x y : Except ParseError α}
    (h : SameOutcome R x y) (hrs : ∀ a b, R a b → S a b) : SameOutcome S x y := by
  cases h with
  | ok h => exact .ok (hrs _ _ h)
  | error he hf => exact .error he hf

/-- The same outcome of two parsers that come to an end: neither goes round without reading. -/
inductive SameEnd {α : Type} (R : α → α → Prop) :
    Except ParseError α → Except ParseError α → Prop
  | ok {a b : α} : R a b → SameEnd R (.ok a) (.ok b)
  | error {e f : ParseError} : e.expected = f.expected → e.found = f.found →
      e.expected ≠ .progress → SameEnd R (.error e) (.error f)

theorem SameEnd.mono {α : Type} {R S : α → α → Prop} {x y : Except ParseError α}
    (h : SameEnd R x y) (hrs : ∀ a b, R a b → S a b) : SameEnd S x y := by
  cases h with
  | ok h => exact .ok (hrs _ _ h)
  | error he hf hne => exact .error he hf hne

namespace Parse

variable {α β γ : Type} {v : View} {j k : Nat} {pre : Token.Kind → Prop} {moves moves' : α → Prop}
  {goes : β → Prop} {V V' : α → α → Prop} {W : β → β → Prop}

/-- The results are related by `V`, and reading goes on alike. From the cursor `c` on a token was
read if the result is as `moves` says. -/
structure Onward (v : View) (c : Cursor) (moves : α → Prop) (V : α → α → Prop)
    (p q : α × Cursor) : Prop where
  result : V p.1 q.1
  alike : p.2.Alike v q.2
  advances : c.Advances p.2
  lt : moves p.1 → p.2.unread.length < c.unread.length

theorem Onward.le {c : Cursor} {p q : α × Cursor} (h : Onward v c moves V p q) :
    p.2.unread.length ≤ c.unread.length := h.advances.le

theorem Onward.after {c c' : Cursor} {rx ry : Except ParseError (α × Cursor)}
    (hx : SameEnd (Onward v c' moves V) rx ry) (hs : c.Advances c')
    (hlt : c'.unread.length < c.unread.length) : SameEnd (Onward v c moves' V) rx ry :=
  hx.mono fun _ _ h ↦ ⟨h.result, h.alike, hs.trans h.advances,
    fun _ ↦ Nat.lt_of_le_of_lt h.le hlt⟩

theorem Onward.past {c c' : Cursor} {rx ry : Except ParseError (α × Cursor)}
    (hx : SameEnd (Onward v c' moves V) rx ry) (hs : c.Advances c') :
    SameEnd (Onward v c moves V) rx ry :=
  hx.mono fun _ _ h ↦ ⟨h.result, h.alike, hs.trans h.advances,
    fun hm ↦ Nat.lt_of_lt_of_le (h.lt hm) hs.le⟩

/-- From cursors that are alike, with at most `k` tokens left and before a token as `pre` says, both
parsers come to the same. -/
def Agrees (v : View) (k : Nat) (pre : Token.Kind → Prop) (moves : α → Prop) (V : α → α → Prop)
    (x y : Parse α) : Prop :=
  ∀ c d : Cursor, c.Alike v d → c.unread.length ≤ k → pre c.kind →
    SameEnd (Onward v c moves V) (x c) (y d)

/-- Steps of a repetition come to the same. A step reads a token unless it is the last one, which
does so if `last` says it. -/
abbrev Steps (v : View) (k : Nat) (last : Prop) (V : α → α → Prop) (W : β → β → Prop)
    (x y : Parse (α ⊕ β)) : Prop :=
  Agrees v k (fun _ ↦ True) (Sum.elim (fun _ ↦ True) fun _ ↦ last) (Sum.LiftRel V W) x y

namespace Agrees

variable {x x' y y' : Parse α} {f g : α → Parse β}

theorem bind_of {c d : Cursor} (hx : SameEnd (Onward v c moves V) (x c) (y d))
    (hf : ∀ p q, x c = .ok p → Onward v c moves V p q →
      SameEnd (Onward v c goes W) (f p.1 p.2) (g q.1 q.2)) :
    SameEnd (Onward v c goes W) ((x >>= f) c) ((y >>= g) d) := by
  change SameEnd _ (x c >>= fun p ↦ f p.1 p.2) (y d >>= fun q ↦ g q.1 q.2)
  generalize hr : x c = rx, y d = ry at hx
  cases hx with
  | ok h => exact hf _ _ hr h
  | error he hf hne => exact .error he hf hne

theorem bind_moves (hx : Agrees v k pre moves V x y)
    (hread : ∀ j, j < k → ∀ a b, V a b → moves a →
      Agrees v j (fun _ ↦ True) (fun _ ↦ False) W (f a) (g b))
    (hstill : ∀ a b, V a b → ¬ moves a → Agrees v k (fun _ ↦ True) goes W (f a) (g b)) :
    Agrees v k pre goes W (x >>= f) (y >>= g) := by
  intro c d h hk hp
  refine bind_of (hx c d h hk hp) fun p q _ hpq ↦ ?_
  by_cases hm : moves p.1
  · have hlt := hpq.lt hm
    exact Onward.after (hread _ (Nat.lt_of_lt_of_le hlt hk) _ _ hpq.result hm _ _ hpq.alike
      (Nat.le_refl _) trivial) hpq.advances hlt
  · exact Onward.past (hstill _ _ hpq.result hm _ _ hpq.alike (Nat.le_trans hpq.le hk) trivial)
      hpq.advances

theorem bind (hx : Agrees v k pre (fun _ ↦ False) V x y)
    (hf : ∀ a b, V a b → Agrees v k (fun _ ↦ True) goes W (f a) (g b)) :
    Agrees v k pre goes W (x >>= f) (y >>= g) :=
  hx.bind_moves (fun _ _ _ _ _ ↦ False.elim) fun a b h _ ↦ hf a b h

theorem reading (hx : Agrees v k pre (fun _ ↦ True) V x y)
    (hf : ∀ j, j < k → ∀ a b, V a b → Agrees v j (fun _ ↦ True) (fun _ ↦ False) W (f a) (g b)) :
    Agrees v k pre goes W (x >>= f) (y >>= g) :=
  hx.bind_moves (fun j hj a b h _ ↦ hf j hj a b h) fun _ _ _ hm ↦ absurd trivial hm

theorem at_next {c d : Cursor}
    (hx : Agrees v c.next.unread.length (· = c.next.kind) (fun _ ↦ False) V x y) (h : c.Alike v d)
    (hc : c.kind ≠ .eof) : SameEnd (Onward v c moves V) (x c.next) (y d.next) :=
  Onward.after (hx _ _ (h.next hc) (Nat.le_refl _) rfl) (.next hc) (Cursor.next_lt hc)

theorem mono (hx : Agrees v k pre moves V x y) (hm : ∀ a, moves' a → moves a)
    (hV : ∀ a b, V a b → V' a b) : Agrees v k pre moves' V' x y := fun c d h hk hp ↦
  (hx c d h hk hp).mono fun _ _ hpq ↦
    ⟨hV _ _ hpq.result, hpq.alike, hpq.advances, fun h ↦ hpq.lt (hm _ h)⟩

theorem still (hx : Agrees v k pre moves V x y) : Agrees v k pre (fun _ ↦ False) V x y :=
  hx.mono (fun _ ↦ False.elim) fun _ _ ↦ id

theorem of_kind (hx : ∀ t, pre t → Agrees v k (· = t) moves V x y) : Agrees v k pre moves V x y :=
  fun c d h hk hp ↦ hx c.kind hp c d h hk rfl

theorem weaken (hx : Agrees v k (fun _ ↦ True) moves V x y) : Agrees v k pre moves V x y :=
  fun c d h hk _ ↦ hx c d h hk trivial

theorem fewer (hx : Agrees v k pre moves V x y) (hj : j ≤ k) : Agrees v j pre moves V x y :=
  fun c d h hk hp ↦ hx c d h (Nat.le_trans hk hj) hp

theorem pure {a b : α} (h : V a b) (hm : ¬ moves a) :
    Agrees v k pre moves V (Pure.pure a) (Pure.pure b) :=
  fun _ _ hcd _ _ ↦ .ok ⟨h, hcd, .refl, fun h ↦ absurd h hm⟩

theorem failAt {expected : Expected} {found : Found} (s s' : Span) (he : expected ≠ .progress) :
    Agrees v k pre moves V (failAt expected found s) (failAt expected found s') :=
  fun _ _ _ _ _ ↦ .error rfl rfl he

theorem unexpected {expected : Expected} (he : expected ≠ .progress) :
    Agrees v k pre moves V (unexpected expected) (unexpected expected) :=
  fun _ _ h _ _ ↦ .error rfl (congrArg Found.token h.kind) he

theorem bind_kind {f g : Token.Kind → Parse β}
    (hf : ∀ t, pre t → Agrees v k (· = t) goes W (f t) (g t)) :
    Agrees v k pre goes W (kind >>= f) (kind >>= g) := by
  intro c d h hk hp
  change SameEnd _ (f c.kind c) (g d.kind d)
  rw [← h.kind]
  exact hf c.kind hp c d h hk rfl

theorem get_bind (f : Cursor → Parse β) (c : Cursor) : (get >>= f) c = f c c := rfl

theorem advance_bind (f : Span → Parse β) (c : Cursor) : (advance >>= f) c = f c.span c.next := rfl

theorem bind_get {f g : Cursor → Parse β}
    (hf : ∀ c d, c.Alike v d → pre c.kind → Agrees v k (· = c.kind) goes W (f c) (g d)) :
    Agrees v k pre goes W (get >>= f) (get >>= g) :=
  fun c d h hk hp ↦ hf c d h hp c d h hk rfl

theorem bind_span {f g : Span → Parse β}
    (hf : ∀ s s', Agrees v k (fun t ↦ pre t ∧ (t ≠ .eof → v.span s = v.span s')) goes W (f s)
      (g s')) :
    Agrees v k pre goes W (span >>= f) (span >>= g) := fun c d h hk hp ↦
  hf c.span d.span c d h hk ⟨hp, h.span⟩

theorem bind_previous {f g : Span → Parse β}
    (hf : ∀ s s', v.span s = v.span s' → Agrees v k pre goes W (f s) (g s')) :
    Agrees v k pre goes W (previous >>= f) (previous >>= g) := fun c d h hk hp ↦
  hf c.previous d.previous h.previous c d h hk hp

theorem bind_atMark {m : Mark} {f g : Bool → Parse β}
    (hf : ∀ b, Agrees v k pre goes W (f b) (g b)) :
    Agrees v k pre goes W (atMark m >>= f) (atMark m >>= g) := by
  intro c d h hk hp
  change SameEnd _ (f (c.kind == .mark m) c) (g (d.kind == .mark m) d)
  rw [← h.kind]
  exact hf _ c d h hk hp

theorem advance (hp : ¬ pre .eof) :
    Agrees v k pre (fun _ ↦ True) (v.span · = v.span ·) advance advance := by
  intro c d h hk hc
  have heof : c.kind ≠ .eof := fun heq ↦ hp (heq ▸ hc)
  exact .ok ⟨h.span heof, h.next heof, .next heof, fun _ ↦ Cursor.next_lt heof⟩

theorem skipNewlines :
    Agrees v k pre (fun _ ↦ False) (fun _ _ ↦ True) skipNewlines skipNewlines :=
  fun c _ h _ _ ↦ .ok ⟨trivial, h.skipNewlines, c.skipNewlines_advances, False.elim⟩

theorem skipNewline (hp : ∀ t, pre t → t = .newline) :
    Agrees v k pre (fun _ ↦ True) (fun _ _ ↦ True) Parse.skipNewlines Parse.skipNewlines :=
  fun c _ h _ hc ↦ .ok ⟨trivial, h.skipNewlines, c.skipNewlines_advances,
    fun _ ↦ Cursor.skipNewlines_lt (hp _ hc)⟩

theorem skipSeparators :
    Agrees v k pre (fun _ ↦ False) (fun _ _ ↦ True) skipSeparators skipSeparators :=
  fun c _ h _ _ ↦ .ok ⟨trivial, h.skipSeparators, c.skipSeparators_advances, False.elim⟩

theorem ite {b : Bool} (hx : b = true → Agrees v k pre moves V x x')
    (hy : b = false → Agrees v k pre moves V y y') :
    Agrees v k pre moves V (if b = true then x else y) (if b = true then x' else y') := by
  cases b with
  | true => exact hx rfl
  | false => exact hy rfl

theorem join {b : Bool} (hx : Agrees v k pre (fun _ ↦ False) V x x')
    (hy : Agrees v k pre (fun _ ↦ False) V y y')
    (hf : ∀ a b, V a b → Agrees v k (fun _ ↦ True) goes W (f a) (g b)) :
    Agrees v k pre goes W (if b = true then x >>= f else y >>= f)
      (if b = true then x' >>= g else y' >>= g) :=
  ite (fun _ ↦ bind hx hf) fun _ ↦ bind hy hf

theorem eat_ite {t : Token.Kind} (ht : (Token.Kind.eof == t) = false)
    (hx : ∀ j, j < k → Agrees v j (fun _ ↦ True) (fun _ ↦ False) V x x')
    (hy : Agrees v k pre moves V y y') :
    Agrees v k pre moves V (eat t >>= fun b ↦ if b = true then x else y)
      (eat t >>= fun b ↦ if b = true then x' else y') := by
  intro c d h hk hp
  change SameEnd _ ((if c.kind == t then .ok (true, c.next) else .ok (false, c)) >>=
      fun p : Bool × Cursor ↦ (if p.1 = true then x else y) p.2)
    ((if d.kind == t then .ok (true, d.next) else .ok (false, d)) >>=
      fun p : Bool × Cursor ↦ (if p.1 = true then x' else y') p.2)
  rw [← h.kind]
  cases hkind : c.kind == t with
  | true =>
    have heof : c.kind ≠ .eof := fun heof ↦ by
      rw [heof, ht] at hkind
      cases hkind
    have hlt := Cursor.next_lt heof
    exact Onward.after (hx _ (Nat.lt_of_lt_of_le hlt hk) _ _ (h.next heof) (Nat.le_refl _) trivial)
      (.next heof) hlt
  | false => exact hy c d h hk hp

theorem eatMark_ite {m : Mark}
    (hx : ∀ j, j < k → Agrees v j (fun _ ↦ True) (fun _ ↦ False) V x x')
    (hy : Agrees v k pre moves V y y') :
    Agrees v k pre moves V (eatMark m >>= fun b ↦ if b = true then x else y)
      (eatMark m >>= fun b ↦ if b = true then x' else y') := eat_ite rfl hx hy

theorem eatKeyword_ite {w : Keyword}
    (hx : ∀ j, j < k → Agrees v j (fun _ ↦ True) (fun _ ↦ False) V x x')
    (hy : Agrees v k pre moves V y y') :
    Agrees v k pre moves V (eatKeyword w >>= fun b ↦ if b = true then x else y)
      (eatKeyword w >>= fun b ↦ if b = true then x' else y') := eat_ite rfl hx hy

theorem at_ite {t : Token.Kind} (ht : (Token.Kind.eof == t) = false)
    (hx : Agrees v k (fun s ↦ pre s ∧ s ≠ .eof) moves V x x') (hy : Agrees v k pre moves V y y') :
    Agrees v k pre moves V ((do return (← kind) == t) >>= fun b ↦ if b = true then x else y)
      ((do return (← kind) == t) >>= fun b ↦ if b = true then x' else y') := by
  intro c d h hk hp
  change SameEnd _ ((if (c.kind == t) = true then x else y) c)
    ((if (d.kind == t) = true then x' else y') d)
  rw [← h.kind]
  cases hkind : c.kind == t with
  | true =>
    refine hx c d h hk ⟨hp, fun heof ↦ ?_⟩
    rw [heof, ht] at hkind
    cases hkind
  | false => exact hy c d h hk hp

theorem atMark_ite {m : Mark} (hx : Agrees v k (fun s ↦ pre s ∧ s ≠ .eof) moves V x x')
    (hy : Agrees v k pre moves V y y') :
    Agrees v k pre moves V (atMark m >>= fun b ↦ if b = true then x else y)
      (atMark m >>= fun b ↦ if b = true then x' else y') := at_ite rfl hx hy

theorem atKeyword_ite {w : Keyword} (hx : Agrees v k (fun s ↦ pre s ∧ s ≠ .eof) moves V x x')
    (hy : Agrees v k pre moves V y y') :
    Agrees v k pre moves V (atKeyword w >>= fun b ↦ if b = true then x else y)
      (atKeyword w >>= fun b ↦ if b = true then x' else y') := at_ite rfl hx hy

theorem eat {t : Token.Kind} (ht : (Token.Kind.eof == t) = false) :
    Agrees v k pre (fun _ ↦ False) Eq (eat t) (eat t) := by
  intro c d h hk hp
  unfold Parse.eat
  rw [← h.kind]
  cases hkind : c.kind == t with
  | true =>
    have heof : c.kind ≠ .eof := fun heof ↦ by
      rw [heof, ht] at hkind
      cases hkind
    exact .ok ⟨rfl, h.next heof, .next heof, False.elim⟩
  | false => exact .ok ⟨rfl, h, .refl, False.elim⟩

theorem expect (m : Mark) :
    Agrees v k pre (fun _ ↦ True) (v.span · = v.span ·) (expect m) (expect m) := by
  refine bind_kind fun t _ ↦ ite (fun ht ↦ advance fun heof ↦ ?_) fun _ ↦ unexpected nofun
  subst heof
  cases ht

theorem endOf (construct : Keyword) :
    Agrees v k pre (fun _ ↦ True) (v.span · = v.span ·) (endOf construct) (endOf construct) :=
  atKeyword_ite (advance fun h ↦ h.2 rfl) (unexpected nofun)

theorem separator :
    Agrees v k pre (fun _ ↦ False) (fun _ _ ↦ True) separator separator :=
  bind_kind fun _ _ ↦ ite (fun _ ↦ skipSeparators) fun _ ↦ unexpected nofun

theorem identifier :
    Agrees v k pre (fun _ ↦ True) (v.ident · = v.ident ·) identifier identifier := by
  refine bind_kind fun t _ ↦ ?_
  cases t with
  | identifier name =>
    exact reading (advance nofun) fun j _ s s' hs ↦ pure (congrArg (Ident.mk name) hs) id
  | _ => exact unexpected nofun

theorem constantName :
    Agrees v k pre (fun _ ↦ True) (v.ident · = v.ident ·) constantName constantName := by
  refine bind_kind fun t _ ↦ ?_
  cases t with
  | constant name =>
    exact reading (advance nofun) fun j _ s s' hs ↦ pure (congrArg (Ident.mk name) hs) id
  | _ => exact unexpected nofun

theorem iterate {step step' : α → Parse (α ⊕ β)} {last : Prop}
    (hstep : ∀ a b, V a b → Steps v k last V W (step a) (step' b)) {a b : α} (ha : V a b) :
    Agrees v k pre (fun _ ↦ last) W (iterate step a) (iterate step' b) := by
  -- The two bounds may differ. Neither is hit, as each step but the last reads a token.
  have upTo (n : Nat) : ∀ m a b c d, V a b → c.Alike v d → c.unread.length ≤ k →
      c.unread.length < n → d.unread.length < m → SameEnd (Onward v c (fun _ ↦ last) W)
        (repeatUpTo step n a c) (repeatUpTo step' m b d) := by
    induction n with
    | zero => exact fun _ _ _ _ _ _ _ _ hn ↦ absurd hn (Nat.not_lt_zero _)
    | succ n ih =>
      intro m a b c d hab h hk hn hm
      obtain ⟨m, rfl⟩ : ∃ i, m = i + 1 := ⟨m - 1, by omega⟩
      refine bind_of (hstep a b hab c d h hk trivial) fun ⟨r, c'⟩ ⟨s, d'⟩ _ hrs ↦ ?_
      obtain ⟨hr, halike, hadvances, hlt⟩ := hrs
      cases hr with
      | inl hab' =>
        have hlen := halike.length
        have hlt : c'.unread.length < c.unread.length := hlt trivial
        have hlen' := h.length
        dsimp only at hlen
        exact Onward.after (ih m _ _ c' d' hab' halike (by omega) (by omega) (by omega))
          hadvances hlt
      | inr hw => exact .ok ⟨hw, halike, hadvances, hlt⟩
  exact fun c d h hk _ ↦ upTo c.limit d.limit a b c d ha h hk h.unread_lt
    (h.length ▸ h.unread_lt')

end Agrees

end Parse

end Quill.Grammar
